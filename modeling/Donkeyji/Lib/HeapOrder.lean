/-
Donkeyji.Lib.HeapOrder — the order of a binary heap in an array.

`k i` is the key in cell `i`. `Ordered k n` says that among the first `n`
cells no key is less than the one above it. A sift carries a hole, a cell
whose key does not count, and a key `x` that is to be put there: `Loose` is
what is true of the other cells, `UpOrder` also puts `x` above what is below
the hole. One move of a sift copies a neighbour into the hole, which keeps
`Loose`; the last step puts `x` into it.
-/
import Mathlib.Order.Basic
import Mathlib.Order.Lattice
import Mathlib.Tactic

namespace BinHeap

variable {α : Type*} [LinearOrder α] {k : Nat → α} {n hole i j : Nat} {x : α}

/-- The cell above a cell. -/
def parent (i : Nat) : Nat := (i - 1) / 2

/-- `c` is below `i`. Cell 0 is below no cell. -/
def IsChild (c i : Nat) : Prop := 0 < c ∧ parent c = i

/-- No key is less than the one above it. -/
def Ordered (k : Nat → α) (n : Nat) : Prop := ∀ i < n, 0 < i → k (parent i) ≤ k i

theorem parent_lt (h : 0 < i) : parent i < i := by
  unfold parent
  omega

/-- The cells below a cell. -/
theorem isChild_iff {c : Nat} : IsChild c i ↔ c = 2 * i + 1 ∨ c = 2 * i + 2 := by
  unfold IsChild parent
  omega

/-- The first key is the least. -/
theorem Ordered.first_le (h : Ordered k n) : ∀ i < n, k 0 ≤ k i := by
  intro i
  induction i using Nat.strong_induction_on with
  | _ i ih =>
    intro hi
    rcases Nat.eq_zero_or_pos i with rfl | hpos
    · exact le_refl _
    · have hlt := parent_lt hpos
      exact (ih (parent i) hlt (by omega)).trans (h i hi hpos)

/-- Keys that are changed in an order preserving way stay in order. -/
theorem Ordered.map {β : Type*} [LinearOrder β] {k' : Nat → β} (h : Ordered k n)
    (hmono : ∀ i < n, ∀ j < n, k i ≤ k j → k' i ≤ k' j) : Ordered k' n := by
  intro i hi hpos
  have hlt := parent_lt hpos
  exact hmono _ (by omega) i hi (h i hi hpos)

/-- The order of the cells off the hole, and across it. -/
structure Loose (k : Nat → α) (n hole : Nat) : Prop where
  off : ∀ i < n, 0 < i → i ≠ hole → parent i ≠ hole → k (parent i) ≤ k i
  across : 0 < hole → ∀ c < n, IsChild c hole → k (parent hole) ≤ k c

/-- Besides, `x` fits above the cells below the hole. -/
structure UpOrder (k : Nat → α) (n hole : Nat) (x : α) : Prop extends Loose k n hole where
  below : ∀ c < n, IsChild c hole → x ≤ k c

/-- A new last cell. -/
theorem Ordered.upOrder (h : Ordered k n) (x : α) : UpOrder k (n + 1) n x where
  off := by
    intro i hi hpos hne _
    exact h i (by omega) hpos
  across := by
    intro _ c hc hchild
    rw [isChild_iff] at hchild
    omega
  below := by
    intro c hc hchild
    rw [isChild_iff] at hchild
    omega

/-- The last cell is given up; any cell becomes the hole. -/
theorem Ordered.dropLast (h : Ordered k n) (hlt : hole < n) : Loose k (n - 1) hole where
  off := fun i hi hpos _ _ => h i (by omega) hpos
  across := by
    intro hpos c hc hchild
    have hup := h hole hlt hpos
    have hdown := h c (by omega) hchild.1
    rw [hchild.2] at hdown
    exact hup.trans hdown

/-- The hole moves up. -/
theorem UpOrder.up (h : UpOrder k n hole x) (hlt : hole < n) (hpos : 0 < hole)
    (hx : x < k (parent hole)) :
    UpOrder (Function.update k hole (k (parent hole))) n (parent hole) x := by
  have hup := parent_lt hpos
  have hold : ∀ c, c ≠ hole → Function.update k hole (k (parent hole)) c = k c :=
    fun c hc => Function.update_of_ne hc _ _
  refine ⟨⟨?_, ?_⟩, ?_⟩
  · intro i hi hipos hne hpar
    by_cases hih : i = hole
    · exact absurd (congrArg parent hih) hpar
    · rw [hold i hih]
      by_cases hph : parent i = hole
      · rw [hph, Function.update_self]
        exact h.across hpos i hi ⟨hipos, hph⟩
      · rw [hold _ hph]
        exact h.off i hi hipos hih hph
  · intro hpos' c hc hchild
    have hgrand := parent_lt hpos'
    rw [hold (parent (parent hole)) (by omega)]
    have htop : k (parent (parent hole)) ≤ k (parent hole) :=
      h.off (parent hole) (by omega) hpos' (by omega) (by omega)
    by_cases hch : c = hole
    · rw [hch, Function.update_self]
      exact htop
    · rw [hold c hch]
      have hside := h.off c hc hchild.1 hch (by rw [hchild.2]; omega)
      rw [hchild.2] at hside
      exact htop.trans hside
  · intro c hc hchild
    by_cases hch : c = hole
    · rw [hch, Function.update_self]
      exact hx.le
    · rw [hold c hch]
      have hside := h.off c hc hchild.1 hch (by rw [hchild.2]; omega)
      rw [hchild.2] at hside
      exact hx.le.trans hside

/-- The key is put into the hole. -/
theorem UpOrder.fill (h : UpOrder k n hole x) (hx : 0 < hole → k (parent hole) ≤ x) :
    Ordered (Function.update k hole x) n := by
  intro i hi hpos
  by_cases hih : i = hole
  · subst hih
    rw [Function.update_self, Function.update_of_ne (parent_lt hpos).ne]
    exact hx hpos
  · rw [Function.update_of_ne hih]
    by_cases hph : parent i = hole
    · rw [hph, Function.update_self]
      exact h.below i hi ⟨hpos, hph⟩
    · rw [Function.update_of_ne hph]
      exact h.off i hi hpos hih hph

/-- The hole moves down, to the least of the cells below it. -/
theorem Loose.down (h : Loose k n hole) (hj : j < n) (hchild : IsChild j hole)
    (hleast : ∀ c < n, IsChild c hole → k j ≤ k c) :
    Loose (Function.update k hole (k j)) n j := by
  have hjpos := hchild.1
  have hlow : hole < j := by
    have hlt := parent_lt hjpos
    rwa [hchild.2] at hlt
  have hold : ∀ c, c ≠ hole → Function.update k hole (k j) c = k c :=
    fun c hc => Function.update_of_ne hc _ _
  refine ⟨?_, ?_⟩
  · intro i hi hpos hne hpar
    by_cases hih : i = hole
    · subst hih
      have hup := parent_lt hpos
      rw [Function.update_self, hold _ hup.ne]
      exact h.across hpos j hj hchild
    · rw [hold i hih]
      by_cases hph : parent i = hole
      · rw [hph, Function.update_self]
        exact hleast i hi ⟨hpos, hph⟩
      · rw [hold _ hph]
        exact h.off i hi hpos hih hph
  · intro _ c hc hcj
    have hcpos := parent_lt hcj.1
    rw [hcj.2] at hcpos
    rw [hchild.2, Function.update_self, hold c (by omega)]
    have hbelow := h.off c hc hcj.1 (by omega) (by rw [hcj.2]; omega)
    rwa [hcj.2] at hbelow

/-- The hole stays: no key below it is less than `x`. -/
theorem Loose.stop (h : Loose k n hole) (hx : ∀ c < n, IsChild c hole → x ≤ k c) :
    UpOrder k n hole x := ⟨h, hx⟩

end BinHeap
