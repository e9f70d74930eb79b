/-
Donkeyji.Lib.SwapPool — pools whose elements in use come first.

A pool has its elements in slots. The first `used` are in use; such an element
knows its slot, and any other has the index -1. An element is taken from the
first free slot. Releasing one moves the last element in use into its slot.

`Ok` is the invariant, `Active` the elements in use. The operations keep the
one and change the other by one element.
-/
import Mathlib.Tactic

namespace SwapPool

/-- A pool, with the slot that each element believes to be in. -/
structure Pool (α : Type*) where
  slots : List α
  used : Nat
  index : α → Int

variable {α : Type*} {p : Pool α} {a b : α}

/-- The slots and the indices agree. -/
structure Ok (p : Pool α) : Prop where
  nodup : p.slots.Nodup
  used_le : p.used ≤ p.slots.length
  index : ∀ i a, p.slots[i]? = some a → p.index a = if i < p.used then (i : Int) else -1

/-- The element is in use. -/
def Active (p : Pool α) (a : α) : Prop := ∃ i < p.used, p.slots[i]? = some a

/-- The element is in use exactly if it has an index. -/
theorem Ok.active_iff (h : Ok p) (hmem : a ∈ p.slots) : Active p a ↔ p.index a ≠ -1 := by
  obtain ⟨i, hi⟩ := List.mem_iff_getElem?.mp hmem
  have hindex := h.index i a hi
  constructor
  · intro hact
    obtain ⟨j, hj, ha⟩ := hact
    rw [h.index j a ha, if_pos hj]
    omega
  · intro hne
    by_cases hlt : i < p.used
    · exact ⟨i, hlt, hi⟩
    · rw [if_neg hlt] at hindex
      exact absurd hindex hne

theorem Active.mem (h : Active p a) : a ∈ p.slots := by
  obtain ⟨i, -, ha⟩ := h
  exact List.mem_of_getElem? ha

/-- No two slots have the same element. -/
theorem Ok.slot_inj (h : Ok p) {i j : Nat} (hi : p.slots[i]? = some a) (hj : p.slots[j]? = some a) :
    i = j := by
  have hlt : i < p.slots.length := (List.getElem?_eq_some_iff.mp hi).1
  exact (List.getElem?_inj hlt h.nodup).mp (hi.trans hj.symm)

/-- The first free slot has an element that is not in use. -/
theorem not_active_of_free (h : Ok p) (ha : p.slots[p.used]? = some a) : ¬ Active p a := by
  intro hact
  obtain ⟨i, hi, hia⟩ := hact
  have := h.slot_inj hia ha
  omega

/-! ## More elements -/

/-- New elements are put behind the others. -/
def grow (p : Pool α) (new : List α) : Pool α := { p with slots := p.slots ++ new }

theorem grow_ok (h : Ok p) {new : List α} (hnew : new.Nodup) (hfresh : ∀ a ∈ new, a ∉ p.slots)
    (hindex : ∀ a ∈ new, p.index a = -1) : Ok (grow p new) := by
  refine ⟨?_, ?_, ?_⟩
  · exact List.nodup_append.mpr ⟨h.nodup, hnew, fun a ha b hb hab => hfresh b hb (hab ▸ ha)⟩
  · have hle := h.used_le
    simp only [grow, List.length_append]
    omega
  · intro i a ha
    have hle := h.used_le
    change (p.slots ++ new)[i]? = some a at ha
    change p.index a = if i < p.used then (i : Int) else -1
    by_cases hlt : i < p.slots.length
    · rw [List.getElem?_append_left hlt] at ha
      exact h.index i a ha
    · rw [List.getElem?_append_right (by omega)] at ha
      rw [hindex a (List.mem_of_getElem? ha), if_neg (by omega)]

/-- New elements are not in use. -/
theorem active_grow (h : Ok p) (new : List α) : Active (grow p new) a ↔ Active p a := by
  refine exists_congr fun i => and_congr_right fun hi => ?_
  have hle := h.used_le
  have hused : (grow p new).used = p.used := rfl
  simp only [grow]
  rw [List.getElem?_append_left (by omega)]

variable [DecidableEq α]

/-! ## Taking -/

/-- The element of the first free slot is taken into use. -/
def take (p : Pool α) (a : α) : Pool α :=
  { p with used := p.used + 1, index := Function.update p.index a p.used }

theorem take_ok (h : Ok p) (ha : p.slots[p.used]? = some a) : Ok (take p a) := by
  have hlt : p.used < p.slots.length := (List.getElem?_eq_some_iff.mp ha).1
  refine ⟨h.nodup, by simp only [take]; omega, ?_⟩
  intro i b hb
  change p.slots[i]? = some b at hb
  change Function.update p.index a p.used b = if i < p.used + 1 then (i : Int) else -1
  by_cases hba : b = a
  · subst hba
    have hi := h.slot_inj hb ha
    simp [hi]
  · have hne : i ≠ p.used := fun hi => hba (Option.some.inj ((hi ▸ hb).symm.trans ha))
    rw [Function.update_of_ne hba, h.index i b hb]
    by_cases hi : i < p.used
    · rw [if_pos hi, if_pos (by omega)]
    · rw [if_neg hi, if_neg (by omega)]

theorem active_take (ha : p.slots[p.used]? = some a) :
    Active (take p a) b ↔ Active p b ∨ b = a := by
  constructor
  · intro hact
    obtain ⟨i, hi, hib⟩ := hact
    simp only [take] at hi hib
    by_cases hlt : i < p.used
    · exact Or.inl ⟨i, hlt, hib⟩
    · have hused : i = p.used := by omega
      rw [hused, ha] at hib
      exact Or.inr (Option.some.inj hib).symm
  · intro h
    cases h with
    | inl hact =>
      obtain ⟨i, hi, hib⟩ := hact
      exact ⟨i, Nat.lt_succ_of_lt hi, hib⟩
    | inr hba =>
      subst hba
      exact ⟨p.used, Nat.lt_succ_self _, ha⟩

/-! ## Replacing -/

/-- A new element replaces the one in the first free slot, and is taken into use. -/
def put (p : Pool α) (a : α) : Pool α := take { p with slots := p.slots.set p.used a } a

theorem put_ok (h : Ok p) (hroom : p.used < p.slots.length) (hnew : a ∉ p.slots)
    (hindex : p.index a = -1) : Ok (put p a) := by
  refine take_ok ⟨?_, by simp only [List.length_set]; omega, ?_⟩ (List.getElem?_set_self hroom)
  · exact h.nodup.set hnew
  · intro i b hb
    change (p.slots.set p.used a)[i]? = some b at hb
    change p.index b = if i < p.used then (i : Int) else -1
    by_cases hi : p.used = i
    · rw [← hi, List.getElem?_set_self hroom, Option.some.injEq] at hb
      rw [← hb, hindex, if_neg (by omega)]
    · rw [List.getElem?_set_ne hi] at hb
      exact h.index i b hb

/-- The elements in use, and the new one. -/
theorem active_put (hroom : p.used < p.slots.length) :
    Active (put p a) b ↔ Active p b ∨ b = a := by
  rw [put, active_take (List.getElem?_set_self hroom)]
  refine or_congr_left (exists_congr fun i => and_congr_right fun hi => ?_)
  change i < p.used at hi
  change (p.slots.set p.used a)[i]? = some b ↔ _
  rw [List.getElem?_set_ne (by omega)]

/-! ## Releasing -/

/-- The last element in use, `b`, moves to the slot `i` of the released one, `a`. -/
def release (p : Pool α) (i : Nat) (a b : α) : Pool α where
  slots := (p.slots.set i b).set (p.used - 1) a
  used := p.used - 1
  index := Function.update (Function.update p.index b i) a (-1)

/-- The slots after a release. -/
theorem getElem?_release {i j : Nat} (hi : i < p.slots.length) (hlast : p.used - 1 < p.slots.length) :
    (release p i a b).slots[j]? =
      if j = p.used - 1 then some a else if j = i then some b else p.slots[j]? := by
  simp only [release, List.getElem?_set, List.length_set]
  by_cases hj : p.used - 1 = j
  · rw [if_pos hj, if_pos hlast, if_pos hj.symm]
  · rw [if_neg hj, if_neg (Ne.symm hj)]
    by_cases hji : i = j
    · rw [if_pos hji, if_pos hi, if_pos hji.symm]
    · rw [if_neg hji, if_neg (Ne.symm hji)]

section Release

variable {i : Nat} (h : Ok p) (hi : i < p.used) (ha : p.slots[i]? = some a)
  (hb : p.slots[p.used - 1]? = some b)

include h hi ha hb

theorem release_ok : Ok (release p i a b) := by
  have hle := h.used_le
  have hlt : i < p.slots.length := by omega
  have hlast : p.used - 1 < p.slots.length := by omega
  refine ⟨?_, by simp only [release, List.length_set]; omega, ?_⟩
  · have hperm := List.set_set_perm hlt hlast
    rw [(List.getElem?_eq_some_iff.mp ha).2, (List.getElem?_eq_some_iff.mp hb).2] at hperm
    exact hperm.nodup_iff.mpr h.nodup
  · intro j c hc
    rw [getElem?_release hlt hlast] at hc
    change Function.update (Function.update p.index b i) a (-1) c =
      if j < p.used - 1 then (j : Int) else -1
    by_cases hjlast : j = p.used - 1
    · rw [if_pos hjlast] at hc
      cases hc
      rw [Function.update_self, if_neg (by omega)]
    · rw [if_neg hjlast] at hc
      by_cases hji : j = i
      · rw [if_pos hji] at hc
        cases hc
        have hba : b ≠ a := by
          intro hba
          have := h.slot_inj (hba ▸ hb) ha
          omega
        rw [Function.update_of_ne hba, Function.update_self, if_pos (by omega), hji]
      · rw [if_neg hji] at hc
        have hca : c ≠ a := fun hca => hji (h.slot_inj (hca ▸ hc) ha)
        have hcb : c ≠ b := fun hcb => hjlast (h.slot_inj (hcb ▸ hc) hb)
        rw [Function.update_of_ne hca, Function.update_of_ne hcb, h.index j c hc]
        by_cases hj : j < p.used
        · rw [if_pos hj, if_pos (by omega)]
        · rw [if_neg hj, if_neg (by omega)]

/-- **Only the released element leaves.** -/
theorem active_release {c : α} : Active (release p i a b) c ↔ Active p c ∧ c ≠ a := by
  have hle := h.used_le
  have hlt : i < p.slots.length := by omega
  have hlast : p.used - 1 < p.slots.length := by omega
  have hused : (release p i a b).used = p.used - 1 := rfl
  constructor
  · intro hact
    obtain ⟨j, hj, hc⟩ := hact
    rw [getElem?_release hlt hlast, if_neg (by omega)] at hc
    by_cases hji : j = i
    · rw [if_pos hji] at hc
      cases hc
      refine ⟨⟨p.used - 1, by omega, hb⟩, ?_⟩
      intro hba
      have := h.slot_inj (hba ▸ hb) ha
      omega
    · rw [if_neg hji] at hc
      exact ⟨⟨j, by omega, hc⟩, fun hca => hji (h.slot_inj (hca ▸ hc) ha)⟩
  · intro hact
    obtain ⟨⟨j, hj, hc⟩, hca⟩ := hact
    have hji : j ≠ i := fun hji => hca (Option.some.inj ((hji ▸ hc).symm.trans ha))
    by_cases hjlast : j = p.used - 1
    · -- the last element in use is now in the slot `i`
      have hcb : c = b := Option.some.inj ((hjlast ▸ hc).symm.trans hb)
      refine ⟨i, by omega, ?_⟩
      rw [getElem?_release hlt hlast, if_neg (by omega), if_pos rfl, hcb]
    · refine ⟨j, by omega, ?_⟩
      rw [getElem?_release hlt hlast, if_neg hjlast, if_neg hji]
      exact hc

end Release

/-- A release leaves every element in the pool. -/
theorem mem_release {i : Nat} (h : Ok p) (hi : i < p.used) (ha : p.slots[i]? = some a)
    (hb : p.slots[p.used - 1]? = some b) {c : α} :
    c ∈ (release p i a b).slots ↔ c ∈ p.slots := by
  have hle := h.used_le
  have hlt : i < p.slots.length := by omega
  have hlast : p.used - 1 < p.slots.length := by omega
  have hperm := List.set_set_perm hlt hlast
  rw [(List.getElem?_eq_some_iff.mp ha).2, (List.getElem?_eq_some_iff.mp hb).2] at hperm
  exact hperm.mem_iff

end SwapPool
