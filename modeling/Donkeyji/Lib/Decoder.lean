/-
Donkeyji.Lib.Decoder — decoders that look only at the bytes they take.

A decoder reads a value at the front of some bytes and says how many bytes it
took. `Local` says that a result depends on the bytes it took and on no byte
behind them. It is kept when decoders are put one behind the other.
-/
import Mathlib.Tactic

namespace Decoder

/-- A value at the front of some bytes, and the number of bytes it took. -/
abbrev Dec (α : Type*) := List UInt8 → Option (α × Nat)

variable {α β : Type*} {f : Dec α}

/-- Every result is that of the bytes taken, whatever stands behind them. -/
def Local (f : Dec α) : Prop :=
  ∀ buf a n, f buf = some (a, n) →
    ∃ front rest, buf = front ++ rest ∧ front.length = n ∧ ∀ rest', f (front ++ rest') = some (a, n)

/-- No more bytes are taken than there are. -/
theorem Local.le (h : Local f) {buf : List UInt8} {a : α} {n : Nat} (hf : f buf = some (a, n)) :
    n ≤ buf.length := by
  obtain ⟨front, rest, hbuf, hlen, -⟩ := h buf a n hf
  rw [hbuf, List.length_append]
  omega

/-- Bytes with the same front give the same result. -/
theorem Local.congr (h : Local f) {buf buf' : List UInt8} {a : α} {n : Nat}
    (hf : f buf = some (a, n)) (hbuf' : buf.take n <+: buf') : f buf' = some (a, n) := by
  obtain ⟨front, rest, hbuf, hlen, hall⟩ := h buf a n hf
  rw [hbuf, List.take_left' hlen] at hbuf'
  obtain ⟨rest', hrest'⟩ := hbuf'
  rw [← hrest']
  exact hall rest'

theorem local_pure (a : α) : Local fun _ => some (a, 0) := by
  intro buf b n h
  cases h
  exact ⟨[], buf, rfl, rfl, fun _ => rfl⟩

theorem local_none : Local fun _ => (none : Option (α × Nat)) := nofun

/-- A value of a fixed number of bytes. -/
def take (n : Nat) (g : List UInt8 → α) : Dec α := fun buf =>
  if buf.length < n then none else some (g (buf.take n), n)

theorem local_take (n : Nat) (g : List UInt8 → α) : Local (take n g) := by
  intro buf a m h
  unfold take at h
  split at h
  · cases h
  · rename_i hlen
    cases h
    have hfront : (buf.take n).length = n := List.length_take_of_le (by omega)
    refine ⟨buf.take n, buf.drop n, (List.take_append_drop n buf).symm, hfront, fun rest' => ?_⟩
    rw [take, List.take_left' hfront, if_neg (by rw [List.length_append]; omega)]

/-- A byte, and behind it what is read with its help. -/
theorem local_cons {g : UInt8 → Dec α} (hg : ∀ b, Local (g b)) (hnil : f [] = none)
    (hcons : ∀ b rest, f (b :: rest) = (g b rest).map fun r => (r.1, 1 + r.2)) : Local f := by
  intro buf a n h
  cases buf with
  | nil =>
    rw [hnil] at h
    cases h
  | cons b rest =>
    rw [hcons] at h
    obtain ⟨⟨a', m⟩, hgb, ham⟩ := Option.map_eq_some_iff.mp h
    cases ham
    obtain ⟨front, rest', hrest, hlen, hall⟩ := hg b rest a' m hgb
    refine ⟨b :: front, rest', by rw [hrest, List.cons_append], ?_, fun tail => ?_⟩
    · rw [List.length_cons, hlen, Nat.add_comm]
    · rw [List.cons_append, hcons, hall]
      rfl

theorem Local.map (h : Local f) (g : α → β) : Local fun buf => (f buf).map fun r => (g r.1, r.2) := by
  intro buf b n hb
  obtain ⟨⟨a, m⟩, ha, hab⟩ := Option.map_eq_some_iff.mp hb
  cases hab
  obtain ⟨front, rest, hbuf, hlen, hall⟩ := h buf a m ha
  exact ⟨front, rest, hbuf, hlen, fun rest' => by simp [hall rest']⟩

/-- A value, and behind it what is read with its help. -/
theorem Local.bind (h : Local f) {g : α → Dec β} (hg : ∀ a, Local (g a)) :
    Local fun buf => (f buf).bind fun r => (g r.1 (buf.drop r.2)).map fun q => (q.1, r.2 + q.2) := by
  intro buf b n hb
  obtain ⟨⟨a, m⟩, ha, hb⟩ := Option.bind_eq_some_iff.mp hb
  obtain ⟨⟨b', k⟩, hgb, hbk⟩ := Option.map_eq_some_iff.mp hb
  cases hbk
  obtain ⟨front, rest, rfl, rfl, hall⟩ := h buf a m ha
  rw [List.drop_left] at hgb
  obtain ⟨front2, rest2, rfl, rfl, hall2⟩ := hg a rest b' k hgb
  refine ⟨front ++ front2, rest2, (List.append_assoc _ _ _).symm, List.length_append, ?_⟩
  intro rest'
  simp [List.append_assoc, hall, hall2]

/-- A value that takes at least one byte. -/
def nonempty (f : Dec α) : Dec α := fun buf => (f buf).filter fun r => 0 < r.2

theorem Local.nonempty (h : Local f) : Local (nonempty f) := by
  intro buf a n ha
  obtain ⟨hf, hpos⟩ := Option.filter_eq_some_iff.mp ha
  obtain ⟨front, rest, hbuf, hlen, hall⟩ := h buf a n hf
  refine ⟨front, rest, hbuf, hlen, fun rest' => ?_⟩
  exact Option.filter_eq_some_iff.mpr ⟨hall rest', hpos⟩

end Decoder
