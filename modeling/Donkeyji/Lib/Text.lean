/-
Donkeyji.Lib.Text — texts that are joined with and split at a separator.

`List.splitOn` and `List.intercalate` undo each other when the separator is in
no part. The lemmas here say where a character of a joined or split text comes
from. `cutAt` is the cut at the first occurrence of a character, `showInt` and
`readInt` are decimal integers.
-/
import Mathlib.Tactic

namespace Text

variable {α : Type*} [DecidableEq α]

/-! ## Joining and splitting -/

/-- A part of a split text has only elements of the text. -/
theorem mem_of_mem_splitOn {sep a : α} {s part : List α} (hpart : part ∈ s.splitOn sep)
    (ha : a ∈ part) : a ∈ s := by
  induction s generalizing part with
  | nil =>
    rw [List.splitOn_nil, List.mem_singleton] at hpart
    rw [hpart] at ha
    cases ha
  | cons x s ih =>
    rw [List.splitOn_cons_eq_if_modifyHead] at hpart
    split at hpart
    · obtain rfl | hpart := List.mem_cons.mp hpart
      · cases ha
      · exact List.mem_cons_of_mem _ (ih hpart ha)
    · obtain ⟨first, rest, hsplit⟩ := List.exists_cons_of_ne_nil (List.splitOn_ne_nil sep s)
      rw [hsplit, List.modifyHead_cons] at hpart
      obtain rfl | hpart := List.mem_cons.mp hpart
      · obtain rfl | ha := List.mem_cons.mp ha
        · exact List.mem_cons_self
        · exact List.mem_cons_of_mem _ (ih (hsplit ▸ List.mem_cons_self) ha)
      · exact List.mem_cons_of_mem _ (ih (hsplit ▸ List.mem_cons_of_mem _ hpart) ha)

/-- The separator is in no part. -/
theorem notMem_of_mem_splitOn {sep : α} {s part : List α} (hpart : part ∈ s.splitOn sep) :
    sep ∉ part := by
  induction s generalizing part with
  | nil =>
    rw [List.splitOn_nil, List.mem_singleton] at hpart
    rw [hpart]
    exact List.not_mem_nil
  | cons x s ih =>
    rw [List.splitOn_cons_eq_if_modifyHead] at hpart
    split at hpart
    · obtain rfl | hpart := List.mem_cons.mp hpart
      · exact List.not_mem_nil
      · exact ih hpart
    · rename_i hx
      obtain ⟨first, rest, hsplit⟩ := List.exists_cons_of_ne_nil (List.splitOn_ne_nil sep s)
      rw [hsplit, List.modifyHead_cons] at hpart
      obtain rfl | hpart := List.mem_cons.mp hpart
      · rintro hmem
        obtain rfl | hmem := List.mem_cons.mp hmem
        · exact hx (beq_self_eq_true _)
        · exact ih (hsplit ▸ List.mem_cons_self) hmem
      · exact ih (hsplit ▸ List.mem_cons_of_mem _ hpart)

omit [DecidableEq α] in
/-- A joined text has the elements of its parts, and the separator only between parts. -/
theorem notMem_intercalate {sep a : α} {parts : List (List α)} (hparts : ∀ p ∈ parts, a ∉ p)
    (hsep : a ≠ sep ∨ parts.length ≤ 1) : a ∉ [sep].intercalate parts := by
  induction parts with
  | nil => exact List.not_mem_nil
  | cons p parts ih =>
    have hp := hparts p List.mem_cons_self
    cases parts with
    | nil => simpa using hp
    | cons q parts =>
      have hne : a ≠ sep := by
        refine hsep.resolve_right fun h => ?_
        simp at h
      have hrest := ih (fun r hr => hparts r (List.mem_cons_of_mem _ hr)) (.inl hne)
      rw [List.intercalate_cons_cons]
      simp only [List.mem_append, List.mem_singleton, not_or]
      exact ⟨⟨hp, hne⟩, hrest⟩

/-! ## The first occurrence -/

/-- The text before and after the first `c`, if there is one. -/
def cutAt (c : α) : List α → Option (List α × List α)
  | [] => none
  | x :: s => if x = c then some ([], s) else (cutAt c s).map fun p => (x :: p.1, p.2)

/-- A text without the character before its first occurrence. -/
theorem cutAt_append {c : α} {s : List α} (h : c ∉ s) (t : List α) :
    cutAt c (s ++ c :: t) = some (s, t) := by
  induction s with
  | nil => simp [cutAt]
  | cons x s ih =>
    obtain ⟨hx, hs⟩ := not_or.mp (List.mem_cons.not.mp h)
    rw [List.cons_append, cutAt, if_neg (Ne.symm hx), ih hs]
    rfl

/-- There is no cut without the character. -/
theorem cutAt_eq_none {c : α} {s : List α} : cutAt c s = none ↔ c ∉ s := by
  induction s with
  | nil => simp [cutAt]
  | cons x s ih =>
    rw [cutAt]
    by_cases hx : x = c
    · simp [hx]
    · simp [hx, Ne.symm hx, ih]

/-- Nothing is lost by the cut but the character. -/
theorem cutAt_eq_some {c : α} {s a b : List α} (h : cutAt c s = some (a, b)) : s = a ++ c :: b := by
  induction s generalizing a with
  | nil => cases h
  | cons x s ih =>
    rw [cutAt] at h
    split at h
    · rename_i hx
      cases h
      rw [hx, List.nil_append]
    · obtain ⟨⟨a', b'⟩, hcut, heq⟩ := Option.map_eq_some_iff.mp h
      cases heq
      rw [ih hcut, List.cons_append]

/-! ## Integers -/

/-- The decimal text of an integer. -/
def showInt (n : Int) : List Char :=
  if n < 0 then '-' :: Nat.toDigits 10 n.natAbs else Nat.toDigits 10 n.natAbs

/-- White space around a number. -/
def isSpace (c : Char) : Bool := c ∈ [' ', '\t', '\n', '\r', '\x0b', '\x0c']

/-- The text without the white space around it. -/
def strip (s : List Char) : List Char :=
  ((s.dropWhile isSpace).reverse.dropWhile isSpace).reverse

/-- The number of a text of digits. -/
def readNat (s : List Char) : Option Nat :=
  if s ≠ [] ∧ s.all Char.isDigit then some (Nat.ofDigitChars 10 s 0) else none

/-- The integer of a text: digits after an optional sign. -/
def readInt (s : List Char) : Option Int :=
  match strip s with
  | '-' :: ds => (readNat ds).map fun n => -Int.ofNat n
  | '+' :: ds => (readNat ds).map Int.ofNat
  | ds => (readNat ds).map Int.ofNat

/-- A text without white space has none around it. -/
theorem strip_eq_self {s : List Char} (h : ∀ c ∈ s, isSpace c = false) : strip s = s := by
  have hdrop : ∀ t : List Char, (∀ c ∈ t, isSpace c = false) → t.dropWhile isSpace = t := by
    intro t ht
    cases t with
    | nil => rfl
    | cons c t => rw [List.dropWhile_cons_of_neg (by simp [ht c List.mem_cons_self])]
  rw [strip, hdrop s h, hdrop s.reverse (by simpa using h), List.reverse_reverse]

theorem readNat_toDigits (n : Nat) : readNat (Nat.toDigits 10 n) = some n := by
  have hdigits : (Nat.toDigits 10 n).all Char.isDigit = true :=
    List.all_eq_true.mpr fun c hc => Nat.isDigit_of_mem_toDigits (by omega) (by omega) hc
  rw [readNat, if_pos ⟨Nat.toDigits_ne_nil, hdigits⟩, Nat.ofDigitChars_ten_toDigits]

/-- A digit is no white space and no sign. -/
theorem not_special_of_isDigit {c : Char} (h : c.isDigit = true) :
    isSpace c = false ∧ c ≠ '-' ∧ c ≠ '+' := by
  refine ⟨?_, ?_, ?_⟩
  · by_contra hspace
    simp only [isSpace, List.mem_cons, List.not_mem_nil, or_false, decide_eq_true_eq,
      Bool.not_eq_false] at hspace
    rcases hspace with rfl | rfl | rfl | rfl | rfl | rfl <;> exact absurd h (by decide)
  · rintro rfl
    exact absurd h (by decide)
  · rintro rfl
    exact absurd h (by decide)

/-- A character of a decimal text is a digit or the sign. -/
theorem mem_showInt {n : Int} {c : Char} (h : c ∈ showInt n) : c = '-' ∨ c.isDigit = true := by
  unfold showInt at h
  split at h
  · obtain rfl | h := List.mem_cons.mp h
    · exact .inl rfl
    · exact .inr (Nat.isDigit_of_mem_toDigits (by omega) (by omega) h)
  · exact .inr (Nat.isDigit_of_mem_toDigits (by omega) (by omega) h)

/-- **An integer is read back from its text.** -/
theorem readInt_showInt (n : Int) : readInt (showInt n) = some n := by
  have hspace : ∀ c ∈ showInt n, isSpace c = false := by
    intro c hc
    obtain rfl | hdigit := mem_showInt hc
    · rfl
    · exact (not_special_of_isDigit hdigit).1
  rw [readInt, strip_eq_self hspace]
  by_cases hneg : n < 0
  · rw [showInt, if_pos hneg]
    simp only [readNat_toDigits, Option.map_some, Option.some.injEq, Int.ofNat_eq_natCast]
    omega
  · rw [showInt, if_neg hneg]
    obtain ⟨d, ds, hds⟩ := List.exists_cons_of_ne_nil (@Nat.toDigits_ne_nil n.natAbs 10)
    have hd : d.isDigit = true :=
      Nat.isDigit_of_mem_toDigits (by omega) (by omega) (hds ▸ List.mem_cons_self)
    obtain ⟨-, hminus, hplus⟩ := not_special_of_isDigit hd
    have hread := readNat_toDigits n.natAbs
    rw [hds] at hread ⊢
    split
    · rename_i heq
      exact absurd (List.cons.inj heq).1 hminus
    · rename_i heq
      exact absurd (List.cons.inj heq).1 hplus
    · rw [hread, Option.map_some, Option.some.injEq, Int.ofNat_eq_natCast]
      omega

end Text
