/-
Donkeyji.Lib.Overwrite — writing some bits of a word.

An `Overwrite` selects bits and says what they become; the others stay. Such
writes are closed under composition, and doing one twice, also within some of
the bits only, is doing it once.
-/
import Mathlib.Tactic

/-- The bits of `sel` become those of `val`. -/
structure Overwrite (w : Nat) where
  sel : BitVec w
  val : BitVec w

namespace Overwrite

variable {w : Nat}

/-- The word after the write. -/
def apply (o : Overwrite w) (m : BitVec w) : BitVec w := m &&& ~~~o.sel ||| o.val &&& o.sel

/-- First `o`, then `o'`. -/
def andThen (o o' : Overwrite w) : Overwrite w := ⟨o.sel ||| o'.sel, o'.apply o.val⟩

/-- Nothing is written. -/
def skip : Overwrite w := ⟨0#w, 0#w⟩

theorem getLsbD_apply (o : Overwrite w) (m : BitVec w) (i : Nat) :
    (o.apply m).getLsbD i = if o.sel.getLsbD i then o.val.getLsbD i else m.getLsbD i := by
  by_cases hi : i < w
  · simp only [apply, BitVec.getLsbD_or, BitVec.getLsbD_and, BitVec.getLsbD_not, hi, decide_true,
      Bool.true_and]
    cases o.sel.getLsbD i <;> simp only [Bool.not_true, Bool.not_false, Bool.and_true,
      Bool.and_false, Bool.or_false, Bool.false_or, if_true, Bool.false_eq_true, if_false]
  · have hge := Nat.le_of_not_lt hi
    simp [BitVec.getLsbD_of_ge _ i hge]

/-- Writes compose. -/
theorem apply_andThen (o o' : Overwrite w) (m : BitVec w) :
    (o.andThen o').apply m = o'.apply (o.apply m) := by
  refine BitVec.eq_of_getLsbD_eq fun i _ => ?_
  simp only [getLsbD_apply, andThen, BitVec.getLsbD_or]
  cases o.sel.getLsbD i <;> cases o'.sel.getLsbD i <;> rfl

/-- Within some bits, writing twice is writing once. -/
theorem apply_within {o : Overwrite w} {sel m m' : BitVec w}
    (h : m' = (⟨sel, o.apply m⟩ : Overwrite w).apply m) :
    (⟨sel, o.apply m'⟩ : Overwrite w).apply m' = m' := by
  subst h
  refine BitVec.eq_of_getLsbD_eq fun i _ => ?_
  simp only [getLsbD_apply]
  cases sel.getLsbD i <;> cases o.sel.getLsbD i <;> rfl

@[simp] theorem apply_skip (m : BitVec w) : skip.apply m = m := by
  simp [skip, apply]

/-- Setting bits. -/
theorem apply_set (bits m : BitVec w) : (⟨bits, bits⟩ : Overwrite w).apply m = m ||| bits := by
  refine BitVec.eq_of_getLsbD_eq fun i hi => ?_
  simp only [getLsbD_apply, BitVec.getLsbD_or]
  cases bits.getLsbD i <;> simp

/-- Clearing bits. -/
theorem apply_clear (bits m : BitVec w) :
    (⟨bits, 0#w⟩ : Overwrite w).apply m = m &&& ~~~bits := by
  simp [apply]

/-- Writing all bits. -/
theorem apply_all (bits m : BitVec w) : (⟨~~~0#w, bits⟩ : Overwrite w).apply m = bits := by
  refine BitVec.eq_of_getLsbD_eq fun i hi => ?_
  rw [getLsbD_apply, BitVec.getLsbD_not, BitVec.getLsbD_zero]
  simp only [hi, decide_true, Bool.not_false, Bool.and_self, if_true]

/-- Bits of one word can be copied in parts. -/
theorem copy_copy (sel sel' val m : BitVec w) :
    (⟨sel', val⟩ : Overwrite w).apply ((⟨sel, val⟩ : Overwrite w).apply m) =
      (⟨sel ||| sel', val⟩ : Overwrite w).apply m := by
  refine BitVec.eq_of_getLsbD_eq fun i _ => ?_
  simp only [getLsbD_apply, BitVec.getLsbD_or]
  cases sel.getLsbD i <;> cases sel'.getLsbD i <;> rfl

/-- Bits that are clear in a word are copied by clearing them. -/
theorem copy_clear {sel bits val : BitVec w} (h : val &&& (bits &&& ~~~sel) = 0#w) (m : BitVec w) :
    (⟨sel, val⟩ : Overwrite w).apply (m &&& ~~~bits) =
      (⟨sel ||| bits, val⟩ : Overwrite w).apply m := by
  refine BitVec.eq_of_getLsbD_eq fun i hi => ?_
  have hbit : (val &&& (bits &&& ~~~sel)).getLsbD i = false := by rw [h, BitVec.getLsbD_zero]
  simp only [BitVec.getLsbD_and, BitVec.getLsbD_not, hi, decide_true, Bool.true_and] at hbit
  simp only [getLsbD_apply, BitVec.getLsbD_and, BitVec.getLsbD_or, BitVec.getLsbD_not, hi,
    decide_true, Bool.true_and]
  cases hs : sel.getLsbD i <;> cases hb : bits.getLsbD i <;> simp_all

/-- Copying a single bit is setting or clearing it. -/
theorem copy_bit {j : Nat} (val m : BitVec w) :
    (⟨BitVec.twoPow w j, val⟩ : Overwrite w).apply m =
      if val &&& BitVec.twoPow w j ≠ 0#w then m ||| BitVec.twoPow w j
      else m &&& ~~~BitVec.twoPow w j := by
  by_cases hbit : val.getLsbD j = true
  · have hne : val &&& BitVec.twoPow w j ≠ 0#w := by
      intro hzero
      have hj : (val &&& BitVec.twoPow w j).getLsbD j = false := by
        rw [hzero, BitVec.getLsbD_zero]
      have hlt := BitVec.lt_of_getLsbD hbit
      simp only [BitVec.getLsbD_and, BitVec.getLsbD_twoPow, hbit, hlt, decide_true, Bool.and_self,
        Bool.true_eq_false] at hj
    rw [if_pos hne, ← apply_set]
    refine BitVec.eq_of_getLsbD_eq fun i hi => ?_
    simp only [getLsbD_apply, BitVec.getLsbD_twoPow]
    by_cases hij : j = i
    · subst hij
      simp [hi, hbit]
    · simp [hij]
  · have hzero : val &&& BitVec.twoPow w j = 0#w := by
      refine BitVec.eq_of_getLsbD_eq fun i hi => ?_
      simp only [BitVec.getLsbD_and, BitVec.getLsbD_twoPow]
      by_cases hij : j = i
      · subst hij
        simp [hbit]
      · simp [hij]
    rw [if_neg (not_not.mpr hzero), apply, hzero]
    simp

end Overwrite
