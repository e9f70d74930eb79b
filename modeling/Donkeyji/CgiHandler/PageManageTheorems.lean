/-
Donkeyji.CgiHandler.PageManageTheorems — the numbers of a `PageManage` are in
range, whatever page is asked for.

`IsWindow` is what the window of page numbers is for; the three cases of
`get_be_page` are split by half its width, rounded up, from either end.
-/
import Mathlib.Algebra.Order.Floor.Ring
import Mathlib.Data.Rat.Floor
import Mathlib.Tactic
import Donkeyji.CgiHandler.PageManage

namespace Donkeyji.CgiHandler

/-- The pages from `w.1` to `w.2` lie in `1 .. total`, `page` is one of them, and there are
`width` of them, or all there are. -/
structure IsWindow (page total width : Int) (w : Int × Int) : Prop where
  first : 1 ≤ w.1
  begins : w.1 ≤ page
  ends : page ≤ w.2
  last : w.2 ≤ total
  size : w.2 - w.1 + 1 = min width total

/-- Half of a number and the rest. -/
theorem half_add_rest (x : Int) :
    x = 2 * x.fdiv 2 + x.fmod 2 ∧ (x.fmod 2 = 0 ∨ x.fmod 2 = 1) := by
  rw [Int.fdiv_eq_ediv_of_nonneg x (by decide), Int.fmod_eq_emod_of_nonneg x (by decide)]
  omega

/-- `get_be_page` gives a window. -/
theorem getBePage_window {gp tp epn : Int} (hgp : 1 ≤ gp) (htp : gp ≤ tp) (hepn : 1 ≤ epn) :
    IsWindow gp tp epn (getBePage gp tp epn) := by
  obtain ⟨hsum, hrest⟩ := half_add_rest epn
  unfold getBePage
  generalize epn.fdiv 2 = half at *
  generalize epn.fmod 2 = rest at *
  split
  · -- near the first page
    split <;> constructor <;> dsimp only <;> omega
  · split
    · -- near the last page
      dsimp only
      split <;> constructor <;> dsimp only <;> omega
    · -- the page is in the middle, and there are more pages than the window has
      constructor <;> dsimp only <;> omega

/-- The number of pages is the number of records over the records of a page, rounded up. -/
theorem totalPagesOf_eq {totalNums everyPageNums : Int} (htotal : 0 ≤ totalNums)
    (hevery : 0 < everyPageNums) :
    totalPagesOf totalNums everyPageNums =
      max 1 ⌈(totalNums : ℚ) / (everyPageNums : ℚ)⌉ := by
  unfold totalPagesOf safeInt
  rw [Int.fdiv_eq_ediv_of_nonneg _ hevery.le, Int.fmod_eq_emod_of_nonneg _ hevery.le]
  have hsum := Int.mul_ediv_add_emod totalNums everyPageNums
  have hlow := Int.emod_nonneg totalNums hevery.ne'
  have hhigh := Int.emod_lt_of_pos totalNums hevery
  have hquot : 0 ≤ totalNums / everyPageNums := Int.ediv_nonneg htotal hevery.le
  have hpos : (0 : ℚ) < (everyPageNums : ℚ) := by exact_mod_cast hevery
  have hceil : ∀ z : Int, ⌈(totalNums : ℚ) / (everyPageNums : ℚ)⌉ = z ↔
      (z - 1) * everyPageNums < totalNums ∧ totalNums ≤ z * everyPageNums := by
    intro z
    rw [Int.ceil_eq_iff, lt_div_iff₀ hpos, div_le_iff₀ hpos]
    norm_cast
  split
  · rename_i h0
    have : ⌈(totalNums : ℚ) / (everyPageNums : ℚ)⌉ = 0 := by simp [h0]
    omega
  · split
    · rename_i h0 hrest
      have : ⌈(totalNums : ℚ) / (everyPageNums : ℚ)⌉ = totalNums / everyPageNums := by
        rw [hceil]
        constructor <;> nlinarith
      have : totalNums / everyPageNums ≠ 0 := by
        intro hz
        rw [hz, hrest] at hsum
        omega
      omega
    · rename_i h0 hrest
      have : ⌈(totalNums : ℚ) / (everyPageNums : ℚ)⌉ = totalNums / everyPageNums + 1 := by
        rw [hceil]
        constructor
        · have : 0 < totalNums % everyPageNums := by omega
          nlinarith
        · nlinarith
      omega

/-- Fewer records precede the last page than there are. -/
theorem before_last_page {totalNums everyPageNums page : Int} (htotal : 0 < totalNums)
    (hevery : 0 < everyPageNums) (hpage : page ≤ totalPagesOf totalNums everyPageNums) :
    (page - 1) * everyPageNums < totalNums := by
  unfold totalPagesOf safeInt at hpage
  rw [Int.fdiv_eq_ediv_of_nonneg _ hevery.le, Int.fmod_eq_emod_of_nonneg _ hevery.le,
    if_neg htotal.ne'] at hpage
  have hsum := Int.mul_ediv_add_emod totalNums everyPageNums
  have hlow := Int.emod_nonneg totalNums hevery.ne'
  split at hpage
  · calc (page - 1) * everyPageNums
        ≤ (totalNums / everyPageNums - 1) * everyPageNums :=
          Int.mul_le_mul_of_nonneg_right (by omega) hevery.le
      _ < totalNums := by nlinarith
  · calc (page - 1) * everyPageNums
        ≤ totalNums / everyPageNums * everyPageNums :=
          Int.mul_le_mul_of_nonneg_right (by omega) hevery.le
      _ < totalNums := by
          have : 0 < totalNums % everyPageNums := by omega
          nlinarith

/-- What a `PageManage` promises about its numbers. -/
structure PageManage.InRange (p : PageManage) (totalNums everyPageNums pageNum : Int) : Prop where
  page : 1 ≤ p.page ∧ p.page ≤ p.totalPages
  totalPages : p.totalPages = max 1 ⌈(totalNums : ℚ) / (max 1 everyPageNums : ℤ)⌉
  previous : 1 ≤ p.previousPage ∧ p.previousPage ≤ p.totalPages
  next : 1 ≤ p.nextPage ∧ p.nextPage ≤ p.totalPages
  beginPos : p.beginPos = (p.page - 1) * max 1 everyPageNums
  begins : 0 < totalNums → p.beginPos < totalNums
  window : IsWindow p.page p.totalPages pageNum (p.pnb, p.pne)

/-- For every page that is asked for the numbers are in range. -/
theorem pageManage_inRange (page totalNums everyPageNums pageNum : Int) (htotal : 0 ≤ totalNums)
    (hevery : 0 ≤ everyPageNums) (hnum : 1 ≤ pageNum) :
    (PageManage.init page totalNums everyPageNums pageNum).InRange totalNums everyPageNums
      pageNum := by
  have hmax : (if everyPageNums = 0 then 1 else everyPageNums) = max 1 everyPageNums := by
    split <;> omega
  have hpos : 0 < max 1 everyPageNums := by omega
  unfold PageManage.init
  simp only [hmax, safeInt]
  have hpages := totalPagesOf_eq htotal hpos
  have hone : 1 ≤ totalPagesOf totalNums (max 1 everyPageNums) := by
    rw [hpages]
    exact le_max_left _ _
  have hlast := @before_last_page totalNums (max 1 everyPageNums)
  generalize totalPagesOf totalNums (max 1 everyPageNums) = pages at hpages hone hlast
  obtain ⟨cur, hcur⟩ : ∃ cur, cur =
      if (if pages < page then pages else page) ≤ 0 then 1
      else if pages < page then pages else page := ⟨_, rfl⟩
  rw [← hcur]
  have hlow : 1 ≤ cur := by
    rw [hcur]
    split_ifs <;> omega
  have hhigh : cur ≤ pages := by
    rw [hcur]
    split_ifs <;> omega
  constructor
  case page => exact ⟨hlow, hhigh⟩
  case totalPages => exact hpages
  case previous =>
    dsimp only
    split <;> omega
  case next =>
    dsimp only
    split <;> omega
  case beginPos => rfl
  case begins => exact fun h => hlast h hpos hhigh
  case window => exact getBePage_window hlow hhigh hnum

/-- Page 99 of 95 records, ten on a page. -/
theorem pageManage_inRange_last : (PageManage.init 99 95 10 4).InRange 95 10 4 :=
  pageManage_inRange 99 95 10 4 (by decide) (by decide) (by decide)

example : PageManage.init 99 95 10 4 = ⟨10, 95, 10, 4, 10, 10, 9, 7, 10, 90⟩ := by decide

end Donkeyji.CgiHandler
