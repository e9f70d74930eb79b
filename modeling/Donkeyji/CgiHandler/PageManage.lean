/-
Donkeyji.CgiHandler.PageManage — the pages of a list of records
(src/cgihandler/cgi_util.py: `get_be_page`, `PageManage`).

The numbers are integers of any size, and `/` and `%` on them round down:
they are `Int.fdiv` and `Int.fmod`. The recorder of the query string
(`_passargs`) takes no part in the numbers and is left out.
-/
import Mathlib.Data.Int.Notation

namespace Donkeyji.CgiHandler

/-- `safe_int` of a number. -/
def safeInt (i : Int) : Int := i

/-- `get_be_page`: the first and the last page number that are shown. -/
def getBePage (gp tp epn : Int) : Int × Int :=
  if gp ≤ epn.fdiv 2 + epn.fmod 2 then
    (1, if tp < epn then tp else epn)
  else if gp > tp - epn.fdiv 2 - epn.fmod 2 then
    let beginp := tp - epn + 1
    (if beginp < 1 then 1 else beginp, tp)
  else
    (gp - epn.fdiv 2, gp + epn.fdiv 2 - 1 + epn.fmod 2)

/-- The fields of a `PageManage`. -/
structure PageManage where
  page : Int
  totalNums : Int
  everyPageNums : Int
  pageNum : Int
  totalPages : Int
  nextPage : Int
  previousPage : Int
  pnb : Int
  pne : Int
  beginPos : Int
deriving DecidableEq, Repr

/-- `self._total_pages`. -/
def totalPagesOf (totalNums everyPageNums : Int) : Int :=
  if totalNums = 0 then
    1
  else if totalNums.fmod everyPageNums = 0 then
    safeInt (totalNums.fdiv everyPageNums)
  else
    safeInt (totalNums.fdiv everyPageNums) + 1

/-- `PageManage.__init__`. -/
def PageManage.init (page totalNums everyPageNums pageNum : Int) : PageManage :=
  let everyPageNums := if everyPageNums = 0 then 1 else everyPageNums
  let totalPages := totalPagesOf totalNums everyPageNums
  let page := safeInt page
  let page := if totalPages < page then totalPages else page
  let page := if page ≤ 0 then 1 else page
  let next := safeInt page + 1
  let next := if next > totalPages then page else next
  let previous := safeInt page - 1
  let previous := if previous < 1 then page else previous
  let (pnb, pne) := getBePage page totalPages pageNum
  { page := page
    totalNums := totalNums
    everyPageNums := everyPageNums
    pageNum := pageNum
    totalPages := totalPages
    nextPage := next
    previousPage := previous
    pnb := pnb
    pne := pne
    beginPos := (page - 1) * everyPageNums }

end Donkeyji.CgiHandler
