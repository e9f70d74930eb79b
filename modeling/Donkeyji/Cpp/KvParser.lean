/-
Donkeyji.Cpp.KvParser — the `k1=v1;k2=v2` strings of `cpp/kv_parser.cpp`.

`parse_string` walks over the string with four indices; an index is here the
part of the string from it on. The map is a `std::map`: its entries are in the
order of their keys, which are compared as byte strings. A C string is the
bytes before its terminator.
-/
import Mathlib.Data.List.TakeWhile
import Mathlib.Tactic

namespace Donkeyji.Cpp

/-- The contents of a `std::string`. -/
abbrev Str := List UInt8

/-- `std::map<std::string, std::string>`. -/
abbrev KvMap := Std.ExtTreeMap Str Str

/-- A `const char*` that leads to a terminated string. -/
structure CString where
  chars : Str
  noNul : 0 ∉ chars

/-- `std::string::c_str`, for a reader that stops at the first NUL. -/
def cStr (s : Str) : CString where
  chars := s.takeWhile (· ≠ 0)
  noNul h := by simpa using List.mem_takeWhile_imp h

/-- The characters that `parse_string` looks for. -/
def space : UInt8 := 32

/-- See `space`. -/
def semicolon : UInt8 := 59

/-- See `space`. -/
def equals : UInt8 := 61

/-- The characters skipped before a key. -/
def beforeKey (c : UInt8) : Bool := c = semicolon || c = space

/-- The characters of a key. -/
def inKey (c : UInt8) : Bool := c ≠ space && c ≠ equals

/-- The characters skipped before a value. -/
def beforeValue (c : UInt8) : Bool := c = equals || c = space

/-- The characters of a value. -/
def inValue (c : UInt8) : Bool := c ≠ space && c ≠ semicolon

/-- What one turn of the loop of `parse_string` finds: the key, the value, and the string
from `value_end` on. -/
def scanEntry (str : Str) : Str × Str × Str :=
  let keyStart := str.dropWhile beforeKey
  let keyEnd := keyStart.dropWhile inKey
  let valueStart := keyEnd.dropWhile beforeValue
  (keyStart.takeWhile inKey, valueStart.takeWhile inValue, valueStart.dropWhile inValue)

/-- Every turn gets further: at a key, or at a character that is skipped. -/
theorem scanEntry_lt {str : Str} (h : str ≠ []) : (scanEntry str).2.2.length < str.length := by
  have hkey := List.length_dropWhile_le beforeKey str
  have hkeyEnd := List.length_dropWhile_le inKey (str.dropWhile beforeKey)
  have hvalue := List.length_dropWhile_le beforeValue ((str.dropWhile beforeKey).dropWhile inKey)
  have hvalueEnd := List.length_dropWhile_le inValue
    (((str.dropWhile beforeKey).dropWhile inKey).dropWhile beforeValue)
  cases str with
  | nil => exact absurd rfl h
  | cons c rest =>
    by_cases hskip : beforeKey c
    · have hrest := List.length_dropWhile_le beforeKey rest
      simp only [scanEntry, List.dropWhile_cons, hskip, if_true, List.length_cons] at *
      omega
    · by_cases hin : inKey c
      · have hrest := List.length_dropWhile_le inKey rest
        simp only [scanEntry, List.dropWhile_cons, hskip, hin, if_true, if_false,
          Bool.false_eq_true, List.length_cons] at *
        omega
      · have heq : beforeValue c := by
          simp only [beforeKey, inKey, beforeValue, Bool.or_eq_true, Bool.and_eq_true,
            decide_eq_true_eq, not_or, not_and, not_not] at *
          exact Or.inl (hin hskip.2)
        have hrest := List.length_dropWhile_le beforeValue rest
        simp only [scanEntry, List.dropWhile_cons, hskip, hin, heq, if_true, if_false,
          Bool.false_eq_true, List.length_cons] at *
        omega

/-- The loop of `parse_string`. -/
def parseLoop (str : Str) (result : KvMap) (hasKv : Bool) : Bool × KvMap :=
  if _h : str = [] then (hasKv, result)
  else
    let entry := scanEntry str
    if entry.1 ≠ [] ∧ entry.2.1 ≠ [] then
      parseLoop entry.2.2 (result.insert entry.1 entry.2.1) true
    else
      parseLoop entry.2.2 result hasKv
termination_by str.length
decreasing_by all_goals exact scanEntry_lt _h

/-- `parse_string`: whether there was an entry, and the map. -/
def parseString (str : CString) (result : KvMap) : Bool × KvMap := parseLoop str.chars result false

/-- `kv_parser::kv_parser`. -/
def kvParser (str : CString) : KvMap := (parseString str ∅).2

/-- The loop body of `kv_parser::make_str`. -/
def appendEntry (out : Str) (it : Str × Str) : Str := out ++ it.1 ++ [equals] ++ it.2 ++ [semicolon]

/-- `kv_parser::make_str`: the last semicolon becomes a NUL. -/
def makeStr (kv : KvMap) : Str :=
  let out := kv.toList.foldl appendEntry []
  if out.length > 0 then out.set (out.length - 1) 0 else out

end Donkeyji.Cpp
