/-
Donkeyji.Cpp.KvIndices — `parse_string` of `cpp/kv_parser.cpp` with its
indices.

`KvParser` walks over parts of the string; here the four indices are the
`int`s of the source. Every read of `str` is checked against the terminator
and every `++` against the greatest `int`. A loop that is not done within one
turn more than there are characters is an outcome of its own.
-/
import Donkeyji.Cpp.KvParser

namespace Donkeyji.Cpp

/-- How a call can go wrong. -/
inductive Stop where
  | pastNul
  | overflow
  | notDone
deriving DecidableEq, Repr

/-- `str[i]`. -/
def charAt (str : CString) (i : Nat) : Except Stop UInt8 :=
  match str.chars[i]? with
  | some c => .ok c
  | none => if i = str.chars.length then .ok 0 else .error .pastNul

/-- `++i`. -/
def incr (i : Nat) : Except Stop Nat :=
  if i < 2147483647 then .ok (i + 1) else .error .overflow

/-- The turns of a loop `while (str[i] != '\0' && ...) ++i;`. -/
def scanFrom (str : CString) (p : UInt8 → Bool) : Nat → Nat → Except Stop Nat
  | 0, _ => .error .notDone
  | fuel + 1, i => do
    let c ← charAt str i
    if c ≠ 0 ∧ p c then
      let i ← incr i
      scanFrom str p fuel i
    else
      return i

/-- A loop `while (str[i] != '\0' && ...) ++i;`. -/
def scan (str : CString) (p : UInt8 → Bool) (i : Nat) : Except Stop Nat :=
  scanFrom str p (str.chars.length + 1) i

/-- The indices that one turn of the loop finds. -/
structure Turn where
  keyStart : Nat
  keyEnd : Nat
  valueStart : Nat
  valueEnd : Nat

/-- The scans of one turn. -/
def turnFrom (str : CString) (keyStart : Nat) : Except Stop Turn := do
  let keyStart ← scan str beforeKey keyStart
  let keyEnd ← scan str inKey keyStart
  let valueStart ← scan str beforeValue keyEnd
  let valueEnd ← scan str inValue valueStart
  return ⟨keyStart, keyEnd, valueStart, valueEnd⟩

/-- `std::string(str, pos, n)`. -/
def substr (str : CString) (pos n : Nat) : Str := (str.chars.drop pos).take n

/-- The loop of `parse_string`. -/
def parseFrom (str : CString) : Nat → Nat → KvMap → Int → Except Stop (Int × KvMap)
  | 0, _, _, _ => .error .notDone
  | fuel + 1, keyStart, result, hasKv => do
    let c ← charAt str keyStart
    if c ≠ 0 then
      let t ← turnFrom str keyStart
      if t.keyEnd > t.keyStart ∧ t.valueEnd > t.valueStart then
        let key := substr str t.keyStart (t.keyEnd - t.keyStart)
        let value := substr str t.valueStart (t.valueEnd - t.valueStart)
        parseFrom str fuel t.valueEnd (result.insert key value) 1
      else
        parseFrom str fuel t.valueEnd result hasKv
    else
      return (hasKv, result)

/-- `parse_string`: its return value and the map. -/
def parseStringAt (str : CString) (result : KvMap) : Except Stop (Int × KvMap) :=
  parseFrom str (str.chars.length + 1) 0 result 0

end Donkeyji.Cpp
