/-
Donkeyji.PyProto.Proto — the text protocol of `py_proto/proto.py`.

A dictionary is a list of its entries; which order Python walks it in shows in
the packed text only and is the parameter `order`. Reading follows the entries
in the order of the text. A raised exception is `none`.

A record type may contain itself, so reading a text need not end; `unpack` has
the depth of nested calls that Python allows. The text of a `float` comes with
the value. A value of another type where a record is expected raises here at
once.
-/
import Donkeyji.Lib.Text

namespace Donkeyji.PyProto

open Text

/-- A `str`. -/
abbrev Str := List Char

/-- `LIST_SEP`. -/
def listSep : Char := ';'

/-- `DICT_SEP`. -/
def dictSep : Char := ','

/-- `KV_SEP`. -/
def kvSep : Char := ':'

/-- The character between the id and the packed dictionary. -/
def idSep : Char := '@'

/-! ## Descriptions -/

/-- The type name of a parameter: an internal type or one of `USER_DEFINED`. -/
inductive Fmt where
  | int
  | float
  | str
  | user (name : Str)
deriving DecidableEq

/-- The tuple of a parameter; `isList` if it has a second item and this is `0`. -/
structure Param where
  fmt : Fmt
  isList : Bool

/-- A dictionary of parameters. -/
abbrev Params := Str → Option Param

/-- `USER_DEFINED`. -/
abbrev Types := Str → Option Params

/-- `class proto`. -/
structure Proto where
  id : Str
  params : Params

/-! ## Values -/

mutual

/-- A Python value. -/
inductive Value where
  | int (n : Int)
  | float (text : Str)
  | str (s : Str)
  | list (items : Items)
  | dict (d : Dict)

/-- The items of a list. -/
inductive Items where
  | nil
  | cons (v : Value) (vs : Items)

/-- The entries of a dictionary. -/
inductive Dict where
  | nil
  | cons (k : Str) (v : Value) (d : Dict)

end

/-- The number of items. -/
def Items.length : Items → Nat
  | .nil => 0
  | .cons _ vs => vs.length + 1

/-- The number of entries. -/
def Dict.length : Dict → Nat
  | .nil => 0
  | .cons _ _ d => d.length + 1

/-- The keys. -/
def Dict.keys : Dict → List Str
  | .nil => []
  | .cons k _ d => k :: d.keys

/-- The value at a key. -/
def Dict.get : Dict → Str → Option Value
  | .nil, _ => none
  | .cons k v d, key => if k = key then some v else d.get key

mutual

/-- `==` of two values. -/
def Value.Same : Value → Value → Prop
  | .int n, .int m => n = m
  | .float s, .float t => s = t
  | .str s, .str t => s = t
  | .list vs, .list ws => vs.Same ws
  | .dict d, .dict e => d.length = e.length ∧ d.Sub e
  | _, _ => False

/-- `==` of the items of two lists. -/
def Items.Same : Items → Items → Prop
  | .nil, .nil => True
  | .cons v vs, .cons w ws => v.Same w ∧ vs.Same ws
  | _, _ => False

/-- The second dictionary has every key of the first one with an equal value. -/
def Dict.Sub : Dict → Dict → Prop
  | .nil, _ => True
  | .cons k v d, e => (∃ w, e.get k = some w ∧ v.Same w) ∧ d.Sub e

end

/-- `==` of two dictionaries. -/
def Dict.Same (d e : Dict) : Prop := d.length = e.length ∧ d.Sub e

/-! ## Packing -/

/-- `proto.__strdict2str`. -/
def strdict2str (dct : List (Str × Str)) : Str :=
  [dictSep].intercalate (dct.map fun e => e.1 ++ kvSep :: e.2)

/-- `proto.__strlist2str`. -/
def strlist2str (lst : List Str) : Str := [listSep].intercalate lst

mutual

/-- `proto.__type2str`. -/
def type2str (types : Types) (order : List (Str × Str) → List (Str × Str)) :
    Fmt → Value → Option Str
  | .int, .int n => some (showInt n)
  | .float, .float text => some text
  | .str, .str s => some s
  | .user name, .dict d => do
    let args ← types name
    let strDct ← packDict types order args d
    return strdict2str (order strDct)
  | _, _ => none

/-- The loop of `proto.__list2str`. -/
def listItems (types : Types) (order : List (Str × Str) → List (Str × Str)) (fmt : Fmt) :
    Items → Option (List Str)
  | .nil => some []
  | .cons v vs => do
    let itemStr ← type2str types order fmt v
    let strList ← listItems types order fmt vs
    return itemStr :: strList

/-- The loop of `proto.__pack`: the dictionary of strings. -/
def packDict (types : Types) (order : List (Str × Str) → List (Str × Str)) (args : Params) :
    Dict → Option (List (Str × Str))
  | .nil => some []
  | .cons k (.list vs) d =>
    match args k with
    | none => packDict types order args d
    | some p =>
      if p.isList then do
        let strList ← listItems types order p.fmt vs
        let strDct ← packDict types order args d
        return (k, strlist2str strList) :: strDct
      else none
  | .cons k v d =>
    match args k with
    | none => packDict types order args d
    | some p =>
      if p.isList then none
      else do
        let str ← type2str types order p.fmt v
        let strDct ← packDict types order args d
        return (k, str) :: strDct

end

/-- `proto.pack`: the id, the separator and the packed dictionary. -/
def Proto.pack (types : Types) (order : List (Str × Str) → List (Str × Str)) (P : Proto)
    (dct : Dict) : Option Str := do
  let strDct ← packDict types order P.params dct
  return P.id ++ idSep :: strdict2str (order strDct)

/-! ## Unpacking -/

/-- `dct[key] = val`. -/
def setItem (dct : List (Str × Str)) (key val : Str) : List (Str × Str) :=
  if key ∈ dct.map Prod.fst then dct.map fun e => if e.1 = key then (key, val) else e
  else dct ++ [(key, val)]

/-- The body of the loop of `proto.__str2strdict`. Without a separator `find` gives `-1`:
the key is all but the last character and the value is the whole text. -/
def splitKv (kv : Str) : Str × Str := (cutAt kvSep kv).getD (kv.dropLast, kv)

/-- `proto.__str2strdict`. -/
def str2strdict (string : Str) : List (Str × Str) :=
  (string.splitOn dictSep).foldl (fun dct kv => setItem dct (splitKv kv).1 (splitKv kv).2) []

/-- `proto.__str2type`; `unpack` reads a record. A `float` is read as `long(string)`, for
which a final `L` does not matter. -/
def str2type (types : Types) (unpack : Params → Str → Option Dict) (fmt : Fmt) (string : Str) :
    Option Value :=
  match fmt with
  | .int => (readInt string).map .int
  | .float =>
    let digits := if string.getLast? = some 'L' then string.dropLast else string
    (readInt digits).map .int
  | .str => some (.str string)
  | .user name => do
    let params ← types name
    let d ← unpack params string
    return .dict d

/-- The loop of `proto.__str2list`. -/
def str2items (types : Types) (unpack : Params → Str → Option Dict) (fmt : Fmt) :
    List Str → Option Items
  | [] => some .nil
  | item :: items => do
    let v ← str2type types unpack fmt item
    let vs ← str2items types unpack fmt items
    return .cons v vs

/-- `proto.__str2list`. -/
def str2list (types : Types) (unpack : Params → Str → Option Dict) (fmt : Fmt) (listStr : Str) :
    Option Value :=
  (str2items types unpack fmt (listStr.splitOn listSep)).map .list

/-- A value of a parameter. -/
def str2param (types : Types) (unpack : Params → Str → Option Dict) (p : Param) (string : Str) :
    Option Value :=
  if p.isList then str2list types unpack p.fmt string else str2type types unpack p.fmt string

/-- The loop of `proto.__unpack` over the dictionary of strings, whose keys are different. -/
def unpackItems (types : Types) (unpack : Params → Str → Option Dict) (params : Params) :
    List (Str × Str) → Option Dict
  | [] => some .nil
  | (k, string) :: strDict =>
    match params k with
    | none => unpackItems types unpack params strDict
    | some p => do
      let v ← str2param types unpack p string
      let d ← unpackItems types unpack params strDict
      return .cons k v d

/-- `proto.__unpack` with at most `depth` nested calls. -/
def unpackDict (types : Types) : Nat → Params → Str → Option Dict
  | 0, _, _ => none
  | depth + 1, params, string =>
    unpackItems types (unpackDict types depth) params (str2strdict string)

/-- `proto.unpack`. -/
def Proto.unpack (types : Types) (depth : Nat) (P : Proto) (string : Str) : Option Dict :=
  unpackDict types depth P.params string

end Donkeyji.PyProto
