/-
Donkeyji.Mydb.ArgManager — how `mydb/data_format.c` builds packers.

`travelTable` is `fcall_table_arg::_travel_table`: it walks a format table and
emits opcodes. The entries of a Lua table come in the order in which
`lua_next` visits them, so `Format` is a list of entries, and `Format.WF` says
what any Lua table satisfies, that no key occurs twice. The depth counter
`_cur_table_deep` is threaded through the walk as the object's field is: it
goes up at every table and never comes down.

`Registered` is the set of registries `fcall_arg_manager` can hold: the five
packers of `init`, then table types and arrays in any order.
-/
import Donkeyji.Mydb.DataFormat

namespace Donkeyji.Mydb

/-! ## Format tables -/

/-- A key of a format table; keys that are neither numbers nor strings raise. -/
inductive FormatKey where
  | key (k : LuaKey)
  | other
deriving DecidableEq

/-- A value of a format table that is not a table itself. -/
inductive FormatLeaf where
  | number
  | string (s : List UInt8)
  | other
deriving DecidableEq

/-- A format table, entry by entry. -/
inductive Format where
  | nil
  | leaf (key : FormatKey) (val : FormatLeaf) (rest : Format)
  | sub (key : FormatKey) (val : Format) (rest : Format)
deriving DecidableEq

namespace Format

/-- The keys of one table. -/
def keys : Format → List FormatKey
  | .nil => []
  | .leaf k _ rest => k :: rest.keys
  | .sub k _ rest => k :: rest.keys

/-- No table of the tree has a key twice. -/
def WF : Format → Prop
  | .nil => True
  | .leaf k _ rest => k ∉ rest.keys ∧ rest.WF
  | .sub k f rest => k ∉ rest.keys ∧ f.WF ∧ rest.WF

end Format

/-! ## The registry -/

/-- `fcall_arg_manager::_s_args`. -/
abbrev Registry := List FcallArg

/-- `fcall_arg_manager::init`. -/
def Registry.init : Registry := [.number, .byte, .word, .dword, .string]

/-- `fcall_arg_manager::get_arg(const char*)`: the first packer of that type. -/
def Registry.getArg (reg : Registry) (typeName : List UInt8) : Option FcallArg :=
  reg.find? fun a => a.type = typeName

/-- The opcodes of `a`, then those of `b`. -/
def TableOpcodes.append : TableOpcodes → TableOpcodes → TableOpcodes
  | .nil, b => b
  | .tbBegin k rest, b => .tbBegin k (rest.append b)
  | .pushValue k a rest, b => .pushValue k a (rest.append b)
  | .tbEnd rest, b => .tbEnd (rest.append b)

/-- `fcall_table_arg::max_table_deep`. -/
def maxTableDeep : Nat := 10

/-- The key half of an entry in `_travel_table`: the key kept for the opcode and
what is added to the hash string. `lua_isnumber` holds of numeral strings too. -/
def travelKey (lua : Lua) : FormatKey → Option (LuaKey × List UInt8)
  | .key (.number x) => some (.number x, cstr "number")
  | .key (.string s) =>
    some (.string s, if lua.isNumeral s then cstr "number" else untilNul s)
  | .other => none

/-- The value half of an entry that is not a table. -/
def travelLeaf (lua : Lua) (reg : Registry) : FormatLeaf → Option (FcallArg × List UInt8)
  | .number => (reg.getArg (cstr "number")).map fun a => (a, cstr "number")
  | .string s =>
    if lua.isNumeral s then (reg.getArg (cstr "number")).map fun a => (a, cstr "number")
    else (reg.getArg (untilNul s)).map fun a => (a, untilNul s)
  | .other => none

/-- The loop of `_travel_table` over the entries of one table, with the final
`tb_end`: the depth counter, the hash string and the opcodes it adds. `none` is
a raised error. -/
def travelEntries (lua : Lua) (reg : Registry) :
    Format → Nat → Option (Nat × List UInt8 × TableOpcodes)
  | .nil, deep => some (deep, [], .tbEnd .nil)
  | .leaf key val rest, deep => do
    let (k, keyHash) ← travelKey lua key
    let (arg, valHash) ← travelLeaf lua reg val
    let (deep, hash, ops) ← travelEntries lua reg rest deep
    return (deep, keyHash ++ valHash ++ hash, .pushValue k arg ops)
  | .sub key f rest, deep => do
    let (k, keyHash) ← travelKey lua key
    if deep + 1 > maxTableDeep then none
    let (deep, subHash, subOps) ← travelEntries lua reg f (deep + 1)
    let (deep, hash, ops) ← travelEntries lua reg rest deep
    return (deep, keyHash ++ subHash ++ hash, .tbBegin k (subOps.append ops))

/-- `fcall_table_arg::_travel_table`. -/
def travelTable (lua : Lua) (reg : Registry) (f : Format) (deep : Nat) :
    Option (Nat × List UInt8 × TableOpcodes) :=
  if deep + 1 > maxTableDeep then none else travelEntries lua reg f (deep + 1)

/-- What a table format file returns: the type name and the format table. -/
structure TableDesc where
  type : List UInt8
  format : Format
  wf : format.WF

/-- `fcall_table_arg::fcall_table_arg`, for a file that loads. -/
def fcallTableArg (lua : Lua) (reg : Registry) (desc : TableDesc) : Option FcallArg := do
  let (_, hash, ops) ← travelTable lua reg desc.format 0
  return .table (untilNul desc.type) (untilNul desc.type ++ hash) ops

/-- `fcall_array_arg::fcall_array_arg`. An unknown base type is a null pointer
that the constructor dereferences. -/
def fcallArrayArg (reg : Registry) (baseType : List UInt8) (size : Nat) : Option FcallArg :=
  (reg.getArg baseType).map fun b => .array b size

/-- The registries that `fcall_arg_manager` can hold: `init`, then
`add_table_args` and the arrays that `arglist_proc` adds. -/
inductive Registered (lua : Lua) : Registry → Prop where
  | init : Registered lua Registry.init
  | addTable {reg : Registry} {desc : TableDesc} {a : FcallArg} :
      Registered lua reg → fcallTableArg lua reg desc = some a → Registered lua (reg ++ [a])
  | addArray {reg : Registry} {baseType : List UInt8} {size : Nat} {a : FcallArg} :
      Registered lua reg → size ≤ 255 → fcallArrayArg reg baseType size = some a →
      Registered lua (reg ++ [a])

end Donkeyji.Mydb
