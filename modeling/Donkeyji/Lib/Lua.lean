/-
Donkeyji.Lib.Lua — the part of the Lua C API that the argument codecs use.

Values are what a C function can tell apart on the stack: `nil`, numbers,
strings, tables, and `other` for the remaining types. A table is its
reading function, which is all that `lua_rawget` sees, so two tables with
the same entries are the same value. The stack is a list, top first.

The operations of the library and the machine that have no definition in the
repository are the fields of `Lua`: the conversion of a number to an `int`
(exact on the integers an `int` holds), the text of a number, and which strings
`lua_isnumber` accepts and what `lua_tonumber` reads in them. A number in
memory is a `double`: `LuaNumber.doubleBytes` and `LuaNumber.ofDoubleBytes`
write and read the eight bytes of one.
-/
import Mathlib.Data.Int.Log
import Donkeyji.Lib.Memory

namespace Donkeyji

/-- A Lua number, as far as conversions and table keys tell numbers apart. -/
inductive LuaNumber where
  | finite (q : ℚ)
  | inf
  | negInf
  | nan
deriving DecidableEq

/-- The keys under which a codec looks into a table. -/
inductive LuaKey where
  | number (x : LuaNumber)
  | string (s : List UInt8)
deriving DecidableEq

/-- A Lua value. -/
inductive LuaValue where
  | nil
  | number (x : LuaNumber)
  | string (s : List UInt8)
  | table (get : LuaKey → LuaValue)
  | other (tag : Nat)

/-- Where a value lies in nested tables: the keys that lead to it. -/
abbrev Path := List LuaKey

/-- The value at a path, `nil` where there is none. -/
def LuaValue.atPath : LuaValue → Path → LuaValue
  | v, [] => v
  | .table get, key :: path => (get key).atPath path
  | _, _ :: _ => .nil

/-- `w` at a path of `v`, through the tables of `v`. -/
def LuaValue.insertAt (w : LuaValue) : Path → LuaValue → LuaValue
  | [], _ => w
  | key :: path, .table get => .table (Function.update get key (w.insertAt path (get key)))
  | _ :: _, v => v

/-- The Lua stack, top first. -/
abbrev LuaStack := List LuaValue

/-- What the codecs take from the Lua library. -/
structure Lua where
  /-- `lua_number2int`. -/
  number2int : LuaNumber → Int
  number2int_bounds : ∀ x, -2147483648 ≤ number2int x ∧ number2int x < 2147483648
  number2int_exact : ∀ i : Int, -2147483648 ≤ i → i < 2147483648 →
    number2int (.finite i) = i
  /-- The string `lua_tolstring` makes of a number. -/
  number2str : LuaNumber → List UInt8
  /-- Whether `lua_isnumber` accepts a string. -/
  isNumeral : List UInt8 → Bool
  /-- What `lua_tonumber` reads in a string that `lua_isnumber` accepts. -/
  str2number : List UInt8 → LuaNumber

/-- The bits of a number that is a `double`: sign, exponent and fraction. -/
def doubleBits (q : ℚ) : Nat :=
  if q = 0 then 0
  else
    let e := max (Int.log 2 |q|) (-1022)
    let m := (|q| * (2 : ℚ) ^ (52 - e)).num.toNat
    (if q < 0 then 2 ^ 63 else 0) + (e + 1022).toNat * 2 ^ 52 + m

/-- The bytes of a `double` in memory. -/
def LuaNumber.doubleBytes : LuaNumber → List UInt8
  | .finite q => Memory.leBytes 8 (doubleBits q)
  | .inf => Memory.leBytes 8 0x7ff0000000000000
  | .negInf => Memory.leBytes 8 0xfff0000000000000
  | .nan => Memory.leBytes 8 0x7ff8000000000000

/-- The `double` with these bytes. -/
def LuaNumber.ofDoubleBytes (bs : List UInt8) : LuaNumber :=
  let bits := Memory.leNat bs
  let e : Nat := bits / 2 ^ 52 % 2048
  let m : Nat := bits % 2 ^ 52
  let negative := bits / 2 ^ 63 % 2 = 1
  if e = 2047 then
    if m ≠ 0 then .nan else if negative then .negInf else .inf
  else
    let a : ℚ := if e = 0 then m * (2 : ℚ) ^ (-1074 : Int)
      else ((2 ^ 52 + m : Nat) : ℚ) * (2 : ℚ) ^ ((e : Int) - 1075)
    .finite (if negative then -a else a)

/-- A library whose `lua_number2int` is the C cast on x86: it drops the fraction, and
what does not fit becomes the smallest `int`. Only integers have a text here, and
only decimal integers are numerals. -/
def Lua.x86 : Lua where
  number2int
    | .finite q =>
      let n := q.num.tdiv q.den
      if -2147483648 ≤ n ∧ n < 2147483648 then n else -2147483648
    | _ => -2147483648
  number2int_bounds x := by
    cases x with
    | finite q => simp only; split <;> omega
    | _ => exact ⟨by decide, by decide⟩
  number2int_exact i h1 h2 := by
    have hnum : ((i : ℚ)).num.tdiv ((i : ℚ)).den = i := by simp
    simp only [hnum, h1, h2, and_self, if_true]
  number2str
    | .finite q => (toString q.num).toList.map fun c => UInt8.ofNat c.toNat
    | _ => []
  isNumeral s := !s.isEmpty && s.all fun b => 48 ≤ b && b ≤ 57
  str2number s := .finite (s.foldl (fun n b => n * 10 + (b.toNat - 48)) 0 : Nat)

/-- The key of a one-based array index. -/
def LuaKey.index (i : Nat) : LuaKey := .number (.finite (i : ℚ))

/-- The value of an `int` pushed with `lua_pushnumber`. -/
def LuaValue.ofInt (i : Int) : LuaValue := .number (.finite (i : ℚ))

/-- A key as it lies on the stack. -/
def LuaKey.toValue : LuaKey → LuaValue
  | .number x => .number x
  | .string s => .string s

/-- The key a stack value stands for in `lua_settable`. -/
def LuaValue.toKey : LuaValue → Option LuaKey
  | .number x => some (.number x)
  | .string s => some (.string s)
  | _ => none

/-- `nil` and nothing else. -/
def LuaValue.isNil : LuaValue → Bool
  | .nil => true
  | _ => false

/-- A new table. -/
def LuaValue.newtable : LuaValue := .table fun _ => .nil

/-- `luaL_checktype` for a number and `lua_number2int`; anything else raises. -/
def Lua.checkInt (lua : Lua) : LuaValue → Option Int
  | .number x => some (lua.number2int x)
  | _ => none

/-- `luaL_checknumber`: a number or a numeral; anything else raises. -/
def Lua.checknumber (lua : Lua) : LuaValue → Option LuaNumber
  | .number x => some x
  | .string s => if lua.isNumeral s then some (lua.str2number s) else none
  | _ => none

/-- `luaL_checklstring`: a string or the text of a number; anything else raises. -/
def Lua.checklstring (lua : Lua) : LuaValue → Option (List UInt8)
  | .string s => some s
  | .number x => some (lua.number2str x)
  | _ => none

/-- The first index from `n + 1` on that holds `nil`, less one, looking at
`fuel` indices. -/
def borderFrom (get : LuaKey → LuaValue) : Nat → Nat → Nat
  | 0, n => n
  | fuel + 1, n => if (get (.index (n + 1))).isNil then n else borderFrom get fuel (n + 1)

/-- `lua_objlen` of a table: its first border. The callers ask only whether it is
at most 255, so 256 stands for every larger one. -/
def objlen (get : LuaKey → LuaValue) : Nat := borderFrom get 256 0

/-- `lua_settop(L, h)`. -/
def settop (h : Nat) (L : LuaStack) : LuaStack :=
  if h ≤ L.length then L.drop (L.length - h) else List.replicate (h - L.length) .nil ++ L

/-- `lua_rawget(L, -2)` after pushing `key`: the value goes on top of its table. -/
def pushField (key : LuaKey) : LuaStack → Option LuaStack
  | .table get :: L => some (get key :: .table get :: L)
  | _ => none

/-- `lua_settable(L, -3)` and `lua_rawset`: value, key and table on top. -/
def settable : LuaStack → Option LuaStack
  | v :: k :: .table get :: L =>
    k.toKey.map fun key => .table (Function.update get key v) :: L
  | _ => none

@[simp] theorem LuaNumber.length_doubleBytes (x : LuaNumber) : x.doubleBytes.length = 8 := by
  cases x <;> exact Memory.length_leBytes 8 _

@[simp] theorem LuaKey.toKey_toValue (k : LuaKey) : k.toValue.toKey = some k := by
  cases k <;> rfl

@[simp] theorem settop_self_append (pre L : LuaStack) : settop L.length (pre ++ L) = L := by
  simp [settop]

@[simp] theorem settop_self (L : LuaStack) : settop L.length L = L := settop_self_append [] L

@[simp] theorem settop_cons (v : LuaValue) (L : LuaStack) : settop L.length (v :: L) = L :=
  settop_self_append [v] L

/-- An `int` comes out of its Lua number. -/
theorem checkInt_ofInt (lua : Lua) {i : Int} (h : -2147483648 ≤ i ∧ i < 2147483648) :
    lua.checkInt (.ofInt i) = some i := by
  rw [LuaValue.ofInt, Lua.checkInt, lua.number2int_exact i h.1 h.2]

theorem LuaKey.index_injective : Function.Injective LuaKey.index := by
  intro i j h
  simpa [LuaKey.index] using h

end Donkeyji
