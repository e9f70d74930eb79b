/-
Donkeyji.Mydb.Items — what `pack` writes in turn.

A value is packed as a sequence of items, one for each basic packer that is
called. An item does not depend on the buffer; `runItems` says what becomes
of the items in a buffer of a given size. The item of a string of 2^31 - 1
bytes or more has the length that is left of it in an `int`.
-/
import Donkeyji.Mydb.ArgTree

namespace Donkeyji.Mydb

open Memory

/-- One step of `pack`. -/
inductive Item where
  /-- Some bytes are written, if there is room for them. -/
  | bytes (first : UInt8) (rest : List UInt8)
  /-- A Lua error. -/
  | raise
  /-- The call returns 0: an element or a field has no bytes. -/
  | zero
  /-- A string too long for an `int` is written, if there is room for `usedLen` bytes. -/
  | overlong (usedLen : Int)

/-- The item of a number. -/
def numberItem (lua : Lua) (v : LuaValue) : Item :=
  match lua.checkInt v with
  | none => .raise
  | some num =>
    let data : Nat := ((if num < 0 then -num else num) % 4294967296).toNat
    let isNegative : Nat := if num < 0 then 1 else 0
    .bytes (UInt8.ofNat (isNegative + 2 * numberLen data)) (leBytes (numberLen data) data)

/-- The item of a value of `width + 1` bytes. -/
def fixedItem (width : Nat) (lua : Lua) (v : LuaValue) : Item :=
  match lua.checkInt v with
  | none => .raise
  | some num =>
    let data := (num % 4294967296).toNat
    .bytes (UInt8.ofNat data) (leBytes width (data / 256))

/-- The item of a string. -/
def stringItem (lua : Lua) (v : LuaValue) : Item :=
  match lua.checklstring v with
  | none => .raise
  | some data =>
    let strId := wrap32 (wrap32 data.length + 1)
    if strId > 0xffff then .raise
    else if 2147483647 ≤ data.length then
      .overlong (if strId ≤ 0xff then wrap32 (data.length + 1) else wrap32 (data.length + 3))
    else if data.length + 1 ≤ 0xff then .bytes (UInt8.ofNat (data.length + 1)) data
    else .bytes 0 (leBytes 2 (data.length + 1) ++ data)

/-- An element or a field without bytes ends the call. -/
def nonemptyItems : List Item → List Item
  | [] => [.zero]
  | items => items

mutual

/-- The items of a value of the type. -/
def ArgTree.items (lua : Lua) : ArgTree → LuaValue → List Item
  | .number, v => [numberItem lua v]
  | .byte, v => [fixedItem 0 lua v]
  | .word, v => [fixedItem 1 lua v]
  | .dword, v => [fixedItem 3 lua v]
  | .string, v => [stringItem lua v]
  | .array b size, v =>
    match v with
    | .table get =>
      let elements (n : Nat) := (List.range' 1 n).flatMap fun i =>
        nonemptyItems (b.items lua (get (.index i)))
      if size = 0 then
        if objlen get > 255 then [.raise]
        else .bytes (UInt8.ofNat (objlen get)) [] :: elements (objlen get)
      else elements size
    | _ => [.raise]
  | .table _ _ fs, v =>
    match v with
    | .table get => fs.items lua get
    | _ => [.raise]

/-- The items of the fields of a table. -/
def FieldTree.items (lua : Lua) : FieldTree → (LuaKey → LuaValue) → List Item
  | .nil, _ => []
  | .leaf key a rest, get => nonemptyItems (a.items lua (get key)) ++ rest.items lua get
  | .sub key fs rest, get =>
    match get key with
    | .table sub => fs.items lua sub ++ rest.items lua get
    | _ => [.raise]

end

/-- The items in a buffer with room for `n` bytes. -/
def runItems : List Item → Int → Enc
  | [], _ => .ok []
  | .bytes b bs :: items, n =>
    Enc.seq (fun n => if (b :: bs).length > n then .error (.zero []) else .ok (b :: bs))
      (runItems items) n
  | .raise :: _, _ => .error .raise
  | .zero :: _, _ => .error (.zero [])
  | .overlong usedLen :: _, n => if usedLen > n then .error (.zero []) else .error .fault

/-- How many bytes the items need, if each is some bytes. -/
def needs : List Item → Option Nat
  | [] => some 0
  | .bytes _ bs :: items => (needs items).map (bs.length + 1 + ·)
  | _ :: _ => none

/-- A string too long for an `int` comes up while there is room for what is left of its
length. -/
def Overruns (items : List Item) (n : Int) : Prop :=
  ∃ pre usedLen post k, items = pre ++ .overlong usedLen :: post ∧ needs pre = some k ∧
    k ≤ n ∧ usedLen ≤ n - k

end Donkeyji.Mydb
