/-
Donkeyji.Mydb.DataFormat — the argument packers of `mydb/data_format.c`.

A packer object is a value of `FcallArg`: the five basic types, the array
type with its base packer and size, and the table type, which holds the list
of opcodes that `_travel_table` made of a format file. The opcode list is an
inductive type of its own (`TableOpcodes`), mutual with the packers, because
a `push_value` opcode holds a packer.

`pack` and `unpack` take the Lua stack and give it back, as the C functions
do, so that what each leaves on the stack can be stated. `pack` takes the
value at `data_in` and the space left in the buffer. A result `.ret n out L`
is a call that returned `n` after writing the bytes `out` from the start of
the buffer; `.raise` is a Lua error (a `longjmp`), and `.fault` an access
outside the buffer. `unpack` reads its buffer as a list whose length is
`buf_len`; `none` is a use of the Lua API on the wrong kind of value.

The second half builds packers: `_travel_table` over a format table given in
the order in which `lua_next` visits it, and the registry of
`fcall_arg_manager`.
-/
import Donkeyji.Lib.Lua

namespace Donkeyji.Mydb

open Memory

/-! ## Packer objects -/

/-- The bytes of a C string literal. -/
def cstr (s : String) : List UInt8 := s.toList.map fun c => UInt8.ofNat c.toNat

/-- What `std::string` takes from a `const char*`: the bytes before the first NUL. -/
def untilNul (s : List UInt8) : List UInt8 := s.takeWhile (· ≠ 0)

mutual

/-- `class fcall_base_arg` and its subclasses. -/
inductive FcallArg where
  | number
  | byte
  | word
  | dword
  | string
  | array (basePacker : FcallArg) (size : Nat)
  | table (type hashstr : List UInt8) (opcodes : TableOpcodes)

/-- `std::vector<table_opcode>`, first opcode first. -/
inductive TableOpcodes where
  | nil
  | tbBegin (key : LuaKey) (rest : TableOpcodes)
  | pushValue (key : LuaKey) (arg : FcallArg) (rest : TableOpcodes)
  | tbEnd (rest : TableOpcodes)

end

namespace FcallArg

/-- `fcall_base_arg::get_type`. -/
def type : FcallArg → List UInt8
  | .number => cstr "number"
  | .byte => cstr "byte"
  | .word => cstr "word"
  | .dword => cstr "dword"
  | .string => cstr "string"
  | .array _ _ => cstr "array"
  | .table ty _ _ => ty

/-- `fcall_base_arg::get_hashstr`. The array constructor appends the name of its
base type and the hash string of the base packer it found under that name. -/
def hashstr : FcallArg → List UInt8
  | .number => cstr "number"
  | .byte => cstr "byte"
  | .word => cstr "word"
  | .dword => cstr "dword"
  | .string => cstr "string"
  | .array b _ => cstr "array" ++ b.type ++ b.hashstr
  | .table _ h _ => h

end FcallArg

/-! ## pack -/

/-- How a `pack` call ends. -/
inductive PackOut (σ : Type) where
  | raise
  | fault
  | ret (n : Int) (out : List UInt8) (s : σ)

/-- The same outcome with another state. -/
def PackOut.map {σ τ : Type} (f : σ → τ) : PackOut σ → PackOut τ
  | .raise => .raise
  | .fault => .fault
  | .ret n out s => .ret n out (f s)

/-- Write `bytes` into a buffer of `bufLen` bytes and return `usedLen`. -/
def emit {σ : Type} (bufLen usedLen : Int) (bytes : List UInt8) (s : σ) : PackOut σ :=
  if (bytes.length : Int) ≤ bufLen then .ret usedLen bytes s else .fault

/-- How many bytes `fcall_number_arg::pack` needs for a magnitude. -/
def numberLen (data : Nat) : Nat :=
  if data ≤ 0xff then 1 else if data ≤ 0xffff then 2 else if data ≤ 0xffffff then 3 else 4

/-- `fcall_number_arg::pack`: a byte with the sign (bit 0) and the number of
magnitude bytes, then those bytes. -/
def numberPack {σ : Type} (lua : Lua) (s : σ) (v : LuaValue) (bufLen : Int) : PackOut σ :=
  match lua.checkInt v with
  | none => .raise
  | some num =>
    let data : Nat := ((if num < 0 then -num else num) % 4294967296).toNat
    let isNegative : Nat := if num < 0 then 1 else 0
    let len := numberLen data
    if 1 + (len : Int) > bufLen then .ret 0 [] s
    else emit bufLen (1 + len) (leBytes 1 (isNegative + 2 * len) ++ leBytes len data) s

/-- `fcall_byte_arg::pack`, `fcall_word_arg::pack` and `fcall_dword_arg::pack`:
the `width` low bytes of an `int`. -/
def fixedPack {σ : Type} (width : Nat) (lua : Lua) (s : σ) (v : LuaValue) (bufLen : Int) :
    PackOut σ :=
  match lua.checkInt v with
  | none => .raise
  | some num =>
    if (width : Int) > bufLen then .ret 0 [] s
    else emit bufLen width (leBytes width (num % 4294967296).toNat) s

/-- `fcall_byte_arg::pack`. -/
def bytePack {σ : Type} (lua : Lua) := fixedPack (σ := σ) 1 lua

/-- `fcall_word_arg::pack`. -/
def wordPack {σ : Type} (lua : Lua) := fixedPack (σ := σ) 2 lua

/-- `fcall_dword_arg::pack`. -/
def dwordPack {σ : Type} (lua : Lua) := fixedPack (σ := σ) 4 lua

/-- `fcall_string_arg::pack`: the length plus one in one byte if it fits, else a
zero byte and the length plus one in two. The lengths are computed in `int`s. -/
def stringPack {σ : Type} (lua : Lua) (s : σ) (v : LuaValue) (bufLen : Int) : PackOut σ :=
  match lua.checklstring v with
  | none => .raise
  | some data =>
    let strId := wrap32 (wrap32 data.length + 1)
    if strId ≤ 0xff then
      let usedLen := wrap32 (data.length + 1)
      if usedLen > bufLen then .ret 0 [] s
      else emit bufLen usedLen (leBytes 1 (strId % 4294967296).toNat ++ data) s
    else if strId ≤ 0xffff then
      let usedLen := wrap32 (data.length + 3)
      if usedLen > bufLen then .ret 0 [] s
      else emit bufLen usedLen (0 :: leBytes 2 (strId % 4294967296).toNat ++ data) s
    else .raise

/-- The element loop of `fcall_array_arg::pack`: `todo` elements from index `i`,
with `usedLen` bytes used and `out` written. An element is pushed, packed and
popped; one that packs to nothing ends the call with 0. -/
def arrayPackLoop (packBase : LuaStack → LuaValue → Int → PackOut LuaStack)
    (get : LuaKey → LuaValue) (top : Nat) (bufLen : Int) :
    Nat → Nat → Int → List UInt8 → LuaStack → PackOut LuaStack
  | 0, _, usedLen, out, L => .ret usedLen out L
  | todo + 1, i, usedLen, out, L =>
    match packBase (get (.index i) :: L) (get (.index i)) (bufLen - usedLen) with
    | .raise => .raise
    | .fault => .fault
    | .ret n bytes L =>
      if n = 0 then .ret 0 (out ++ bytes) (settop top L)
      else arrayPackLoop packBase get top bufLen todo (i + 1) (usedLen + n) (out ++ bytes) L.tail

/-- `fcall_array_arg::pack`. Size 0 is an array of variable length, which starts
with its length. -/
def arrayPack (packBase : LuaStack → LuaValue → Int → PackOut LuaStack) (size : Nat)
    (L : LuaStack) (v : LuaValue) (bufLen : Int) : PackOut LuaStack :=
  match v with
  | .table get =>
    if size = 0 then
      let arrayLen := objlen get
      if arrayLen > 255 then .raise
      else if 1 > bufLen then .ret 0 [] L
      else arrayPackLoop packBase get L.length bufLen arrayLen 1 1 (leBytes 1 arrayLen) L
    else arrayPackLoop packBase get L.length bufLen size 1 0 [] L
  | _ => .raise

mutual

/-- `fcall_base_arg::pack`. -/
def FcallArg.pack (lua : Lua) : FcallArg → LuaStack → LuaValue → Int → PackOut LuaStack
  | .number, L, v, bufLen => numberPack lua L v bufLen
  | .byte, L, v, bufLen => bytePack lua L v bufLen
  | .word, L, v, bufLen => wordPack lua L v bufLen
  | .dword, L, v, bufLen => dwordPack lua L v bufLen
  | .string, L, v, bufLen => stringPack lua L v bufLen
  | .array b size, L, v, bufLen => arrayPack (b.pack lua) size L v bufLen
  | .table _ _ ops, L, v, bufLen =>
    match v with
    | .table _ => ops.packLoop lua L.length bufLen 0 [] (v :: L)
    | _ => .raise

/-- The opcode loop of `fcall_table_arg::pack`, with the source tables on the
stack. -/
def TableOpcodes.packLoop (lua : Lua) (top : Nat) (bufLen : Int) :
    TableOpcodes → Int → List UInt8 → LuaStack → PackOut LuaStack
  | .nil, usedLen, out, L => .ret usedLen out (settop top L)
  | .tbBegin key rest, usedLen, out, L =>
    match pushField key L with
    | some (.table get :: L) => rest.packLoop lua top bufLen usedLen out (.table get :: L)
    | some _ => .raise
    | none => .fault
  | .pushValue key arg rest, usedLen, out, L =>
    match pushField key L with
    | some (v :: L) =>
      match arg.pack lua (v :: L) v (bufLen - usedLen) with
      | .raise => .raise
      | .fault => .fault
      | .ret n bytes L =>
        if n = 0 then .ret 0 (out ++ bytes) (settop top L)
        else rest.packLoop lua top bufLen (usedLen + n) (out ++ bytes) L.tail
    | _ => .fault
  | .tbEnd rest, usedLen, out, L => rest.packLoop lua top bufLen usedLen out L.tail

end

/-! ## unpack -/

/-- `fcall_number_arg::unpack`. -/
def numberUnpack (L : LuaStack) (buf : List UInt8) : Option (Nat × LuaStack) := do
  if 1 > buf.length then
    return (0, L)
  let dataT := leNat (← readAt buf 0 1)
  let len := dataT / 2
  if len ≤ 0 ∨ len ≥ 5 then
    return (0, L)
  if 1 + len > buf.length then
    return (0, L)
  let data := wrap32 (leNat (← readAt buf 1 len))
  let data := if dataT % 2 = 1 then wrap32 (-data) else data
  return (1 + len, .ofInt data :: L)

/-- `fcall_byte_arg::unpack`, `fcall_word_arg::unpack` and
`fcall_dword_arg::unpack`: `width` bytes read as the type `conv` converts to. -/
def fixedUnpack (width : Nat) (conv : Int → Int) (L : LuaStack) (buf : List UInt8) :
    Option (Nat × LuaStack) := do
  if width > buf.length then
    return (0, L)
  return (width, .ofInt (conv (leNat (← readAt buf 0 width))) :: L)

/-- `fcall_byte_arg::unpack`. -/
def byteUnpack := fixedUnpack 1 id

/-- `fcall_word_arg::unpack`. -/
def wordUnpack := fixedUnpack 2 wrap16

/-- `fcall_dword_arg::unpack`. -/
def dwordUnpack := fixedUnpack 4 wrap32

/-- `fcall_string_arg::unpack`. -/
def stringUnpack (L : LuaStack) (buf : List UInt8) : Option (Nat × LuaStack) := do
  if 1 > buf.length then
    return (0, L)
  let strId := leNat (← readAt buf 0 1)
  if strId > 0 then
    let strLen := strId - 1
    if strLen = 0 then
      return (1, .string [] :: L)
    if 1 + strLen > buf.length then
      return (0, L)
    return (1 + strLen, .string (← readAt buf 1 strLen) :: L)
  else
    if 3 > buf.length then
      return (0, L)
    let strId := leNat (← readAt buf 1 2)
    if strId = 0 then
      return (0, L)
    let strLen := strId - 1
    if 3 + strLen > buf.length then
      return (0, L)
    return (3 + strLen, .string (← readAt buf 3 strLen) :: L)

/-- The element loop of `fcall_array_arg::unpack`: `todo` elements from index `i`,
with `readedLen` bytes read and the array on top of the stack. -/
def arrayUnpackLoop (unpackBase : LuaStack → List UInt8 → Option (Nat × LuaStack)) (top : Nat)
    (buf : List UInt8) : Nat → Nat → Nat → LuaStack → Option (Nat × LuaStack)
  | 0, _, readedLen, L => some (readedLen, L)
  | todo + 1, i, readedLen, L => do
    let (n, L) ← unpackBase (.ofInt i :: L) (buf.drop readedLen)
    if n = 0 then
      return (0, settop top L)
    let L ← settable L
    arrayUnpackLoop unpackBase top buf todo (i + 1) (readedLen + n) L

/-- `fcall_array_arg::unpack`. On an empty buffer the variable length cannot be
read, and the new table stays on the stack. -/
def arrayUnpack (unpackBase : LuaStack → List UInt8 → Option (Nat × LuaStack)) (size : Nat)
    (L : LuaStack) (buf : List UInt8) : Option (Nat × LuaStack) := do
  if size = 0 then
    if 1 > buf.length then
      return (0, .newtable :: L)
    let arrayLen := leNat (← readAt buf 0 1)
    arrayUnpackLoop unpackBase L.length buf arrayLen 1 1 (.newtable :: L)
  else
    arrayUnpackLoop unpackBase L.length buf size 1 0 (.newtable :: L)

mutual

/-- `fcall_base_arg::unpack`: the number of bytes read (0 for a failure) and the
stack. -/
def FcallArg.unpack : FcallArg → LuaStack → List UInt8 → Option (Nat × LuaStack)
  | .number, L, buf => numberUnpack L buf
  | .byte, L, buf => byteUnpack L buf
  | .word, L, buf => wordUnpack L buf
  | .dword, L, buf => dwordUnpack L buf
  | .string, L, buf => stringUnpack L buf
  | .array b size, L, buf => arrayUnpack b.unpack size L buf
  | .table _ _ ops, L, buf => ops.unpackLoop L.length buf 0 (.newtable :: L)

/-- The opcode loop of `fcall_table_arg::unpack`: every opcode but the last. -/
def TableOpcodes.unpackLoop (top : Nat) (buf : List UInt8) :
    TableOpcodes → Nat → LuaStack → Option (Nat × LuaStack)
  | .nil, _, _ => none
  | .tbBegin _ .nil, readedLen, L => some (readedLen, L)
  | .pushValue _ _ .nil, readedLen, L => some (readedLen, L)
  | .tbEnd .nil, readedLen, L => some (readedLen, L)
  | .tbBegin key rest, readedLen, L =>
    rest.unpackLoop top buf readedLen (.newtable :: key.toValue :: L)
  | .pushValue key arg rest, readedLen, L =>
    match arg.unpack (key.toValue :: L) (buf.drop readedLen) with
    | none => none
    | some (n, L) =>
      if n = 0 then some (0, settop top L)
      else
        match settable L with
        | none => none
        | some L => rest.unpackLoop top buf (readedLen + n) L
  | .tbEnd rest, readedLen, L =>
    match settable L with
    | none => none
    | some L => rest.unpackLoop top buf readedLen L

end

end Donkeyji.Mydb
