/-
Donkeyji.Mydb.ArgTree — the abstract codec: argument types as trees, with a
recursive encoder and decoder.

A packer's opcode list is a program for a stack machine. What it is a program
for is a tree of named fields: `ArgTree` with `FieldTree`. `ArgTree.arg` is
the packer that a tree stands for (`FieldTree.code` flattens the fields into
opcodes), and `encode` / `decode` say directly, without a stack, which bytes a
value has and which value bytes have.

The encoder returns the bytes, or the way in which `pack` fails. The decoder
returns the value and how many bytes it took, or `none` where `unpack`
returns 0 without a value. A type that takes no bytes at all encodes to `[]`
on its own, but inside an array or a field the code takes that for a failure.
-/
import Donkeyji.Mydb.ArgManager

namespace Donkeyji.Mydb

open Memory

mutual

/-- An argument type. -/
inductive ArgTree where
  | number
  | byte
  | word
  | dword
  | string
  | array (base : ArgTree) (size : Nat)
  | table (type hashstr : List UInt8) (fields : FieldTree)

/-- The fields of a table type: a field is a value of some type or a table
written in place. -/
inductive FieldTree where
  | nil
  | leaf (key : LuaKey) (arg : ArgTree) (rest : FieldTree)
  | sub (key : LuaKey) (fields : FieldTree) (rest : FieldTree)

end

/-! ## The packer of a tree -/

mutual

/-- The packer object that a tree describes. -/
def ArgTree.arg : ArgTree → FcallArg
  | .number => .number
  | .byte => .byte
  | .word => .word
  | .dword => .dword
  | .string => .string
  | .array b n => .array b.arg n
  | .table ty h fs => .table ty h (fs.code .nil)

/-- The opcodes of the fields and their closing `tb_end`, before `k`. -/
def FieldTree.code : FieldTree → TableOpcodes → TableOpcodes
  | .nil, k => .tbEnd k
  | .leaf key a rest, k => .pushValue key a.arg (rest.code k)
  | .sub key fs rest, k => .tbBegin key (fs.code (rest.code k))

end

/-- The keys of one table. -/
def FieldTree.keys : FieldTree → List LuaKey
  | .nil => []
  | .leaf k _ rest => k :: rest.keys
  | .sub k _ rest => k :: rest.keys

mutual

/-- No table of the tree has a key twice. -/
def ArgTree.WF : ArgTree → Prop
  | .array b _ => b.WF
  | .table _ _ fs => fs.WF
  | _ => True

/-- No table below the fields has a key twice, nor have they. -/
def FieldTree.WF : FieldTree → Prop
  | .nil => True
  | .leaf k a rest => k ∉ rest.keys ∧ a.WF ∧ rest.WF
  | .sub k fs rest => k ∉ rest.keys ∧ fs.WF ∧ rest.WF

end

/-! ## Encoding -/

/-- How an encoding fails: a Lua error, an access outside the buffer, or a
return of 0 after writing some bytes. -/
inductive PackFail where
  | raise
  | fault
  | zero (out : List UInt8)

/-- The bytes of a value, or the failure. -/
abbrev Enc := Except PackFail (List UInt8)

namespace Enc

/-- The outcome of a basic packer's call. -/
def ofPackOut : PackOut Unit → Enc
  | .raise => .error .raise
  | .fault => .error .fault
  | .ret n out () => if n = 0 then .error (.zero out) else .ok out

/-- `b`, then `r` in the space that is left. -/
def seq (b r : Int → Enc) (bufLen : Int) : Enc :=
  match b bufLen with
  | .error e => .error e
  | .ok bytes =>
    match r (bufLen - bytes.length) with
    | .error (.zero out) => .error (.zero (bytes ++ out))
    | .error e => .error e
    | .ok more => .ok (bytes ++ more)

/-- An element or a field must take at least one byte. -/
def nonempty : Enc → Enc
  | .ok [] => .error (.zero [])
  | e => e

end Enc

/-- The elements of an array: `todo` of them from index `i`. -/
def arrayEncode (base : LuaValue → Int → Enc) (get : LuaKey → LuaValue) :
    Nat → Nat → Int → Enc
  | 0, _ => fun _ => .ok []
  | todo + 1, i =>
    Enc.seq (fun n => (base (get (.index i)) n).nonempty) (arrayEncode base get todo (i + 1))

mutual

/-- The bytes of a value of the type, in a buffer of `bufLen` bytes. -/
def ArgTree.encode (lua : Lua) : ArgTree → LuaValue → Int → Enc
  | .number, v, bufLen => .ofPackOut (numberPack lua () v bufLen)
  | .byte, v, bufLen => .ofPackOut (bytePack lua () v bufLen)
  | .word, v, bufLen => .ofPackOut (wordPack lua () v bufLen)
  | .dword, v, bufLen => .ofPackOut (dwordPack lua () v bufLen)
  | .string, v, bufLen => .ofPackOut (stringPack lua () v bufLen)
  | .array b size, v, bufLen =>
    match v with
    | .table get =>
      if size = 0 then
        if objlen get > 255 then .error .raise
        else if 1 > bufLen then .error (.zero [])
        else Enc.seq (fun _ => .ok (leBytes 1 (objlen get)))
          (arrayEncode (b.encode lua) get (objlen get) 1) bufLen
      else arrayEncode (b.encode lua) get size 1 bufLen
    | _ => .error .raise
  | .table _ _ fs, v, bufLen =>
    match v with
    | .table get => fs.encode lua get bufLen
    | _ => .error .raise

/-- The bytes of the fields of a table. -/
def FieldTree.encode (lua : Lua) : FieldTree → (LuaKey → LuaValue) → Int → Enc
  | .nil, _, _ => .ok []
  | .leaf key a rest, get, bufLen =>
    Enc.seq (fun n => (a.encode lua (get key) n).nonempty) (rest.encode lua get) bufLen
  | .sub key fs rest, get, bufLen =>
    match get key with
    | .table sub => Enc.seq (fs.encode lua sub) (rest.encode lua get) bufLen
    | _ => .error .raise

end

/-! ## Decoding -/

/-- A value and the number of bytes it took. -/
abbrev Dec (α : Type) := Option (α × Nat)

/-- The value that a basic packer's `unpack` pushes. -/
def Dec.ofUnpack (r : Option (Nat × LuaStack)) : Dec LuaValue :=
  match r with
  | some (n + 1, v :: _) => some (v, n + 1)
  | _ => none

/-- The elements of an array: `todo` of them from index `i`, into the table `t`. -/
def arrayDecode (base : List UInt8 → Dec LuaValue) :
    Nat → Nat → List UInt8 → (LuaKey → LuaValue) → Dec (LuaKey → LuaValue)
  | 0, _, _, t => some (t, 0)
  | todo + 1, i, buf, t =>
    match base buf with
    | some (v, n + 1) =>
      (arrayDecode base todo (i + 1) (buf.drop (n + 1)) (Function.update t (.index i) v)).map
        fun r => (r.1, n + 1 + r.2)
    | _ => none

mutual

/-- The value at the front of the bytes. -/
def ArgTree.decode : ArgTree → List UInt8 → Dec LuaValue
  | .number, buf => .ofUnpack (numberUnpack [] buf)
  | .byte, buf => .ofUnpack (byteUnpack [] buf)
  | .word, buf => .ofUnpack (wordUnpack [] buf)
  | .dword, buf => .ofUnpack (dwordUnpack [] buf)
  | .string, buf => .ofUnpack (stringUnpack [] buf)
  | .array b size, buf =>
    if size = 0 then
      match buf with
      | [] => none
      | n :: buf =>
        (arrayDecode b.decode n.toNat 1 buf fun _ => .nil).map fun r => (.table r.1, 1 + r.2)
    else (arrayDecode b.decode size 1 buf fun _ => .nil).map fun r => (.table r.1, r.2)
  | .table _ _ fs, buf => (fs.decode buf fun _ => .nil).map fun r => (.table r.1, r.2)

/-- The fields at the front of the bytes, put into the table `t`. -/
def FieldTree.decode : FieldTree → List UInt8 → (LuaKey → LuaValue) → Dec (LuaKey → LuaValue)
  | .nil, _, t => some (t, 0)
  | .leaf key a rest, buf, t =>
    match a.decode buf with
    | some (v, n + 1) =>
      (rest.decode (buf.drop (n + 1)) (Function.update t key v)).map
        fun r => (r.1, n + 1 + r.2)
    | _ => none
  | .sub key fs rest, buf, t =>
    match fs.decode buf fun _ => .nil with
    | some (sub, n) =>
      (rest.decode (buf.drop n) (Function.update t key (.table sub))).map
        fun r => (r.1, n + r.2)
    | none => none

end

end Donkeyji.Mydb
