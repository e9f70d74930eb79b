/-
Donkeyji.Mydb.Protocol — `net_protocol` of `mydb/protocol.c` once it is built.

A protocol object has the name it is called by, its id and its argument
packers. An entry of the `arg_list` table is an `ArgDesc`, the type name and
the third value where `lua_isnumber` accepts it; an entry that is no table
or has no type name is `none`.

`marshal` and `unpack` are modelled up to the script function: `unpack`
ends before `lua_pcall`, with the arguments on the stack. The check id is
a hash of `checkIdString`.
-/
import Donkeyji.Mydb.ArgManager

namespace Donkeyji.Mydb

open Memory

/-! ## Argument lists -/

/-- One entry of `arg_list`: the type name and the length of an array. -/
structure ArgDesc where
  type : List UInt8
  arrayLen : Option Int

/-- How loading a protocol fails: a Lua error (a `longjmp`), a return of
`PROTO_ERROR`, or the null pointer of an array's unknown base type. -/
inductive LoadFail where
  | raise
  | protoError
  | crash
deriving DecidableEq

/-- The body of the loop of `net_protocol::arglist_proc`. An array is a new
packer, which the registry keeps. -/
def arglistEntry (reg : Registry) (desc : ArgDesc) : Except LoadFail (Registry × FcallArg) :=
  match desc.arrayLen with
  | some arrayLen =>
    if arrayLen < 0 ∨ arrayLen > 255 then .error .raise
    else
      match fcallArrayArg reg (untilNul desc.type) arrayLen.toNat with
      | some arg => .ok (reg ++ [arg], arg)
      | none => .error .crash
  | none =>
    match reg.getArg (untilNul desc.type) with
    | some arg => .ok (reg, arg)
    | none => .error .raise

/-- The loop of `net_protocol::arglist_proc`: the registry it leaves, the arguments
it has found, and how it failed if it did. -/
def arglistProc (reg : Registry) :
    List (Option ArgDesc) → Registry × List FcallArg × Option LoadFail
  | [] => (reg, [], none)
  | none :: _ => (reg, [], some .raise)
  | some desc :: descs =>
    match arglistEntry reg desc with
    | .error e => (reg, [], some e)
    | .ok (reg, arg) =>
      let (reg, args, fail) := arglistProc reg descs
      (reg, arg :: args, fail)

/-- `class net_protocol`. -/
structure NetProtocol where
  packFuncName : List UInt8
  args : List FcallArg
  id : Nat
  isMaker : Bool

/-- The objects that `arglist_proc` can build, in any registry. -/
def NetProtocol.Built (lua : Lua) (P : NetProtocol) : Prop :=
  ∃ reg, Registered lua reg ∧ ∃ descs reg', arglistProc reg descs = (reg', P.args, none)

/-! ## The check id -/

/-- `calc_hashnr`, in 32-bit integers; the characters are signed. -/
def calcHashnr (key : List UInt8) : BitVec 32 :=
  (key.foldl (fun (nr, nr2) c =>
    (nr ^^^ (((nr &&& 63) + nr2) * BitVec.ofInt 32 (schar c) + (nr <<< 8)), nr2 + 3))
    ((1, 4) : BitVec 32 × BitVec 32)).1

/-- The string that `get_check_id` hashes. -/
def NetProtocol.checkIdString (P : NetProtocol) : List UInt8 :=
  P.packFuncName ++ P.args.flatMap fun a => a.type ++ a.hashstr

/-- `net_protocol::get_check_id`. -/
def NetProtocol.getCheckId (P : NetProtocol) : BitVec 32 := calcHashnr P.checkIdString

/-! ## marshal and unpack -/

/-- The value at a positive stack index, `nil` above the top. -/
def stackAt (L : LuaStack) (i : Nat) : LuaValue := (L.reverse[i - 1]?).getD .nil

/-- The argument loop of `net_protocol::marshal`: `args` from the `i`-th on, with
`usedLen` bytes used and `out` written. -/
def marshalArgs (lua : Lua) (bufLen : Int) :
    List FcallArg → Nat → Int → List UInt8 → LuaStack → PackOut LuaStack
  | [], _, usedLen, out, L => .ret usedLen out L
  | a :: args, i, usedLen, out, L =>
    match a.pack lua L (stackAt L (i + 2)) (bufLen - usedLen) with
    | .raise => .raise
    | .fault => .fault
    | .ret curUsed bytes L =>
      if curUsed = 0 then .raise
      else marshalArgs lua bufLen args (i + 1) (usedLen + curUsed) (out ++ bytes) L

/-- The bytes of the protocol's id: one, or a zero byte and two. -/
def NetProtocol.header (P : NetProtocol) : List UInt8 :=
  if P.id < 256 then leBytes 1 P.id else 0 :: leBytes 2 P.id

/-- `net_protocol::marshal`. The header goes into the buffer unchecked. -/
def NetProtocol.marshal (lua : Lua) (P : NetProtocol) (L : LuaStack) (bufLen : Int) :
    PackOut LuaStack :=
  if P.id = 0 ∨ bufLen < P.header.length then .fault
  else marshalArgs lua bufLen P.args 0 P.header.length P.header L

/-- `XYNET_ERROR_UNPACK_FORMAT`. -/
def xynetErrorUnpackFormat : Int := -1

/-- The argument loop of `net_protocol::unpack`, with `readedLen` bytes read. -/
def unpackArgs (top : Nat) (buf : List UInt8) :
    List FcallArg → Nat → LuaStack → Option (Int × LuaStack)
  | [], readedLen, L => some (readedLen, L)
  | a :: args, readedLen, L => do
    let (curReaded, L) ← a.unpack L (buf.drop readedLen)
    if curReaded = 0 then
      return (xynetErrorUnpackFormat, settop top L)
    unpackArgs top buf args (readedLen + curReaded) L

/-- `net_protocol::unpack` up to the call of `callee`, the function of the script:
the number of bytes read or the error, and the stack. -/
def NetProtocol.unpack (P : NetProtocol) (callee : LuaValue) (L : LuaStack)
    (buf : List UInt8) (ext : Int) : Option (Int × LuaStack) :=
  unpackArgs L.length buf P.args 0 (.ofInt ext :: callee :: L)

/-! ## The wire format -/

/-- `marshal` with the arguments of the stack `L` and room for `n` bytes after the
header writes the header and `out`. -/
def NetProtocol.Encodes (lua : Lua) (P : NetProtocol) (L : LuaStack) (n : Int)
    (out : List UInt8) : Prop :=
  ∃ usedLen L', marshalArgs lua n P.args 0 0 [] L = .ret usedLen out L'

/-- Two protocols decode every byte sequence alike and encode every argument list
alike, in every space that an `int` can count. -/
def SameWire (lua : Lua) (P Q : NetProtocol) : Prop :=
  (∀ callee L buf ext, P.unpack callee L buf ext = Q.unpack callee L buf ext) ∧
  ∀ L n out, 0 ≤ n → n < 2147483648 → (P.Encodes lua L n out ↔ Q.Encodes lua L n out)

end Donkeyji.Mydb
