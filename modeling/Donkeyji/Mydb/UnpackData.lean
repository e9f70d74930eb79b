/-
Donkeyji.Mydb.UnpackData — `proto_manager::unpack_data` of `mydb/protocol.c`.

A message starts with the id of its protocol: one byte, or a zero byte and two
more. What `_unpack_ref` refers to and whether `lua_pcall` succeeds are given
from outside: the script is not part of the model. The buffer is the list of
its `buf_size` bytes.
-/
import Donkeyji.Mydb.ProtoManager

namespace Donkeyji.Mydb

open Memory

/-- `XYNET_ERROR_UNPACK_SCRIPT`. -/
def xynetErrorUnpackScript : Int := -2

/-- The head of `unpack_data`: the id and the length of the header, if the buffer has
room for it. -/
def readHeader (buf : List UInt8) : Option (Nat × Nat) :=
  match buf with
  | [] => none
  | b :: _ =>
    if b = 0 then
      if buf.length < 3 then none else some (leNat (slice buf 1 2), 3)
    else some (b.toNat, 1)

/-- The end of `net_protocol::unpack`: the call of the script function with the
arguments on the stack. -/
def NetProtocol.unpackCall (P : NetProtocol) (callee : Option LuaValue)
    (callOk : LuaStack → Bool) (L : LuaStack) (buf : List UInt8) (ext : Int) :
    Option (Int × LuaStack) :=
  match callee with
  | none => some (xynetErrorUnpackFormat, L)
  | some callee => do
    let (readedLen, L') ← P.unpack callee L buf ext
    if readedLen < 0 then return (readedLen, L')
    return (if callOk L' then readedLen else xynetErrorUnpackScript, settop L.length L')

namespace ProtoManager

/-- The protocol object that `_s_protos` holds at an id. -/
def protoAt (s : ProtoManager) (id : Nat) : Option NetProtocol := s.protos[id]?.bind s.heap

/-- `proto_manager::unpack_data`: the number of bytes read, `0` or an error. -/
def unpackData (s : ProtoManager) (callee : NetProtocol → Option LuaValue)
    (callOk : LuaStack → Bool) (L : LuaStack) (buf : List UInt8) (ext : Int) :
    Option (Int × LuaStack) :=
  match readHeader buf with
  | none => some (0, L)
  | some (protoId, readedLen) =>
    if protoId ≥ s.protos.length then some (xynetErrorUnpackFormat, L)
    else do
      let P ← s.protoAt protoId
      let (curReaded, L) ← P.unpackCall (callee P) callOk L (buf.drop readedLen) ext
      if curReaded < 0 then return (curReaded, L)
      if curReaded = 0 ∧ P.args ≠ [] then return (xynetErrorUnpackFormat, L)
      return (readedLen + curReaded, L)

/-- A call from a script that changes the packers or the protocols. -/
inductive ScriptCall where
  | protocol (call : ManagerCall)
  | tableArgs (desc : TableDesc)

/-- One call; `none` is a crash. `add_table_args` with a format that is refused ends in a
Lua error. -/
def scriptStep (lua : Lua) (curChar : List UInt8) (s : ProtoManager) :
    ScriptCall → Option ProtoManager
  | .protocol call => step curChar s call
  | .tableArgs desc => some { s with reg := s.reg ++ (fcallTableArg lua s.reg desc).toList }

/-- `operator new` returns no address of a live object. -/
def ScriptFresh (s : ProtoManager) : ScriptCall → Prop
  | .protocol call => s.Fresh call
  | .tableArgs _ => True

end ProtoManager

end Donkeyji.Mydb
