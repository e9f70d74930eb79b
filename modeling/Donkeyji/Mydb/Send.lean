/-
Donkeyji.Mydb.Send — the ways from a script to `s_data_sender`, in `mydb/protocol.c`.

`net_protocol::pack` is what a stub of `for_caller` runs: it packs its arguments and sends them
to one destination or to a list of them. `proto_manager::pack_protocol` and
`proto_manager::send_pack_data` do the same in two calls, with the packed bytes as a string of
the script in between.

A C function of Lua ends in a Lua error (`raise`), in an access outside a buffer or through a
null pointer (`fault`), or with the calls of `s_data_sender` it has made, its results and the
stack. The buffers that `db_buf_alloc_pack` returns have `MAXTONETD` bytes.
-/
import Donkeyji.Mydb.Protocol

namespace Donkeyji.Mydb

open Memory

/-- `VFD_NULL`. -/
def vfdNull : Int := 200000

/-- `MAXTONETD`. -/
def maxToNetd : Int := 0x8000

/-- A `VFD` in memory, an `int` of four bytes. -/
def vfdBytes (vfd : Int) : List UInt8 := leBytes 4 (vfd % 4294967296).toNat

/-- A call of `s_data_sender`, with the bytes that its first argument points to. -/
structure SendCall where
  data : List UInt8
  dataLen : Int
  ext : Int
  ismulticast : Int
  mcpayloadlen : Int
deriving DecidableEq

/-- What the functions take from the Lua library, the machine and `buf.c`. -/
structure SendEnv where
  lua : Lua
  /-- The cast of a Lua number to `VFD`. -/
  castVfd : LuaNumber → Int
  castVfd_exact : ∀ i : Int, -2147483648 ≤ i → i < 2147483648 → castVfd (.finite i) = i
  /-- A Lua number as `lua_Integer`, stored in a `VFD`. -/
  integerVfd : LuaNumber → Int
  integerVfd_exact : ∀ i : Int, -2147483648 ≤ i → i < 2147483648 → integerVfd (.finite i) = i
  /-- `lua_objlen` of a table. -/
  objlen : (LuaKey → LuaValue) → Nat
  /-- Whether `db_buf_alloc_pack` returns a buffer. -/
  alloc : Bool
  /-- The first upvalue of a function, and the protocol it points to. -/
  upvalue : Nat → Option (LuaValue × Option NetProtocol)

/-- How a C function of Lua ends. -/
inductive CFunOut where
  | raise
  | fault
  | ret (sent : List SendCall) (results : List LuaValue) (L : LuaStack)

/-! ## net_protocol::pack -/

/-- `luaL_checkinteger`, stored in a `VFD`. -/
def SendEnv.checkinteger (env : SendEnv) (v : LuaValue) : Option Int :=
  (env.lua.checknumber v).map env.integerVfd

/-- The locals of the multicast branch: where `beginp` points to, what is in the buffer before
it, and the counters. -/
structure Multicast where
  beginp : Int
  data : List UInt8
  c : Nat
  t : Nat

/-- The body of the loop over the destinations. -/
def Multicast.add (m : Multicast) (vfd : Int) : Multicast :=
  if vfd > vfdNull then
    if m.beginp + 4 ≤ maxToNetd then
      ⟨m.beginp + 4, m.data ++ vfdBytes vfd, m.c + 1, m.t + 1⟩
    else { m with t := m.t + 1 }
  else m

/-- The loop over the destinations: `todo` of them from the zero-based index `i` on. Each is
pushed and removed again. `none` is the Lua error of `luaL_checkinteger`. -/
def multicastLoop (env : SendEnv) (get : LuaKey → LuaValue) :
    Nat → Nat → Multicast → Option Multicast
  | 0, _, m => some m
  | todo + 1, i, m =>
    match env.checkinteger (get (.index (i + 1))) with
    | none => none
    | some vfd => multicastLoop env get todo (i + 1) (m.add vfd)

/-- `net_protocol::pack`, with the protocol of the stub's upvalue. -/
def NetProtocol.pack (env : SendEnv) (P : NetProtocol) (L : LuaStack) : CFunOut :=
  match stackAt L 1 with
  | .number x =>
    let ext := env.castVfd x
    if vfdNull ≥ ext then .ret [] [] (settop L.length L)
    else if env.alloc = false then .ret [] [] (settop L.length L)
    else
      match P.marshal env.lua L maxToNetd with
      | .raise => .raise
      | .fault => .fault
      | .ret usedLen buf L' =>
        if usedLen > 0 then .ret [⟨buf, usedLen, ext, 0, 0⟩] [] (settop L.length L')
        else .ret [] [] (settop L.length L')
  | .table get =>
    let s := env.objlen get
    if s > 0 then
      if env.alloc = false then .ret [] [] (settop L.length L)
      else
        match P.marshal env.lua L maxToNetd with
        | .raise => .raise
        | .fault => .fault
        | .ret usedLen data L' =>
          if usedLen > 0 then
            match multicastLoop env get s 0 ⟨usedLen, data, 0, 0⟩ with
            | none => .raise
            | some m =>
              if m.c > 0 then
                .ret [⟨m.data, usedLen + m.c * 4, m.c, 1, usedLen⟩] [] (settop L.length L')
              else .ret [] [] (settop L.length L')
          else .ret [] [] (settop L.length L')
    else .ret [] [] (settop L.length L)
  | _ => .ret [] [] (settop L.length L)

/-! ## Packed in advance -/

namespace ProtoManager

/-- `proto_manager::pack_protocol`: the packed bytes as a string. -/
def packProtocol (env : SendEnv) (L : LuaStack) : CFunOut :=
  match stackAt L 1 with
  | .other function =>
    match env.upvalue function with
    | none => .ret [] [] L
    | some (upvalue, protocolObj) =>
      let L := upvalue :: L
      if env.alloc = false then .ret [] [] L
      else
        match protocolObj with
        | none => .fault
        | some P =>
          match P.marshal env.lua L maxToNetd with
          | .raise => .raise
          | .fault => .fault
          | .ret len data L =>
            let packed := .string (data.take len.toNat)
            .ret [] [packed] (packed :: L)
  | _ => .ret [] [] L

/-- `proto_manager::send_pack_data`. The string is copied whatever its length is. -/
def sendPackData (env : SendEnv) (L : LuaStack) : CFunOut :=
  match env.lua.checknumber (stackAt L 1) with
  | none => .raise
  | some x =>
    match env.lua.checklstring (stackAt L 2) with
    | none => .raise
    | some data =>
      if data.length = 0 then .ret [] [] L
      else if env.alloc = false then .ret [] [] L
      else if (data.length : Int) ≤ maxToNetd then
        .ret [⟨data, data.length, env.castVfd x, 0, 0⟩] [] L
      else .fault

end ProtoManager

end Donkeyji.Mydb
