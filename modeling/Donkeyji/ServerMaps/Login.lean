/-
Donkeyji.ServerMaps.Login — the login requests of `server_maps`
(`login/login.cc`).

`_login_client_read` takes a frame from a client's `rbuf`, calls the script
and queues the response in `wbuf`. Every byte that it reads in `rbuf` is
recorded by its position; one outside the block has no result.

A Lua function is a value `other f`; what it does with its arguments is given
from outside, and so is the error message when a value that is no function is
called. Strings have no `__call` metamethod. `lua_tointeger` and
`lua_tostring` are Lua's.
-/
import Donkeyji.Lib.Lua
import Donkeyji.ServerMaps.Buffer

namespace Donkeyji.ServerMaps

open Memory

/-! ## Sizes (`typedef.h`) -/

/-- `LEN_BYTE`. -/
def lenByte : Nat := 1

/-- `LEN_WORD`. -/
def lenWord : Nat := 2

/-- `sizeof(DWORD)`. -/
def lenDword : Nat := 4

/-- `LEN_LWORD`. -/
def lenLword : Nat := 8

/-- `LEN_HEADER`. -/
def lenHeader : Nat := lenByte + lenWord

/-- `S_CHECK`. -/
def sCheck : Nat := 1

/-! ## The script -/

/-- What a call of a Lua function comes to. -/
inductive Outcome where
  | raises (message : LuaValue)
  | returns (values : List LuaValue)

/-- The Lua side: the functions, the global `on_check_user`, the message of a call that cannot be
made, and two conversions. -/
structure Script where
  call : Nat → List LuaValue → Outcome
  onCheckUser : LuaValue
  callError : LuaValue → LuaValue
  tointeger : LuaValue → Int
  tostring : LuaValue → Option (List UInt8)

/-- The state of `gL`: its stack, top first, and the calls that were made. -/
structure LuaState where
  stack : LuaStack
  calls : List (Nat × List LuaValue)

/-- `lua_pushlstring`, and the pushing of any other value. -/
def LuaState.push (L : LuaState) (v : LuaValue) : LuaState := { L with stack := v :: L.stack }

/-- `lua_pop`. -/
def LuaState.pop (L : LuaState) (n : Nat) : LuaState := { L with stack := L.stack.drop n }

/-- The results of a call, as many as were asked for. -/
def adjusted (nresults : Nat) (values : List LuaValue) : List LuaValue :=
  values.take nresults ++ List.replicate (nresults - values.length) .nil

/-- `lua_pcall` without an error function: the value below the arguments is called. -/
def LuaState.pcall (script : Script) (L : LuaState) (nargs nresults : Nat) :
    Option (Int × LuaState) := do
  let f ← L.stack[nargs]?
  let args := (L.stack.take nargs).reverse
  let rest := L.stack.drop (nargs + 1)
  match f with
  | .other f =>
    let calls := L.calls ++ [(f, args)]
    match script.call f args with
    | .returns values => return (0, ⟨(adjusted nresults values).reverse ++ rest, calls⟩)
    | .raises message => return (2, ⟨message :: rest, calls⟩)
  | v => return (2, { L with stack := script.callError v :: rest })

/-! ## The response -/

/-- `strlen`. -/
def strlen (s : List UInt8) : Nat := (s.takeWhile (· ≠ 0)).length

/-- The bytes of the response that go to `buffer_append`: `package_len` of those laid out in
`buf`. -/
def loginResponse (uid : Int) (skey : List UInt8) : List UInt8 :=
  let slen := strlen skey % 256
  let packageLen := lenHeader + lenLword + 1 + slen
  let buf := leBytes lenByte packageLen ++ leBytes lenDword 2 ++
    leBytes lenLword (toU64 uid).toNat ++ leBytes 1 slen ++ skey.take slen
  buf.take packageLen

/-! ## The request -/

/-- A client's buffers and what is left of a call of `_login_client_read`: the positions it read
in `rbuf`, and the bytes it handed to `bufferevent_write`. -/
structure LoginResult where
  rbuf : Buffer
  wbuf : Buffer
  lua : LuaState
  reads : List Nat
  sent : List UInt8

/-- A byte of a block. -/
def byteAt (ptr : List UInt8) (i : Nat) : Option Nat := ptr[i]?.map UInt8.toNat

/-- The request for a check is handed to the script, and its answer is sent. -/
def checkUser (script : Script) (junk : Nat → UInt8) (L : LuaState) (wbuf : Buffer)
    (urs pwd : List UInt8) : Option (LuaState × Buffer × List UInt8) := do
  let L := L.push (.string urs)
  let L := L.push (.string pwd)
  let L := L.push script.onCheckUser
  let (code, L) ← L.pcall script 2 1
  if code ≠ 0 then
    return (L.pop 1, wbuf, [])
  let uid := script.tointeger (← L.stack.head?)
  let L := L.pop 1
  let skey ← script.tostring (← L.stack.head?)
  let (_, wbuf) ← bufferAppend junk wbuf (loginResponse uid skey)
  let sent ← connClientSend wbuf
  return (L, wbuf, sent)

/-- `_login_client_read`. -/
def loginClientRead (script : Script) (junk : Nat → UInt8) (L : LuaState) (rbuf wbuf : Buffer) :
    Option LoginResult := do
  let ptr := rbuf.ptr
  let offset := rbuf.offset
  if offset ≥ rbuf.used then
    return ⟨rbuf, wbuf, L, [], []⟩
  let totalLen := rbuf.used - offset
  let chunkLen ← byteAt ptr offset
  let reads := [offset]
  if totalLen - lenByte < chunkLen then
    return ⟨rbuf, wbuf, L, reads, []⟩
  let offset := offset + lenByte
  let protoId := leNat (← readAt ptr offset lenWord)
  let reads := reads ++ List.range' offset lenWord
  let offset := offset + lenWord
  if protoId = sCheck then
    let ursLen ← byteAt ptr offset
    let reads := reads ++ [offset]
    let offset := offset + lenByte
    let urs := offset
    let offset := offset + ursLen
    let pwdLen ← byteAt ptr offset
    let reads := reads ++ [offset]
    let offset := offset + lenByte
    let pwd := offset
    let offset := offset + pwdLen
    let rbuf := { rbuf with offset }
    let reads := reads ++ List.range' urs ursLen ++ List.range' pwd pwdLen
    let urs ← readAt ptr urs ursLen
    let pwd ← readAt ptr pwd pwdLen
    let (L, wbuf, sent) ← checkUser script junk L wbuf urs pwd
    return ⟨rbuf, wbuf, L, reads, sent⟩
  else
    -- `conn_kick_client` has an empty body
    return ⟨rbuf, wbuf, L, reads, []⟩

end Donkeyji.ServerMaps
