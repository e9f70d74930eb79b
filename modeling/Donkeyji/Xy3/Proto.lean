/-
Donkeyji.Xy3.Proto — remote calls of `cs/my_xy3`: `arg.cpp`, `proto_s.cpp` and
`proto_c.cpp`.

The server's `Pto_s` and the client's `Pto_c` are the same code with two
differences: a stub's arguments start at Lua index 2 on the server, where
index 1 is the connection, and at index 1 on the client; and the server puts
the connection before the arguments of a handler. So both are members of one
family over `Side`.

Some bytes and numbers that the code uses have no value in the source:
`ArgString::pack` ends without a `return` when it succeeds, and
`ArgString::unpack` copies two bytes into a `size_t` that it does not
initialise. They are arguments here (`ret`, `high`), one for each argument of
a call, as are the bytes of the buffer that `marshal` gets.

A handler is a Lua function: calling it is logged, and `raises` says whether
it ends with an error. `none` is undefined behaviour, such as an access
outside a buffer or a `lua_pcall` with too few values on the stack.
-/
import Donkeyji.Lib.Memory
import Donkeyji.Lib.Lua

namespace Donkeyji.Xy3.Proto

open Memory

/-! ## Arguments -/

/-- The packers `ArgDword`, `ArgString` and `ArgNumber`. -/
inductive ArgBase where
  | dword
  | string
  | number
deriving DecidableEq

/-- How a `pack` call or a `marshal` call ends: a Lua error, undefined behaviour, or a
return with the buffer as it is then. -/
inductive PackRes where
  | raise
  | fault
  | ret (n : Int) (buf : List UInt8)

/-- Write into the buffer and return `n`. -/
def writeRet (buf : List UInt8) (off : Int) (bytes : List UInt8) (n : Int) : PackRes :=
  match writeAt buf off bytes with
  | none => .fault
  | some buf => .ret n buf

/-- `ArgDword::pack` of the value at a Lua index, into the buffer from `off` on. -/
def dwordPack (lua : Lua) (v : Option LuaValue) (buf : List UInt8) (off bufLen : Int) : PackRes :=
  match v.bind lua.checkInt with
  | none => .raise
  | some num =>
    if 4 > bufLen then .ret (-1) buf
    else writeRet buf off (leBytes 4 (num % 4294967296).toNat) 4

/-- `ArgString::pack`: two bytes of length, and the string one byte after them. The
value it returns on success is `ret`. -/
def stringPack (lua : Lua) (v : Option LuaValue) (buf : List UInt8) (off bufLen : Int)
    (ret : Int) : PackRes :=
  match v.bind lua.checklstring with
  | none => .raise
  | some data =>
    let strId := wrap32 (wrap32 data.length + 1)
    if strId ≤ 0xffff then
      let usedLen := wrap32 (data.length + 2)
      if usedLen > bufLen then .ret (-1) buf
      else
        match writeAt buf off (leBytes 2 (strId % 4294967296).toNat) with
        | none => .fault
        | some buf => writeRet buf (off + 1) data ret
    else .ret (-1) buf

/-- `ArgNumber::pack`: the number 0 is refused. -/
def numberPack (lua : Lua) (v : Option LuaValue) (buf : List UInt8) (off bufLen : Int) : PackRes :=
  match v.bind lua.checknumber with
  | none => .raise
  | some data =>
    if data = .finite 0 then .ret (-1) buf
    else if 8 > bufLen then .ret (-1) buf
    else writeRet buf off data.doubleBytes 8

/-- `ArgBase::pack`. -/
def ArgBase.pack (lua : Lua) (v : Option LuaValue) (buf : List UInt8) (off bufLen ret : Int) :
    ArgBase → PackRes
  | .dword => dwordPack lua v buf off bufLen
  | .string => stringPack lua v buf off bufLen ret
  | .number => numberPack lua v buf off bufLen

/-- `ArgDword::unpack`: what it returns and what it pushes. -/
def dwordUnpack (data : List UInt8) (off bufLen : Int) : Option (Int × List LuaValue) :=
  if 4 > bufLen then some (-1, [])
  else (readAt data off 4).map fun bs => (4, [.ofInt (wrap32 (leNat bs))])

/-- `ArgString::unpack`; `high` are the upper six bytes of `str_len`. -/
def stringUnpack (data : List UInt8) (off bufLen : Int) (high : Nat) :
    Option (Int × List LuaValue) :=
  if 2 > bufLen then some (-1, [])
  else
    match readAt data off 2 with
    | none => none
    | some bs =>
      let strLen := high * 65536 + leNat bs
      (readAt data (off + 2) strLen).map fun s => (wrap32 (2 + strLen), [.string s])

/-- `ArgNumber::unpack`. -/
def numberUnpack (data : List UInt8) (off bufLen : Int) : Option (Int × List LuaValue) :=
  if 8 > bufLen then some (-1, [])
  else (readAt data off 8).map fun bs => (8, [.number (.ofDoubleBytes bs)])

/-- `ArgBase::unpack`. -/
def ArgBase.unpack (data : List UInt8) (off bufLen : Int) (high : Nat) :
    ArgBase → Option (Int × List LuaValue)
  | .dword => dwordUnpack data off bufLen
  | .string => stringUnpack data off bufLen high
  | .number => numberUnpack data off bufLen

/-! ## Protocols -/

/-- The server or the client. -/
inductive Side where
  | s
  | c
deriving DecidableEq

/-- The other side. -/
def Side.other : Side → Side
  | .s => .c
  | .c => .s

/-- The letter that `procType` takes for the side's own handlers. -/
def Side.letter : Side → UInt8
  | .s => 115
  | .c => 99

/-- How many Lua arguments of a stub come before the protocol's. -/
def Side.argBase : Side → Nat
  | .s => 1
  | .c => 0

/-- The Lua arguments of a stub or a handler: on the server the connection comes first. -/
def Side.withConn (side : Side) (conn : LuaValue) (args : List LuaValue) : List LuaValue :=
  match side with
  | .s => conn :: args
  | .c => args

/-- A protocol file: its name, which is also the name of the function, and the types in
its `arg_list`. -/
structure PtoFile where
  func : List UInt8
  args : List ArgBase

/-- `class Pto_s` and `class Pto_c`; `_ref` is the function it refers to. -/
structure Pto where
  id : UInt8
  func : List UInt8
  args : List ArgBase
  isMaker : Bool
  ref : Option (List UInt8)

/-- `Pto_s::procType` and `Pto_c::procType`. -/
def procType (side : Side) (func : List UInt8) : Option Bool :=
  if func.head? = some side.letter then some true
  else if func.head? = some side.other.letter then some false
  else none

section

/-- Comparing names is deciding their equality, by a proof that has a name. -/
theorem lawfulBEq_name : LawfulBEq (List UInt8) := inferInstance

attribute [local instance] lawfulBEq_name

/-- `Pto_s::load` and `Pto_c::load` of a well-formed file; `forMaker` are the functions in
the Lua table `for_maker`. -/
def Pto.load (side : Side) (forMaker : List (List UInt8)) (id : Nat) (file : PtoFile) :
    Option Pto :=
  match procType side file.func with
  | none => none
  | some true =>
    if file.func ∈ forMaker then
      some { id := UInt8.ofNat id, func := file.func, args := file.args, isMaker := true
             ref := some file.func }
    else none
  | some false =>
    some { id := UInt8.ofNat id, func := file.func, args := file.args, isMaker := false
           ref := none }

end

/-- `ProtoMgr_s::addPto` and `ProtoMgr_c::addPto`. -/
def addPto (side : Side) (forMaker : List (List UInt8)) (ptos : List Pto) (file : PtoFile) :
    Option (List Pto) :=
  (Pto.load side forMaker ptos.length file).map fun p => ptos ++ [p]

/-- The table `_ptos` after adding the files one by one. -/
def ptoTable (side : Side) (forMaker : List (List UInt8)) (files : List PtoFile) :
    Option (List Pto) :=
  files.foldlM (addPto side forMaker) []

/-! ## Calls -/

/-- The loop of `marshal`: the arguments from the `i`-th on, with `usedLen` bytes used. -/
def marshalLoop (lua : Lua) (side : Side) (L : List LuaValue) (bufLen : Nat) (ret : Nat → Int) :
    List ArgBase → Nat → Int → List UInt8 → PackRes
  | [], _, usedLen, buf => .ret usedLen buf
  | arg :: args, i, usedLen, buf =>
    match arg.pack lua (L[side.argBase + i]?) buf usedLen (wrap32 (bufLen - usedLen)) (ret i) with
    | .raise => .raise
    | .fault => .fault
    | .ret n buf =>
      if n = 0 then .raise
      else marshalLoop lua side L bufLen ret args (i + 1) (wrap32 (usedLen + n)) buf

/-- `Pto_s::marshal` and `Pto_c::marshal` on a buffer; `L` are the stub's Lua arguments. -/
def Pto.marshal (lua : Lua) (side : Side) (p : Pto) (L : List LuaValue) (ret : Nat → Int)
    (buf : List UInt8) : PackRes :=
  match writeAt buf 0 [p.id] with
  | none => .fault
  | some buf' => marshalLoop lua side L buf.length ret p.args 0 1 buf'

/-- `Pto_s::marshal`. -/
def Pto_s.marshal (lua : Lua) := Pto.marshal lua .s

/-- `Pto_c::marshal`. -/
def Pto_c.marshal (lua : Lua) := Pto.marshal lua .c

/-- The loop of `unpack`: the arguments from the `i`-th on, with `readedLen` bytes read
and `pushed` on the stack. `buf` is one byte into `data`. A failure that ends the
call is `some none`. -/
def unpackLoop (data : List UInt8) (high : Nat → Nat) :
    List ArgBase → Nat → Int → List LuaValue → Option (Option (Int × List LuaValue))
  | [], _, readedLen, pushed => some (some (readedLen, pushed))
  | arg :: args, i, readedLen, pushed =>
    match arg.unpack data (1 + readedLen) (data.length - 1 - readedLen) (high i) with
    | none => none
    | some (n, vs) =>
      if n = 0 then some none
      else unpackLoop data high args (i + 1) (wrap32 (readedLen + n)) (pushed ++ vs)

/-- `Pto_s::unpack` and `Pto_c::unpack`: what it returns and the arguments of the handler
calls it made. -/
def Pto.unpack (side : Side) (p : Pto) (data : List UInt8) (hid : LuaValue) (high : Nat → Nat)
    (raises : List LuaValue → Bool) : Option (Int × List (List LuaValue)) :=
  match p.ref with
  | none => some (-1, [])
  | some _ =>
    match unpackLoop data high p.args 0 0 [] with
    | none => none
    | some none => some (-1, [])
    | some (some (readedLen, pushed)) =>
      -- `lua_pcall` needs as many values as the protocol has arguments
      if pushed.length ≠ p.args.length then none
      else
        let args := side.withConn hid pushed
        if raises args then some (-1, [args]) else some (readedLen, [args])

/-- `Pto_s::unpack`. -/
def Pto_s.unpack := Pto.unpack .s

/-- `Pto_c::unpack`. -/
def Pto_c.unpack := Pto.unpack .c

/-- `ProtoMgr_s::unpackData` and `ProtoMgr_c::unpackData`: what it returns and the calls it
made, each with the index of the protocol. -/
def unpackData (side : Side) (ptos : List Pto) (data : List UInt8) (hid : LuaValue)
    (high : Nat → Nat) (raises : Nat → List LuaValue → Bool) :
    Option (Int × List (Nat × List LuaValue)) :=
  match data with
  | [] => some (-1, [])
  | b :: _ =>
    let protoId := b.toNat
    match ptos[protoId]? with
    | none => some (-1, [])
    | some pto =>
      match pto.unpack side data hid high (raises protoId) with
      | none => none
      | some (curReaded, calls) =>
        let calls := calls.map fun args => (protoId, args)
        if curReaded < 0 then some (-1, calls)
        else if curReaded = 0 ∧ pto.args.length > 0 then some (-1, calls)
        else some (1 + curReaded, calls)

/-- `ProtoMgr_s::unpackData`. -/
def ProtoMgr_s.unpackData := Proto.unpackData .s

/-- `ProtoMgr_c::unpackData`. -/
def ProtoMgr_c.unpackData := Proto.unpackData .c

end Donkeyji.Xy3.Proto
