/-
Donkeyji.Xy3.CodecErrors — what `cs/my_xy3` does when an argument cannot be
packed or unpacked.

The packers return -1 when they fail. `marshal` and `unpack` look at the
result, but they compare it with 0, so a failure counts as minus one byte and
the loop goes on. What follows from that depends on more than
`Donkeyji.Xy3.Proto` follows: the stub hands every result other than 0 to
`hook_send_s` or `hook_send_c`, and a `lua_pcall` for which values are missing
takes them from what lay on the stack before. So the stubs and the stack are
modelled here; `unpackOn_of_unpack` says that nothing else is different.
-/
import Donkeyji.Xy3.Proto

namespace Donkeyji.Xy3.Proto

open Memory

/-! ## Stubs -/

/-- How a stub ends: a Lua error, undefined behaviour, or a return after at most one call
of the send hook, with the length and the buffer it is given. -/
inductive StubRes where
  | raise
  | fault
  | done (sent : Option (Int × List UInt8))

/-- Whether the stub gets to `marshal`: on the server the connection has to be a number. -/
def Side.stubPacks (side : Side) (L : List LuaValue) : Bool :=
  match side, L.head? with
  | .c, _ => true
  | .s, some (.number _) => true
  | .s, _ => false

/-- `Pto_s::pack` and `Pto_c::pack`; `buf` is the local array of 100 bytes. -/
def Pto.stub (lua : Lua) (side : Side) (p : Pto) (L : List LuaValue) (ret : Nat → Int)
    (buf : List UInt8) : StubRes :=
  if side.stubPacks L then
    match p.marshal lua side L ret buf with
    | .raise => .raise
    | .fault => .fault
    | .ret n buf => .done (if n ≠ 0 then some (n, buf) else none)
  else
    .done none

/-- `Pto_s::pack`. -/
def Pto_s.pack (lua : Lua) := Pto.stub lua .s

/-- `Pto_c::pack`. -/
def Pto_c.pack (lua : Lua) := Pto.stub lua .c

/-! ## The stack of `unpack` -/

/-- `Pto_s::unpack` and `Pto_c::unpack` on a stack, top first: what is returned, the stack
afterwards, and the calls made with `lua_pcall`. `handler` is the function that `_ref` stands
for, `raises` whether a call of a value ends with an error and `msg` the message. -/
def Pto.unpackOn (side : Side) (p : Pto) (entry : LuaStack) (handler : LuaValue)
    (data : List UInt8) (hid : LuaValue) (high : Nat → Nat)
    (raises : LuaValue → List LuaValue → Bool) (msg : LuaValue) :
    Option (Int × LuaStack × List (LuaValue × List LuaValue)) :=
  match p.ref with
  | none => some (-1, entry, [])
  | some _ =>
    match unpackLoop data high p.args 0 0 [] with
    | none => none
    | some none => some (-1, entry, [])
    | some (some (readedLen, pushed)) =>
      let stack := (side.withConn hid pushed).reverse ++ handler :: entry
      let nargs := side.argBase + p.args.length
      -- `lua_pcall` takes the top `nargs` values and calls the value below them
      match stack.drop nargs with
      | [] => none
      | f :: below =>
        let args := (stack.take nargs).reverse
        if raises f args then some (-1, settop entry.length (msg :: below), [(f, args)])
        else some (readedLen, settop entry.length below, [(f, args)])

/-- `ProtoMgr_s::unpackData` and `ProtoMgr_c::unpackData` on a stack; `handlers` are the
functions of the protocols. -/
def unpackDataOn (side : Side) (ptos : List Pto) (entry : LuaStack) (handlers : Nat → LuaValue)
    (data : List UInt8) (hid : LuaValue) (high : Nat → Nat)
    (raises : LuaValue → List LuaValue → Bool) (msg : LuaValue) :
    Option (Int × LuaStack × List (LuaValue × List LuaValue)) :=
  match data with
  | [] => some (-1, entry, [])
  | b :: _ =>
    match ptos[b.toNat]? with
    | none => some (-1, entry, [])
    | some pto =>
      match pto.unpackOn side entry (handlers b.toNat) data hid high raises msg with
      | none => none
      | some (curReaded, L, calls) =>
        if curReaded < 0 then some (-1, L, calls)
        else if curReaded = 0 ∧ pto.args.length > 0 then some (-1, L, calls)
        else some (1 + curReaded, L, calls)

/-! ## Failures -/

/-- A `pack` that the loop of `marshal` calls reports failure. -/
def packFails (lua : Lua) (side : Side) (L : List LuaValue) (bufLen : Nat) (ret : Nat → Int) :
    List ArgBase → Nat → Int → List UInt8 → Prop
  | [], _, _, _ => False
  | arg :: args, i, usedLen, buf =>
    match arg.pack lua (L[side.argBase + i]?) buf usedLen (wrap32 (bufLen - usedLen)) (ret i) with
    | .raise => False
    | .fault => False
    | .ret n buf => n = -1 ∨ (n ≠ 0 ∧ packFails lua side L bufLen ret args (i + 1)
        (wrap32 (usedLen + n)) buf)

/-- A `pack` that `marshal` calls reports failure. -/
def Pto.PackFails (lua : Lua) (side : Side) (p : Pto) (L : List LuaValue) (ret : Nat → Int)
    (buf : List UInt8) : Prop :=
  match writeAt buf 0 [p.id] with
  | none => False
  | some buf' => packFails lua side L buf.length ret p.args 0 1 buf'

/-- An `unpack` that the loop of `unpack` calls reports failure. -/
def unpackFails (data : List UInt8) (high : Nat → Nat) : List ArgBase → Nat → Int → Prop
  | [], _, _ => False
  | arg :: args, i, readedLen =>
    match arg.unpack data (1 + readedLen) (data.length - 1 - readedLen) (high i) with
    | none => False
    | some (n, _) => n = -1 ∨ (n ≠ 0 ∧ unpackFails data high args (i + 1) (wrap32 (readedLen + n)))

/-- An `unpack` that `Pto_s::unpack` or `Pto_c::unpack` calls reports failure. -/
def Pto.UnpackFails (p : Pto) (data : List UInt8) (high : Nat → Nat) : Prop :=
  p.ref ≠ none ∧ unpackFails data high p.args 0 0

/-- A failed `pack` makes `marshal` raise an error, and the stub hands nothing to the send
hook. -/
def PackErrorsReported (lua : Lua) (side : Side) (p : Pto) (L : List LuaValue)
    (ret : Nat → Int) (buf : List UInt8) : Prop :=
  p.PackFails lua side L ret buf →
    p.marshal lua side L ret buf = .raise ∧
      (p.stub lua side L ret buf = .raise ∨ p.stub lua side L ret buf = .done none)

/-- A result of `unpack` that reports failure: -1, the stack at its entry height, and no
call of the handler. -/
def Reported (entry : LuaStack) (handler : LuaValue)
    (res : Option (Int × LuaStack × List (LuaValue × List LuaValue))) : Prop :=
  ∃ L calls, res = some (-1, L, calls) ∧ L.length = entry.length ∧ ∀ c ∈ calls, c.1 ≠ handler

/-- A failed `unpack` makes `Pto::unpack` and `unpackData` report failure, whatever lies on
the stack and whatever calling it does. -/
def UnpackErrorsReported (side : Side) (p : Pto) (b : UInt8) (body : List UInt8)
    (high : Nat → Nat) : Prop :=
  p.UnpackFails (b :: body) high → ∀ entry handler hid raises msg,
    Reported entry handler (p.unpackOn side entry handler (b :: body) hid high raises msg) ∧
    ∀ ptos handlers, ptos[b.toNat]? = some p → handlers b.toNat = handler →
      Reported entry handler (unpackDataOn side ptos entry handlers (b :: body) hid high raises msg)

/-! ## The conditions -/

/-- What one `pack` comes to: the Lua value is refused with an error, the packer returns -1,
or it writes `span` bytes and returns `n`. -/
inductive PackOutcome where
  | refused
  | failed
  | written (span : Nat) (n : Int)

/-- The outcome of a `pack` into `left` bytes. -/
def ArgBase.outcome (lua : Lua) (v : Option LuaValue) (left ret : Int) : ArgBase → PackOutcome
  | .dword =>
    match v.bind lua.checkInt with
    | none => .refused
    | some _ => if 4 > left then .failed else .written 4 4
  | .string =>
    match v.bind lua.checklstring with
    | none => .refused
    | some data =>
      if wrap32 (wrap32 data.length + 1) ≤ 0xffff then
        if wrap32 (data.length + 2) > left then .failed
        else .written (max 2 (data.length + 1)) ret
      else .failed
  | .number =>
    match v.bind lua.checknumber with
    | none => .refused
    | some data =>
      if data = .finite 0 then .failed else if 8 > left then .failed else .written 8 8

/-- The condition for packing, from the `i`-th argument on: no argument fails, or a later
one is refused, or is a string whose `pack` happens to return 0, before a write leaves the
buffer. `failed` says whether an argument before the `i`-th has failed. -/
def StopsAfterFailure (lua : Lua) (side : Side) (L : List LuaValue) (bufLen : Nat)
    (ret : Nat → Int) : List ArgBase → Nat → Int → Bool → Prop
  | [], _, _, failed => failed = false
  | arg :: args, i, usedLen, failed =>
    match arg.outcome lua (L[side.argBase + i]?) (wrap32 (bufLen - usedLen)) (ret i) with
    | .refused => True
    | .failed =>
      StopsAfterFailure lua side L bufLen ret args (i + 1) (wrap32 (usedLen + -1)) true
    | .written span n =>
      if 0 ≤ usedLen ∧ usedLen + span ≤ bufLen then
        n = 0 ∨ StopsAfterFailure lua side L bufLen ret args (i + 1) (wrap32 (usedLen + n))
          (failed || n = -1)
      else failed = false

/-- The condition for unpacking, from the `i`-th argument on, with `readed` bytes read: the
bytes that every argument looks at are there. After a string whose own bytes are not all
there, nothing is left to ask. -/
def AllThere (data : List UInt8) (high : Nat → Nat) : List ArgBase → Nat → Nat → Prop
  | [], _, _ => True
  | .dword :: args, i, readed =>
    1 + readed + 4 ≤ data.length ∧ AllThere data high args (i + 1) (readed + 4)
  | .number :: args, i, readed =>
    1 + readed + 8 ≤ data.length ∧ AllThere data high args (i + 1) (readed + 8)
  | .string :: args, i, readed =>
    1 + readed + 2 ≤ data.length ∧
      (1 + readed + 2 + (high i * 65536 + leNat (slice data (1 + readed) 2)) ≤ data.length →
        AllThere data high args (i + 1)
          (readed + 2 + (high i * 65536 + leNat (slice data (1 + readed) 2))))

end Donkeyji.Xy3.Proto
