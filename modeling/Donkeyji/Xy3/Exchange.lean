/-
Donkeyji.Xy3.Exchange — remote calls of `cs/my_xy3` in both directions.

`RemoteCalls` is extended by what the server's script calls and what the
programs receive. A stub of the server is called with a number `vfd`, and its
pack is queued for the client of that slot (`hook_send_s`); `answered` records
it for the connection that has the slot. What `send` took of it in the handling
of an event is on the way `back`. In each turn of `main_loop` of `main_c.cpp` a
program receives and sends once in `cc.process`, then takes at most one pack
out of its receive buffer and gives it to `unpackData`; the handlers that this
calls are logged in `got`.
-/
import Donkeyji.Xy3.RemoteCalls

namespace Donkeyji.Xy3

open Memory Proto

namespace Proto

/-- What a stub of the server gives to `hook_send_s`. -/
def stubData (lua : Lua) (p : Pto) (vfd : Int) (L : List LuaValue) (ret : Nat → Int)
    (buf : List UInt8) : Option (Option (List UInt8)) :=
  match Pto_s.pack lua p (.ofInt vfd :: L) ret buf with
  | .raise | .done none => some none
  | .fault => none
  | .done (some (usedLen, buf)) => (readAt buf 0 usedLen).map some

end Proto

/-- The connection whose client takes the bytes in `Server::doSend`. -/
def MainLoop.taker (l : MainLoop) (vfd : Int) (data : List UInt8) : Option Nat :=
  if vfd < 0 ∨ vfd > 1024 then none
  else do
    let c ← (l.server.clients[vfd.toNat]?).getD none
    let (r, _) ← c.doSend data
    if r = 0 then some (l.peer c.sock) else none

/-- The bytes that `send` takes in the handling of an event. -/
def Server.sentBy (junk : Nat → UInt8) (s : Server) (r : Ready) : List UInt8 :=
  let sent : Option (List UInt8) := do
    let pos ← s.fpos r.fd
    let c ← (s.clients[pos]?).getD none
    let c ← c.tryRecv junk r.recv
    let (bytes, _) ← c.trySend r.send
    return bytes
  sent.getD []

/-- The programs and the server, and what goes from the server to each program. -/
structure Exchange where
  net : CallNet
  answered : Nat → List Call
  back : Nat → List UInt8
  got : Nat → List (Nat × List LuaValue)

/-- What happens. -/
inductive ExchangeAct where
  | call (k i : Nat) (xs : List Int) (ret : Nat → Int) (buf : List UInt8)
  | process (k : Nat) (recv : RecvAnswer) (send : SendAnswer)
  | doRecv (k : Nat) (high : Nat → Nat)
  | event (fuel : Nat) (r : Ready)
  | doRead (high : Nat → Nat)
  | stub (vfd : Int) (i : Nat) (xs : List Int) (ret : Nat → Int) (buf : List UInt8)

/-- The programs have connected, and the server has just started. -/
def Exchange.start (cc : Client) (listenSock : Int) (addOk : Bool) : Exchange where
  net := .start cc listenSock addOk
  answered _ := []
  back _ := []
  got _ := []

/-- The `cc` of a program changes. -/
def CallNet.setProgram (n : CallNet) (k : Nat) (cc : Client) : CallNet :=
  { n with program := Function.update n.program k cc }

section

variable (lua : Lua) (junk : Nat → UInt8) (raises : Side → Nat → List LuaValue → Bool)
  {files : List PtoFile} (t : Tables files)

/-- One step. -/
def exchangeStep (x : Exchange) : ExchangeAct → Option Exchange
  | .call k i xs ret buf =>
    (callStep lua junk (raises .s) t x.net (.call k i xs ret buf)).map fun net => { x with net }
  | .process k recv send =>
    let cc := x.net.program k
    if cc.state ≠ 2 then some x
    else do
      let cc ← cc.tryRecv junk recv
      let (bytes, cc) ← cc.trySend send
      return { x with
        net := { x.net.setProgram k cc with
          wire := Function.update x.net.wire k (x.net.wire k ++ bytes) }
        back := Function.update x.back k ((x.back k).drop recv.bytes.length) }
  | .doRecv k high => do
    let cc := x.net.program k
    let (pack, rbuf) ← cc.rbuf.doRecv
    let net := x.net.setProgram k { cc with rbuf }
    match pack with
    | none | some [] => return { x with net }
    | some data =>
      let (_, calls) ← ProtoMgr_c.unpackData (t.ptos .c) data .nil high (raises .c)
      return { x with net, got := Function.update x.got k (x.got k ++ calls) }
  | .event fuel r => do
    let net ← callStep lua junk (raises .s) t x.net (.event fuel r)
    if r.fd = x.net.loop.server.listenSock then
      return { x with net }
    let k := x.net.loop.peer r.fd
    return { x with
      net, back := Function.update x.back k (x.back k ++ x.net.loop.server.sentBy junk r) }
  | .doRead high =>
    (callStep lua junk (raises .s) t x.net (.doRead high)).map fun net => { x with net }
  | .stub vfd i xs ret buf => do
    let p ← (t.ptos .s)[i]?
    match ← stubData lua p vfd (xs.map .ofInt) ret buf with
    | none => return x
    | some data =>
      let net ← callStep lua junk (raises .s) t x.net (.hookSendS vfd data)
      match x.net.loop.taker vfd data with
      | none => return { x with net }
      | some k =>
        return { x with
          net, answered := Function.update x.answered k (x.answered k ++ [(i, xs)]) }

end

/-- As `CallOk`, for both directions: stubs are called with their integers, and `recv` of a program
gives what the server sent to it, as long as its receive buffer need not pass 2^30 bytes. -/
def ExchangeOk {files : List PtoFile} (t : Tables files) (x : Exchange) : ExchangeAct → Prop
  | .call k i xs ret buf => CallOk t x.net (.call k i xs ret buf)
  | .process k recv send =>
    CallOk t x.net (.process k send) ∧ recv.bytes <+: x.back k ∧
      (x.net.program k).rbuf.len + recv.bytes.length ≤ 1073741824
  | .doRecv _ _ => True
  | .event fuel r => CallOk t x.net (.event fuel r)
  | .doRead high => CallOk t x.net (.doRead high)
  | .stub vfd i xs _ buf => CallableFrom t .s (i, xs) ∧ IsInt32 vfd ∧ buf.length = 100

instance {files : List PtoFile} (t : Tables files) (x : Exchange) (a : ExchangeAct) :
    Decidable (ExchangeOk t x a) := by
  unfold ExchangeOk
  split <;> infer_instance

/-- The calls of the server's stubs as a program's handlers should get them. -/
def Exchange.due (x : Exchange) (k : Nat) : List (Nat × List LuaValue) :=
  (x.answered k).map fun c => (c.1, c.2.map .ofInt)

/-- Nothing is on the way back to a program: the server's client of it has sent all, and the
program has received and taken all. -/
def Exchange.Settled (x : Exchange) (k : Nat) : Prop :=
  x.back k = [] ∧ (x.net.program k).rbuf.content = [] ∧
    ∃ o ∈ x.net.loop.server.clients, ∃ c ∈ o, x.net.loop.peer c.sock = k ∧ c.wbuf.content = []

instance (x : Exchange) (k : Nat) : Decidable (x.Settled k) := by
  unfold Exchange.Settled
  infer_instance

end Donkeyji.Xy3
