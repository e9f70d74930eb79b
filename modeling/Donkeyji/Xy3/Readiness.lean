/-
Donkeyji.Xy3.Readiness — the server with the kernel's side of its sockets.

A socket has the bytes that wait for `recv` and whether the peer's FIN stands
behind them; the listening socket has a number of connections that wait for
`accept`. Anything may arrive between the handling of two events. An arrival
that follows the handling of an event of its socket makes epoll report a new
one, so what counts is what is left at that point.
-/
import Donkeyji.Xy3.Server

namespace Donkeyji.Xy3

/-- What waits on a connection. -/
structure Pending where
  bytes : List UInt8
  fin : Bool
deriving DecidableEq, Repr

/-- Nothing waits. -/
def Pending.none : Pending := ⟨[], false⟩

/-- The server, what waits on each connection, and how many connections wait. -/
structure Wired where
  server : Server
  pending : Int → Pending
  backlog : Nat

/-- What happens: arrivals, the handling of one event by `dispatch`, and the other calls. -/
inductive NetAct where
  | arrive (fd : Int) (bytes : List UInt8)
  | finish (fd : Int)
  | connect
  | event (fuel : Nat) (r : Ready)
  | doRead
  | doSend (hid : Int) (data : List UInt8)
  | doBroadcast (data : List UInt8)
deriving DecidableEq, Repr

/-- The bytes that `recv` gives. -/
def RecvAnswer.bytes : RecvAnswer → List UInt8
  | .ret bytes => bytes
  | .fail _ => []

/-- `recv` answers as TCP does: some bytes from the front, at most the 1024 it was asked for; none
at the end of the stream; `EWOULDBLOCK` if nothing waits; another error at any time. -/
def RecvOk (p : Pending) : RecvAnswer → Prop
  | .ret [] => p = ⟨[], true⟩
  | .ret bytes => bytes <+: p.bytes ∧ bytes.length ≤ 1024
  | .fail .ewouldblock => p = .none
  | .fail _ => True

namespace Wired

/-- After `startUp` nothing waits. -/
def start (listenSock : Int) (addOk : Bool) : Wired :=
  ⟨.startUp listenSock addOk, fun _ => .none, 0⟩

/-- What the calls made for an event take. A failed `accept` takes no connection. -/
def take (w : Wired) (r : Ready) : Wired :=
  if r.fd = w.server.listenSock then
    if 0 ≤ r.accepted then
      { w with backlog := w.backlog - 1, pending := Function.update w.pending r.accepted .none }
    else w
  else
    let p := w.pending r.fd
    { w with
      pending := Function.update w.pending r.fd { p with bytes := p.bytes.drop r.recv.bytes.length } }

/-- The client of a socket. -/
def clientAt (w : Wired) (fd : Int) : Option Client :=
  (w.server.fpos fd).bind fun pos => (w.server.clients[pos]?).getD none

end Wired

/-- One step. -/
def netStep (junk : Nat → UInt8) (w : Wired) : NetAct → Option Wired
  | .arrive fd bytes =>
    let p := w.pending fd
    some { w with pending := Function.update w.pending fd { p with bytes := p.bytes ++ bytes } }
  | .finish fd =>
    some { w with pending := Function.update w.pending fd { w.pending fd with fin := true } }
  | .connect => some { w with backlog := w.backlog + 1 }
  | .event fuel r =>
    (w.server.dispatchEvent junk fuel r).map fun server => { w.take r with server }
  | .doRead => some { w with server := w.server.doRead }
  | .doSend hid data => (w.server.doSend hid data).map fun server => { w with server }
  | .doBroadcast data => (w.server.doBroadcast data).map fun server => { w with server }

/-- After the handling of an event nothing waits on its socket, or the connection is marked
closed. -/
def Drained (w : Wired) (r : Ready) : Prop :=
  if r.fd = w.server.listenSock then w.backlog = 0
  else w.pending r.fd = .none ∨ ∀ c ∈ w.clientAt r.fd, c.state = 0

instance (w : Wired) (r : Ready) : Decidable (Drained w r) := by
  unfold Drained
  infer_instance

/-- `recv` finds the connection closed. `EINPROGRESS` is an error for `recv`. -/
def RecvAnswer.closes : RecvAnswer → Bool
  | .ret [] => true
  | .ret (_ :: _) => false
  | .fail .eintr => false
  | .fail .ewouldblock => false
  | .fail _ => true

/-- `send` finds the connection closed. -/
def SendAnswer.closes : SendAnswer → Bool
  | .fail (.other _) => true
  | _ => false

/-- The connection is closed already, or one of the two calls finds it closed. There is no call of
`send` without something to send. -/
def Client.ClosedBy (c : Client) (r : Ready) : Prop :=
  c.state = 0 ∨ r.recv.closes = true ∨ c.wbuf.getDataSize ≠ 0 ∧ r.send.closes = true

instance (c : Client) (r : Ready) : Decidable (c.ClosedBy r) := by
  unfold Client.ClosedBy
  infer_instance

/-- One call of `accept` or `recv` takes all that waits, or the connection is marked closed. -/
def OneCallDrains (w : Wired) (r : Ready) : Prop :=
  if r.fd = w.server.listenSock then w.backlog = if 0 ≤ r.accepted then 1 else 0
  else w.pending r.fd = ⟨r.recv.bytes, false⟩ ∨ ∀ c ∈ w.clientAt r.fd, c.ClosedBy r

instance (w : Wired) (r : Ready) : Decidable (OneCallDrains w r) := by
  unfold OneCallDrains
  infer_instance

end Donkeyji.Xy3
