/-
Donkeyji.Xy3.MainLoop — `main_loop` of `cs/my_xy3/main_s.cpp`, with the
connections of the kernel.

The kernel's connections are numbered as `accept` returns them; `peer` says
which one a socket is. `waiting` is the queue, each event with the connection
whose socket it comes from, and `current` is the event that is being handled.
A turn of `main_loop` is the events of one `dispatch`, then `doRead`, then the
calls of `hook_send_s` that the script makes in `on_data`; the other handlers
do nothing. A socket is closed by the time `accept` returns its number again.
-/
import Donkeyji.Xy3.SendTheorems
import Donkeyji.Xy3.ServerTheorems

namespace Donkeyji.Xy3

/-- The server, the connections of its sockets, and what waits and is handled. -/
structure MainLoop where
  server : Server
  peer : Int → Nat
  accepted : Nat
  waiting : List (Event × Nat)
  current : Option (Event × Nat)

/-- What the loop does. -/
inductive LoopAct where
  | event (fuel : Nat) (r : Ready)
  | doRead
  | hookSendS (vfd : Int) (data : List UInt8)
deriving DecidableEq, Repr

/-- After `startUp`. -/
def MainLoop.start (listenSock : Int) (addOk : Bool) : MainLoop :=
  ⟨.startUp listenSock addOk, fun _ => 0, 0, [], none⟩

/-- The events that `server` has queued since, marked with a connection. -/
def MainLoop.queued (l : MainLoop) (server : Server) (k : Nat) : List (Event × Nat) :=
  (server.queue.drop l.server.queue.length).map fun e => (e, k)

/-- One step. -/
def loopStep (junk : Nat → UInt8) (l : MainLoop) : LoopAct → Option MainLoop
  | .event fuel r => do
    let server ← l.server.dispatchEvent junk fuel r
    if r.fd = l.server.listenSock ∧ 0 ≤ r.accepted then
      return {
        server
        peer := Function.update l.peer r.accepted l.accepted
        accepted := l.accepted + 1
        waiting := l.waiting ++ l.queued server l.accepted
        current := none }
    return { l with server, waiting := l.waiting ++ l.queued server (l.peer r.fd), current := none }
  | .doRead =>
    some { l with server := l.server.doRead, waiting := l.waiting.tail, current := l.waiting.head? }
  | .hookSendS vfd data => (l.server.doSend vfd data).map fun server => { l with server }

/-- The bytes that are queued for the client of a slot. -/
def Server.outgoing (s : Server) (pos : Nat) : List UInt8 :=
  ((s.clients[pos]?).getD none).elim [] fun c => c.wbuf.content

/-- A reply to the pack being handled is queued on the connection that the pack came from, or
nothing is queued. -/
def ReplyRight (junk : Nat → UInt8) (l : MainLoop) : LoopAct → Prop
  | .hookSendS vfd data => ∀ x ∈ l.current, x.1.event = .netData → vfd = x.1.hid →
      ∀ c ∈ (l.server.clients[x.1.hid]?).getD none, ∀ l' ∈ loopStep junk l (.hookSendS vfd data),
        l'.server.outgoing x.1.hid = l.server.outgoing x.1.hid ∨ l.peer c.sock = x.2
  | _ => True

/-- A payload finds room in a buffer. -/
def DataBuf.HasRoom (b : DataBuf) (data : List UInt8) : Prop :=
  (b.content.length : Int) + (2 + data.length) ≤ b.len

/-- No connection was given the slot of the pack being handled since the pack was queued. Otherwise
`doSend` takes nothing for the slot. -/
def ReplyGood (l : MainLoop) : LoopAct → Prop
  | .hookSendS vfd data => ∀ x ∈ l.current, x.1.event = .netData → vfd = x.1.hid →
      ∀ c ∈ (l.server.clients[x.1.hid]?).getD none, x.1.hid > 1024 ∨ ¬ c.wbuf.HasRoom data ∨
        ∀ e ∈ l.server.queue, ¬ (e.event = .netNew ∧ e.hid = x.1.hid)
  | _ => True

/-- `send` takes no more than it was offered. -/
def SendWithin (s : Server) (r : Ready) : Prop :=
  match r.send with
  | .ret n => ∀ pos ∈ s.fpos r.fd, ∀ c ∈ (s.clients[pos]?).getD none, (n : Int) ≤ c.wbuf.getDataSize
  | .fail _ => True

/-- The events are for registered sockets, the calls answer as the kernel does, and `marshal` has a
buffer of 100 bytes. -/
def LoopOk (l : MainLoop) : LoopAct → Prop
  | .event _ r => l.server.Registered r.fd ∧ l.server.AcceptFresh r ∧ SendWithin l.server r
  | .doRead => True
  | .hookSendS _ data => data.length ≤ 100

instance (b : DataBuf) (data : List UInt8) : Decidable (b.HasRoom data) := by
  unfold DataBuf.HasRoom
  infer_instance

instance (s : Server) (r : Ready) : Decidable (SendWithin s r) := by
  unfold SendWithin
  split <;> infer_instance

instance (l : MainLoop) (a : LoopAct) : Decidable (LoopOk l a) := by
  unfold LoopOk
  split <;> infer_instance

instance (junk : Nat → UInt8) (l : MainLoop) (a : LoopAct) : Decidable (ReplyRight junk l a) := by
  unfold ReplyRight
  split <;> infer_instance

instance (l : MainLoop) (a : LoopAct) : Decidable (ReplyGood l a) := by
  unfold ReplyGood
  split <;> infer_instance

end Donkeyji.Xy3
