/-
Donkeyji.MyEvent.Outgoing — the writing side of a bufferevent
(src/cs/my_event/evbuffer.c).

As on the reading side, `ev_write` is only the fact that it is registered:
`bufferevent_add` registers it (the `event_add` is taken to succeed), and
`event_process_active` takes it off before it calls `bufferevent_writecb`. The
user's callbacks are left out: they are called last, so what they do with the
bufferevent are further steps. The one that frees it ends the run.
-/
import Donkeyji.MyEvent.Bufferevent

namespace Donkeyji.MyEvent

open Memory

/-- `EVBUFFER_WRITE`. -/
def EvbufferWhat.write : Nat := 0x02

/-- `struct bufferevent` without its reading side: `evWrite` says that `ev_write` is registered. -/
structure Outgoing where
  evWrite : Bool
  output : Evbuffer
  enabled : Nat
deriving DecidableEq, Repr

/-- What `send` does in a call of `bufferevent_writecb`: how many bytes it takes (`none` for -1),
and whether `errno` is EAGAIN, EINTR or EINPROGRESS. -/
structure SendIo where
  sent : Option Nat
  again : Bool
deriving DecidableEq, Repr

/-- How `bufferevent_writecb` ends: it calls the write callback, it only registers the event for
another try, or it calls the error callback. -/
inductive WriteEnd where
  | writecb
  | reschedule
  | errorcb (what : Nat)
deriving DecidableEq, Repr

/-- `ev_write` is registered again if bytes are left. -/
def Outgoing.rearm (bufev : Outgoing) : Outgoing :=
  if bufev.output.off ≠ 0 then { bufev with evWrite := true } else bufev

/-- `bufferevent_writecb`. -/
def buffereventWritecb (bufev : Outgoing) (event : Nat) (io : SendIo) :
    Option (WriteEnd × Outgoing) :=
  if event = Ev.timeout then
    some (.errorcb (EvbufferWhat.write ||| EvbufferWhat.timeout), bufev)
  else if bufev.output.off ≠ 0 then
    (evbufferWrite bufev.output io.sent).map fun (res, output) =>
      let bufev := { bufev with output := output }
      if res = -1 ∧ io.again then
        (.reschedule, bufev.rearm)
      else if res = 0 then
        (.errorcb (EvbufferWhat.write ||| EvbufferWhat.eof), bufev)
      else if res ≤ 0 then
        (.errorcb EvbufferWhat.write, bufev)
      else
        (.writecb, bufev.rearm)
  else
    some (.writecb, bufev.rearm)

/-- `bufferevent_write`. -/
def buffereventWrite (realloc : Option (Nat → UInt8)) (bufev : Outgoing) (data : List UInt8) :
    Option (Int × Outgoing) :=
  (evbufferAdd realloc bufev.output data).map fun (res, output) =>
    let bufev := { bufev with output := output }
    if res = -1 then
      (res, bufev)
    else if data.length > 0 ∧ hasBit bufev.enabled Ev.write then
      (res, { bufev with evWrite := true })
    else
      (res, bufev)

/-- `bufferevent_enable`. -/
def outgoingEnable (bufev : Outgoing) (event : Nat) : Outgoing :=
  { bufev with
    evWrite := if hasBit event Ev.write then true else bufev.evWrite
    enabled := bufev.enabled ||| event }

/-- What is done with a bufferevent that is written to. -/
inductive OutgoingAct where
  | write (realloc : Option (Nat → UInt8)) (data : List UInt8)
  | enable (event : Nat)
  | active (event : Nat) (io : SendIo)

/-- The bufferevent, the bytes that `bufferevent_write` has accepted, and the bytes that `send` has
taken. -/
structure OutgoingRun where
  bufev : Outgoing
  accepted : List UInt8
  sent : List UInt8
deriving DecidableEq, Repr

/-- `bufferevent_new`. -/
def outgoingNew : OutgoingRun := ⟨⟨false, evbufferNew, Ev.write⟩, [], []⟩

/-- The bytes that `send` takes in a call of `bufferevent_writecb`. -/
def Outgoing.taken (bufev : Outgoing) (event : Nat) (io : SendIo) : List UInt8 :=
  if event = Ev.timeout ∨ bufev.output.off = 0 then []
  else (slice bufev.output.block bufev.output.buffer bufev.output.off).take (io.sent.getD 0)

/-- A step of a run. Only a registered event becomes active. -/
def outgoingStep (s : OutgoingRun) : OutgoingAct → Option OutgoingRun
  | .write realloc data => do
    let (res, bufev) ← buffereventWrite realloc s.bufev data
    return { s with bufev, accepted := if res = -1 then s.accepted else s.accepted ++ data }
  | .enable event => some { s with bufev := outgoingEnable s.bufev event }
  | .active event io =>
    if s.bufev.evWrite then do
      let (_, bufev) ← buffereventWritecb { s.bufev with evWrite := false } event io
      return { s with bufev, sent := s.sent ++ s.bufev.taken event io }
    else
      some s

/-- `send` takes no more than it is offered, and not more than its `int` can say. -/
def OutgoingOk (s : OutgoingRun) : OutgoingAct → Prop
  | .active _ io => ∀ n ∈ io.sent, n ≤ s.bufev.output.off ∧ n < 2 ^ 31
  | _ => True

/-- As long as there are bytes to send, `ev_write` is registered. -/
def Outgoing.Waits (bufev : Outgoing) : Prop := bufev.output.off ≠ 0 → bufev.evWrite = true

/-- The write event fails: a timeout, a `send` that takes nothing, or an error. -/
def Fails (event : Nat) (io : SendIo) : Prop :=
  event = Ev.timeout ∨ io.sent = some 0 ∨ io.sent = none ∧ io.again = false

instance (event : Nat) (io : SendIo) : Decidable (Fails event io) := by
  unfold Fails
  infer_instance

/-- No event with bytes to send fails. -/
def NoFailure (s : OutgoingRun) : OutgoingAct → Prop
  | .active event io => s.bufev.evWrite = true → s.bufev.output.off ≠ 0 → ¬ Fails event io
  | _ => True

/-- An event that is no timeout becomes active, and `send` takes something. -/
def Progresses (s : OutgoingRun) : OutgoingAct → Prop
  | .active event io => event ≠ Ev.timeout ∧
      (s.bufev.output.off ≠ 0 → ∃ n ∈ io.sent, 0 < n ∧ n ≤ s.bufev.output.off ∧ n < 2 ^ 31)
  | _ => False

instance (s : OutgoingRun) (a : OutgoingAct) : Decidable (OutgoingOk s a) := by
  unfold OutgoingOk
  split <;> infer_instance

instance (s : OutgoingRun) (a : OutgoingAct) : Decidable (NoFailure s a) := by
  unfold NoFailure
  split <;> infer_instance

instance (s : OutgoingRun) (a : OutgoingAct) : Decidable (Progresses s a) := by
  unfold Progresses
  split <;> infer_instance

end Donkeyji.MyEvent
