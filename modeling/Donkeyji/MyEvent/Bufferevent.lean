/-
Donkeyji.MyEvent.Bufferevent — the reading side of a bufferevent and its
watermarks (src/cs/my_event/evbuffer.c).

`ev_read` is here only the fact that it is registered: `bufferevent_add`
registers it (the `event_add` is taken to succeed) and `event_del` takes it
off. `event_process_active` does the `event_del` before it calls
`bufferevent_readcb`, which is called only for a registered event. The
callback of the input buffer is NULL or `bufferevent_read_pressure_cb`; that
`evbuffer_setcb` does nothing is kept as it is. The callbacks of the user are
left out: they are called last, so what they do with the bufferevent are
further steps.
-/
import Donkeyji.MyEvent.Evbuffer
import Donkeyji.MyEvent.Event

namespace Donkeyji.MyEvent

open Memory

/-- `EVBUFFER_READ`. -/
def EvbufferWhat.read : Nat := 0x01

/-- `EVBUFFER_EOF`. -/
def EvbufferWhat.eof : Nat := 0x10

/-- `EVBUFFER_ERROR`. -/
def EvbufferWhat.error : Nat := 0x20

/-- `EVBUFFER_TIMEOUT`. -/
def EvbufferWhat.timeout : Nat := 0x40

/-- `struct event_watermark`. -/
structure EventWatermark where
  low : UInt64
  high : UInt64
deriving DecidableEq, Repr

/-- `struct bufferevent`: `inputCb` says that the `cb` of the input is
`bufferevent_read_pressure_cb`, and `evRead` that `ev_read` is registered. -/
structure Bufferevent where
  evRead : Bool
  input : Evbuffer
  inputCb : Bool
  wmRead : EventWatermark
  wmWrite : EventWatermark
  enabled : Nat
deriving DecidableEq, Repr

/-- `evbuffer_setcb` on the input: an empty body. -/
def evbufferSetcb (bufev : Bufferevent) (_cb : Bool) : Bufferevent := bufev

/-- `bufferevent_read_pressure_cb`. -/
def buffereventReadPressureCb (bufev : Bufferevent) (now : Nat) : Bufferevent :=
  if bufev.wmRead.high = 0 ∨ now < bufev.wmRead.high.toNat then
    let bufev := evbufferSetcb bufev false
    if hasBit bufev.enabled Ev.read then { bufev with evRead := true } else bufev
  else
    bufev

/-- The input changes from `oldoff` bytes: its callback is called, if it has one. -/
def evbufferChanged (bufev : Bufferevent) (oldoff : Nat) : Bufferevent :=
  if bufev.input.off ≠ oldoff ∧ bufev.inputCb then
    buffereventReadPressureCb bufev bufev.input.off
  else
    bufev

/-- `evbuffer_drain` on the input. -/
def inputDrain (bufev : Bufferevent) (len : Nat) : Bufferevent :=
  evbufferChanged { bufev with input := evbufferDrain bufev.input len } bufev.input.off

/-- What the system does in a call of `bufferevent_readcb`; `again` is an
`errno` of EAGAIN or EINTR. -/
structure RecvIo where
  pending : Option Nat
  realloc : Option (Nat → UInt8)
  found : Option (List UInt8)
  again : Bool

/-- How `bufferevent_readcb` ends: it returns at once, it calls the read
callback, it registers the event for another try, or it calls the error
callback. -/
inductive ReadEnd where
  | idle
  | readcb
  | reschedule
  | errorcb (what : Nat)
deriving DecidableEq, Repr

/-- How many bytes `bufferevent_readcb` asks for; the difference is one of
`size_t`, kept in an `int`. -/
def Bufferevent.howmuch (bufev : Bufferevent) : Int :=
  if bufev.wmRead.high ≠ 0 then wrap32 (toU64 (bufev.wmRead.high.toNat - bufev.input.off)) else -1

/-- The end of `bufferevent_readcb`, after bytes were received. -/
def readcbDone (bufev : Bufferevent) : ReadEnd × Bufferevent :=
  let bufev := { bufev with evRead := true }
  let len := bufev.input.off
  if bufev.wmRead.low ≠ 0 ∧ len < bufev.wmRead.low.toNat then
    (.idle, bufev)
  else if bufev.wmRead.high ≠ 0 ∧ bufev.wmWrite.high.toNat ≤ len then
    (.readcb, evbufferSetcb { bufev with evRead := false } true)
  else
    (.readcb, bufev)

/-- `bufferevent_readcb`. -/
def buffereventReadcb (bufev : Bufferevent) (event : Nat) (io : RecvIo) :
    Option (ReadEnd × Bufferevent) :=
  if event = Ev.timeout then
    some (.errorcb (EvbufferWhat.read ||| EvbufferWhat.timeout), bufev)
  else if bufev.wmRead.high ≠ 0 ∧ bufev.howmuch ≤ 0 then
    some (.idle, evbufferSetcb { bufev with evRead := false } true)
  else
    (evbufferRead bufev.input io.pending bufev.howmuch io.realloc io.found).map fun (res, input) =>
      let next := { bufev with input := input }
      if res = -1 then
        if io.again then
          (.reschedule, { next with evRead := true })
        else
          (.errorcb (EvbufferWhat.read ||| EvbufferWhat.error), next)
      else if res = 0 then
        (.errorcb (EvbufferWhat.read ||| EvbufferWhat.eof), next)
      else
        readcbDone (evbufferChanged next bufev.input.off)

/-- `bufferevent_setwatermark`. -/
def buffereventSetwatermark (bufev : Bufferevent) (events : Nat) (lowmark highmark : UInt64) :
    Bufferevent :=
  let bufev :=
    if hasBit events Ev.read then { bufev with wmRead := ⟨lowmark, highmark⟩ } else bufev
  let bufev :=
    if hasBit events Ev.write then { bufev with wmWrite := ⟨lowmark, highmark⟩ } else bufev
  buffereventReadPressureCb bufev bufev.input.off

/-- `bufferevent_new`; `calloc` zeroes the marks. -/
def buffereventNew : Bufferevent where
  evRead := false
  input := evbufferNew
  inputCb := false
  wmRead := ⟨0, 0⟩
  wmWrite := ⟨0, 0⟩
  enabled := Ev.write

/-- `bufferevent_enable`. -/
def buffereventEnable (bufev : Bufferevent) (event : Nat) : Bufferevent :=
  { bufev with
    evRead := if hasBit event Ev.read then true else bufev.evRead
    enabled := bufev.enabled ||| event }

/-- What is done with an enabled bufferevent. -/
inductive BuffereventCall where
  | setwatermark (events : Nat) (lowmark highmark : UInt64)
  | readcb (event : Nat) (io : RecvIo)
  | drain (len : Nat)

/-- A step of a run. A call of `bufferevent_readcb` that ends in the error
callback or in another try is none. -/
def buffereventStep (bufev : Bufferevent) : BuffereventCall → Option Bufferevent
  | .setwatermark events lowmark highmark =>
    some (buffereventSetwatermark bufev events lowmark highmark)
  | .readcb event io =>
    if bufev.evRead then
      match buffereventReadcb { bufev with evRead := false } event io with
      | some (.idle, bufev) => some bufev
      | some (.readcb, bufev) => some bufev
      | _ => none
    else
      none
  | .drain len => some (inputDrain bufev len)

end Donkeyji.MyEvent
