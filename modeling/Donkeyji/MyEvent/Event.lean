/-
Donkeyji.MyEvent.Event — events, the event queues and the event loop of
my_event (src/cs/my_event/event.c, signal.c, and the parts of epoll.c that
call them).

A program runs as a machine whose state holds the event base, the events, and
the stack of library calls that are in progress: `event_base_loop`, which never
returns, `evsignal_process`, and `event_process_active`, which calls the
callbacks. Code of the program runs outside all calls and inside a callback;
it makes any calls in any order, so the calls are inputs of the machine, and
so is what the system answers: whether `epoll_ctl` and `sigaction` succeed,
which descriptors are reported and which signals are caught.

`ev_pncalls` points to the variable `ncalls` of a call of
`event_process_active`; the variable's address is part of the call. A write
through a pointer to a call that has returned zeroes the `ncalls` of the call
that has the address now, if there is one. A step that ends the program, or
that the program cannot make, gives a `Halt`.

Timeouts are inert in the source (`get_time`, `timeout_next` and
`timeout_process` are empty), so of `tv` only whether it is NULL matters.
-/
import Donkeyji.Lib.Memory
import Donkeyji.Lib.TailQueue
import Donkeyji.MyEvent.Epoll

namespace Donkeyji.MyEvent

open Memory

/-! ## Data -/

/-- `EV_TIMEOUT`. -/
def Ev.timeout : Nat := 0x01

/-- `EV_READ`. -/
def Ev.read : Nat := 0x02

/-- `EV_WRITE`. -/
def Ev.write : Nat := 0x04

/-- `EV_SIGNAL`. -/
def Ev.signal : Nat := 0x08

/-- `EV_PERSIST`. -/
def Ev.persist : Nat := 0x10

/-- `NSIG`. -/
def NSIG : Nat := 65

/-- `x & mask`, as a condition. -/
def hasBit (x mask : Nat) : Bool := x &&& mask != 0

/-- The bits of `ev_flags` that stand for a queue. -/
inductive Evlist where
  | inserted
  | active
  | timeout
deriving DecidableEq, Repr

/-- The queues of a base: `inserted_queue`, `active_queue[i]` and `timeout_queue`. -/
inductive QueueId where
  | inserted
  | active (i : Nat)
  | timeout
deriving DecidableEq, Repr

/-- `struct event`, without its links and its callback. -/
structure Event where
  evFd : Int
  evEvents : Nat
  evRes : Nat
  evFlags : Evlist → Bool
  evNcalls : Int
  evPncalls : Option Nat
  evPri : Nat

/-- The queue that the flag of the event stands for. -/
def Event.queueId (e : Event) : Evlist → QueueId
  | .inserted => .inserted
  | .active => .active e.evPri
  | .timeout => .timeout

/-- `struct evsignal_info`, with the signals whose action is `evsignal_handler`. -/
structure EvsignalInfo where
  evSignal : EventPtr
  evSignalAdded : Bool
  evsignalCaught : Bool
  evsigevents : Nat → TailQ EventPtr
  evsigcaught : Nat → Int
  handlers : Nat → Bool

/-- `struct event_base`. -/
structure EventBase where
  evbase : Epollop
  eventCount : Int
  eventCountActive : Int
  queues : QueueId → TailQ EventPtr
  nactiveQueues : Nat
  sig : EvsignalInfo

/-- The variables of `event_process_active`: the index of `activeq`, the address and the value
of `ncalls`, the event whose callback is being called, and whether it is running. -/
structure Draining where
  activeq : Nat
  addr : Nat
  ncalls : Int
  ev : Option EventPtr
  inCallback : Bool

/-- A call in progress. That of `evsignal_process` has the signal `i` and, in the inner loop,
the number of calls and the next event. -/
inductive Frame where
  | eventBaseLoop
  | evsignalProcess (i : Nat) (cur : Option (Int × Option EventPtr))
  | eventProcessActive (d : Draining)

/-- The state of the program; events that were not set yet are `none`, and the innermost call
comes first. -/
structure World where
  base : EventBase
  events : EventPtr → Option Event
  evsignalBase : Bool
  frames : List Frame

/-- What ends a run: `event_errx` in `event_queue_insert` or `event_queue_remove`, `event_errx`
in `evsignal_add`, a failed assertion, an access below the table of descriptors, and
`TAILQ_FIRST` of no queue. The last two are steps that no program makes: with an event that it
has not set or has set already, and while other code is running. -/
inductive Halt where
  | queueErrx
  | signalErrx
  | assertion
  | badFd
  | nullActiveq
  | notSet
  | notHere
deriving DecidableEq, Repr

/-- What the system answers, and the result of a function that returns nothing. -/
structure Sys where
  epollOk : Bool
  handlerOk : Bool
  garbage : Int
deriving DecidableEq, Repr

/-- The event at an address. -/
def World.event (w : World) (p : EventPtr) : Except Halt Event :=
  match w.events p with
  | none => .error .notSet
  | some e => .ok e

/-- Writes an event. -/
def World.setEvent (w : World) (p : EventPtr) (e : Event) : World :=
  { w with events := Function.update w.events p (some e) }

/-! ## Queues -/

/-- `event_queue_insert`. -/
def eventQueueInsert (w : World) (p : EventPtr) (queue : Evlist) : Except Halt World := do
  let e ← w.event p
  if e.evFlags queue then
    if queue = .active then .ok w else .error .queueErrx
  else
    let id := e.queueId queue
    let w := w.setEvent p { e with evFlags := Function.update e.evFlags queue true }
    .ok { w with
      base := { w.base with
        eventCount := w.base.eventCount + 1
        eventCountActive := w.base.eventCountActive + if queue = .active then 1 else 0
        queues := Function.update w.base.queues id ((w.base.queues id).insertTail p) } }

/-- `event_queue_remove`. -/
def eventQueueRemove (w : World) (p : EventPtr) (queue : Evlist) : Except Halt World := do
  let e ← w.event p
  if e.evFlags queue then
    let id := e.queueId queue
    let w := w.setEvent p { e with evFlags := Function.update e.evFlags queue false }
    .ok { w with
      base := { w.base with
        eventCount := w.base.eventCount - 1
        eventCountActive := w.base.eventCountActive - if queue = .active then 1 else 0
        queues := Function.update w.base.queues id ((w.base.queues id).remove p) } }
  else
    .error .queueErrx

/-- `if (ev->ev_flags & queue) event_queue_remove(base, ev, queue)`. -/
def removeIfOn (w : World) (p : EventPtr) (queue : Evlist) : Except Halt World := do
  let e ← w.event p
  if e.evFlags queue then eventQueueRemove w p queue else .ok w

/-- A zero stored in the variable `ncalls` at an address. -/
def Frame.clear (addr : Nat) : Frame → Frame
  | .eventProcessActive d => .eventProcessActive (if d.addr = addr then { d with ncalls := 0 } else d)
  | f => f

/-- `if (ev->ev_ncalls && ev->ev_pncalls) *ev->ev_pncalls = 0`. -/
def World.clearNcalls (w : World) (e : Event) : World :=
  match e.evPncalls with
  | none => w
  | some addr =>
    if e.evNcalls = 0 then w else { w with frames := w.frames.map (Frame.clear addr) }

/-! ## Adding -/

/-- The part of `epoll_add` for descriptors. -/
def epollAddFd (w : World) (p : EventPtr) (ok : Bool) : Except Halt (Int × World) := do
  let e ← w.event p
  if e.evFd < 0 then
    .error .badFd
  else
    let (res, eop) := epollAdd ok w.base.evbase
      ⟨p, e.evFd.toNat, hasBit e.evEvents Ev.read, hasBit e.evEvents Ev.write⟩
    .ok (res, { w with base := { w.base with evbase := eop } })

/-- The first half of `event_add`: the event is added to the backend and inserted. -/
def addInserted (add : World → Except Halt (Int × World)) (w : World) (p : EventPtr) :
    Except Halt (Int × World) := do
  let e ← w.event p
  if hasBit e.evEvents (Ev.read ||| Ev.write ||| Ev.signal) &&
      !(e.evFlags .inserted || e.evFlags .active) then
    let (res, w) ← add w
    if res ≠ -1 then
      let w ← eventQueueInsert w p .inserted
      .ok (res, w)
    else
      .ok (res, w)
  else
    .ok (0, w)

/-- The second half of `event_add`, for an event with a timeout. -/
def addTimeout (w : World) (p : EventPtr) : Except Halt World := do
  let w ← removeIfOn w p .timeout
  let e ← w.event p
  if e.evFlags .active && hasBit e.evRes Ev.timeout then
    let w ← eventQueueRemove (w.clearNcalls e) p .active
    eventQueueInsert w p .timeout
  else
    eventQueueInsert w p .timeout

/-- `event_add` with the given `evsel->add`. -/
def eventAddWith (add : World → Except Halt (Int × World)) (w : World) (p : EventPtr)
    (tv : Bool) : Except Halt (Int × World) := do
  let (res, w) ← addInserted add w p
  if res ≠ -1 && tv then
    let w ← addTimeout w p
    .ok (res, w)
  else
    .ok (res, w)

/-- What `evsignal_add` does for the first event of a signal. The internal event reads a
socket, so the `event_add` of it goes to the part of `epoll_add` for descriptors. -/
def evsignalFirst (w : World) (signal : Nat) (sys : Sys) : Except Halt (Int × World) :=
  if sys.handlerOk then
    let w := { w with
      evsignalBase := true
      base := { w.base with
        sig := { w.base.sig with
          handlers := Function.update w.base.sig.handlers signal true } } }
    if w.base.sig.evSignalAdded then
      .ok (0, w)
    else do
      let (res, w) ← eventAddWith (fun w => epollAddFd w w.base.sig.evSignal sys.epollOk) w
        w.base.sig.evSignal false
      if res ≠ 0 then
        .ok (-1, w)
      else
        .ok (0, { w with base := { w.base with sig := { w.base.sig with evSignalAdded := true } } })
  else
    .ok (-1, w)

/-- `evsignal_add`. -/
def evsignalAdd (w : World) (p : EventPtr) (sys : Sys) : Except Halt (Int × World) := do
  let e ← w.event p
  if hasBit e.evEvents (Ev.read ||| Ev.write) then
    .error .signalErrx
  else if 0 ≤ e.evFd ∧ e.evFd < NSIG then
    let signal := e.evFd.toNat
    let (res, w) ← (if (w.base.sig.evsigevents signal).tqhFirst = none then
      evsignalFirst w signal sys else .ok (0, w))
    if res = -1 then
      .ok (-1, w)
    else
      let queue := (w.base.sig.evsigevents signal).insertTail p
      .ok (0, { w with
        base := { w.base with
          sig := { w.base.sig with
            evsigevents := Function.update w.base.sig.evsigevents signal queue } } })
  else
    .error .assertion

/-- `epoll_add`. -/
def evselAdd (w : World) (p : EventPtr) (sys : Sys) : Except Halt (Int × World) := do
  let e ← w.event p
  if hasBit e.evEvents Ev.signal then evsignalAdd w p sys else epollAddFd w p sys.epollOk

/-- `event_add`. -/
def eventAdd (w : World) (p : EventPtr) (tv : Bool) (sys : Sys) : Except Halt (Int × World) :=
  eventAddWith (fun w => evselAdd w p sys) w p tv

/-! ## Deleting and activating -/

/-- `epoll_del`; `evsignal_del` is empty. -/
def evselDel (w : World) (p : EventPtr) (sys : Sys) : Except Halt (Int × World) := do
  let e ← w.event p
  if hasBit e.evEvents Ev.signal then
    .ok (sys.garbage, w)
  else if e.evFd < 0 then
    .error .badFd
  else
    let (res, eop) := epollDel sys.epollOk w.base.evbase
      ⟨p, e.evFd.toNat, hasBit e.evEvents Ev.read, hasBit e.evEvents Ev.write⟩
    .ok (res, { w with base := { w.base with evbase := eop } })

/-- `event_del`. -/
def eventDel (w : World) (p : EventPtr) (sys : Sys) : Except Halt (Int × World) := do
  let e ← w.event p
  let w ← removeIfOn (w.clearNcalls e) p .timeout
  let w ← removeIfOn w p .active
  let e ← w.event p
  if e.evFlags .inserted then
    let w ← eventQueueRemove w p .inserted
    evselDel w p sys
  else
    .ok (0, w)

/-- `event_active`. -/
def eventActive (w : World) (p : EventPtr) (res : Nat) (ncalls : Int) : Except Halt World := do
  let e ← w.event p
  if e.evFlags .active then
    .ok (w.setEvent p { e with evRes := e.evRes ||| res })
  else
    eventQueueInsert
      (w.setEvent p { e with evRes := res, evNcalls := wrap16 ncalls, evPncalls := none }) p .active

/-- `event_set`. -/
def eventSet (w : World) (p : EventPtr) (fd : Int) (events : Nat) : Except Halt World :=
  match w.events p with
  | some _ => .error .notSet
  | none => .ok (w.setEvent p ⟨fd, events, 0, fun _ => false, 0, none, w.base.nactiveQueues / 2⟩)

/-! ## The loops -/

/-- The first active queue that is not empty. -/
def EventBase.firstActive (base : EventBase) : Option Nat :=
  (List.range base.nactiveQueues).find? fun i => (base.queues (.active i)).tqhFirst.isSome

/-- The address of the variable `ncalls` of a call. -/
def Frame.addr? : Frame → Option Nat
  | .eventProcessActive d => some d.addr
  | _ => none

/-- `event_process_active` is entered, with its `ncalls` at an address that is not in use. -/
def enterProcessActive (w : World) (addr : Nat) : Except Halt World :=
  if some addr ∈ w.frames.map Frame.addr? then
    .error .notHere
  else
    match w.base.firstActive with
    | none => .error .nullActiveq
    | some i =>
      .ok { w with frames := .eventProcessActive ⟨i, addr, 0, none, false⟩ :: w.frames }

/-- The next event of the active queue is taken. -/
def takeActive (w : World) (d : Draining) (p : EventPtr) (sys : Sys) : Except Halt World := do
  let e ← w.event p
  let w ← (if hasBit e.evEvents Ev.persist then eventQueueRemove w p .active
    else (eventDel w p sys).map Prod.snd)
  let e ← w.event p
  let w := w.setEvent p { e with evPncalls := some d.addr }
  .ok { w with
    frames := .eventProcessActive { d with ncalls := e.evNcalls, ev := some p } :: w.frames.tail }

/-- `event_process_active` goes on: with the next event, with the next call of the callback, or
by returning. -/
def processActiveTick (w : World) (d : Draining) (rest : List Frame) (sys : Sys) :
    Except Halt World :=
  match d.ev with
  | none =>
    match (w.base.queues (.active d.activeq)).tqhFirst with
    | none => .ok { w with frames := rest }
    | some p => takeActive w d p sys
  | some p =>
    if d.ncalls = 0 then
      .ok { w with frames := .eventProcessActive { d with ev := none } :: rest }
    else do
      let e ← w.event p
      let ncalls := wrap16 (d.ncalls - 1)
      let w := w.setEvent p { e with evNcalls := ncalls }
      .ok { w with
        frames := .eventProcessActive { d with ncalls := ncalls, inCallback := true } :: rest }

/-- `evsignal_process` goes on: with the next signal, with the next event of the signal, or by
returning. -/
def evsignalProcessTick (w : World) (i : Nat) (cur : Option (Int × Option EventPtr))
    (rest : List Frame) (sys : Sys) : Except Halt World :=
  match cur with
  | none =>
    if NSIG ≤ i then
      .ok { w with frames := rest }
    else if w.base.sig.evsigcaught i = 0 then
      .ok { w with frames := .evsignalProcess (i + 1) none :: rest }
    else
      .ok { w with
        frames := .evsignalProcess i
          (some (w.base.sig.evsigcaught i, (w.base.sig.evsigevents i).tqhFirst)) :: rest }
  | some (_, none) =>
    .ok { w with
      base := { w.base with
        sig := { w.base.sig with evsigcaught := Function.update w.base.sig.evsigcaught i 0 } }
      frames := .evsignalProcess (i + 1) none :: rest }
  | some (ncalls, some p) => do
    let next := (w.base.sig.evsigevents i).tqeNext p
    let e ← w.event p
    let w ← (if hasBit e.evEvents Ev.persist then .ok w else (eventDel w p sys).map Prod.snd)
    let w ← eventActive w p Ev.signal ncalls
    .ok { w with frames := .evsignalProcess i (some (ncalls, next)) :: w.frames.tail }

/-- An event that `epoll_dispatch` may have found in the table. -/
def activeIf (w : World) (ev : Option EventPtr) (res : Nat) : Except Halt World :=
  match ev with
  | none => .ok w
  | some p => eventActive w p res 1

/-- The loop body of `epoll_dispatch` for one reported descriptor. -/
def dispatchReport (w : World) (fd : Nat) (hupErr epollin epollout : Bool) :
    Except Halt World := do
  let evep := w.base.evbase.fds fd
  let w ← activeIf w (if hupErr || epollin then evep.evread else none) Ev.read
  activeIf w (if hupErr || epollout then evep.evwrite else none) Ev.write

/-- `evsignal_handler`. -/
def evsignalHandler (w : World) (signal : Nat) : World :=
  if w.evsignalBase then
    { w with
      base := { w.base with
        sig := { w.base.sig with
          evsigcaught := Function.update w.base.sig.evsigcaught signal
            (w.base.sig.evsigcaught signal + 1)
          evsignalCaught := true } } }
  else
    w

/-- `event_base_loop` is entered. -/
def enterBaseLoop (w : World) : World :=
  { w with
    evsignalBase := w.base.sig.evSignalAdded || w.evsignalBase
    frames := .eventBaseLoop :: w.frames }

/-- `evsignal_process` is entered. -/
def enterEvsignalProcess (w : World) : World :=
  { w with
    base := { w.base with sig := { w.base.sig with evsignalCaught := false } }
    frames := .evsignalProcess 1 none :: w.frames }

/-! ## The machine -/

/-- The steps: the calls that the program makes, with the answers of the system; the end of a
callback; a signal; and the steps of the library. -/
inductive Act where
  | eventSet (p : EventPtr) (fd : Int) (events : Nat)
  | eventAdd (p : EventPtr) (tv : Bool) (sys : Sys)
  | eventDel (p : EventPtr) (sys : Sys)
  | eventActive (p : EventPtr) (res : Nat) (ncalls : Int)
  | eventProcessActive (addr : Nat)
  | eventBaseLoop
  | callbackReturns
  | signal (signal : Nat)
  | loopSignals
  | loopReport (fd : Nat) (hupErr epollin epollout : Bool)
  | loopProcessActive (addr : Nat)
  | tick (sys : Sys)
deriving DecidableEq, Repr

/-- Whether code of the program runs. -/
def World.programRuns (w : World) : Bool :=
  match w.frames with
  | [] => true
  | .eventProcessActive d :: _ => d.inCallback
  | _ => false

/-- Whether `event_base_loop` runs. -/
def World.loopRuns (w : World) : Bool :=
  match w.frames with
  | .eventBaseLoop :: _ => true
  | _ => false

/-- A step that is only possible under a condition. -/
def onlyIf (b : Bool) (x : Except Halt World) : Except Halt World :=
  if b then x else .error .notHere

/-- The body of `event_base_loop` after the dispatch. -/
def loopProcessActive (w : World) (addr : Nat) : Except Halt World :=
  if w.base.eventCountActive ≠ 0 then enterProcessActive w addr else .ok w

/-- The library code of the innermost call goes on. -/
def tick (w : World) (sys : Sys) : Except Halt World :=
  match w.frames with
  | .evsignalProcess i cur :: rest => evsignalProcessTick w i cur rest sys
  | .eventProcessActive d :: rest => onlyIf (!d.inCallback) (processActiveTick w d rest sys)
  | _ => .error .notHere

/-- The callback returns. -/
def callbackReturns (w : World) : Except Halt World :=
  match w.frames with
  | .eventProcessActive d :: rest =>
    onlyIf d.inCallback
      (.ok { w with frames := .eventProcessActive { d with inCallback := false } :: rest })
  | _ => .error .notHere

/-- A step. -/
def step (w : World) : Act → Except Halt World
  | .eventSet p fd events => onlyIf w.programRuns (eventSet w p fd events)
  | .eventAdd p tv sys => onlyIf w.programRuns ((eventAdd w p tv sys).map Prod.snd)
  | .eventDel p sys => onlyIf w.programRuns ((eventDel w p sys).map Prod.snd)
  | .eventActive p res ncalls => onlyIf w.programRuns (eventActive w p res ncalls)
  | .eventProcessActive addr => onlyIf w.programRuns (enterProcessActive w addr)
  | .eventBaseLoop => onlyIf w.programRuns (.ok (enterBaseLoop w))
  | .callbackReturns => callbackReturns w
  | .signal signal => onlyIf (w.base.sig.handlers signal) (.ok (evsignalHandler w signal))
  | .loopSignals => onlyIf w.loopRuns (.ok (enterEvsignalProcess w))
  | .loopReport fd hupErr epollin epollout =>
    onlyIf w.loopRuns (dispatchReport w fd hupErr epollin epollout)
  | .loopProcessActive addr => onlyIf w.loopRuns (loopProcessActive w addr)
  | .tick sys => tick w sys

/-- A step of a run. -/
def next (w : World) (a : Act) : Option World := (step w a).toOption

/-- `event_init`, on whatever was in memory: `fd` is the socket that the internal event of
`evsignal_init` reads. -/
def eventInit (raw : World) (fd : Nat) : World where
  base := {
    evbase := ⟨raw.base.evbase.nfds, fun _ => ⟨none, none⟩, fun _ => none⟩
    eventCount := 0
    eventCountActive := 0
    queues := fun id => (raw.base.queues id).init
    nactiveQueues := 1
    sig := {
      evSignal := raw.base.sig.evSignal
      evSignalAdded := false
      evsignalCaught := false
      evsigevents := fun i => (raw.base.sig.evsigevents i).init
      evsigcaught := fun _ => 0
      handlers := fun _ => false } }
  events := Function.update (fun _ => none) raw.base.sig.evSignal
    (some ⟨fd, Ev.read ||| Ev.persist, 0, fun _ => false, 0, none, 0⟩)
  evsignalBase := false
  frames := []

end Donkeyji.MyEvent
