/-
Donkeyji.MyEvent.Evsignal — `evsignal_process` of my_event
(src/cs/my_event/signal.c), statement by statement.

The machine of `Event` lets a signal arrive between two events of a pass.
Here every statement of `evsignal_process` is a step, so that
`evsignal_handler` may run between any two of them; `Point` is the statement
that comes next, with the local variables that are in use. The rest of the
library goes on as before while `evsignal_process` is not running.

A counter of `evsigcaught` is a `sig_atomic_t`, which has 32 bits.

`passed` and `handled` are no data of the program: they add up the calls that
`event_active` was told of, and count the runs of the handler.
-/
import Donkeyji.Lib.Runs
import Donkeyji.MyEvent.Event

namespace Donkeyji.MyEvent

open Memory

/-! ## The statements -/

/-- The next statement of `evsignal_process`; `out` when it is not running. -/
inductive Point where
  | out
  | clearFlag
  | signalLoop (i : Nat)
  | readCaught (i : Nat)
  | testNcalls (i : Nat) (ncalls : Int)
  | firstEvent (i : Nat) (ncalls : Int)
  | eventLoop (i : Nat) (ncalls : Int) (ev : Option EventPtr)
  | nextEvent (i : Nat) (ncalls : Int) (ev : EventPtr)
  | testPersist (i : Nat) (ncalls : Int) (ev : EventPtr) (next : Option EventPtr)
  | delete (i : Nat) (ncalls : Int) (ev : EventPtr) (next : Option EventPtr)
  | activate (i : Nat) (ncalls : Int) (ev : EventPtr) (next : Option EventPtr)
  | clearCaught (i : Nat) (ncalls : Int)
deriving DecidableEq, Repr

/-- `base->sig.evsignal_caught = flag`. -/
def World.setCaught (w : World) (flag : Bool) : World :=
  { w with base := { w.base with sig := { w.base.sig with evsignalCaught := flag } } }

/-- `sig->evsigcaught[i] = n`. -/
def World.setCount (w : World) (i : Nat) (n : Int) : World :=
  { w with
    base := { w.base with
      sig := { w.base.sig with evsigcaught := Function.update w.base.sig.evsigcaught i n } } }

/-- One statement of `evsignal_process`. -/
def statement (w : World) (sys : Sys) : Point → Option (World × Point)
  | .out => none
  | .clearFlag => some (w.setCaught false, .signalLoop 1)
  | .signalLoop i => some (w, if i < NSIG then .readCaught i else .out)
  | .readCaught i => some (w, .testNcalls i (w.base.sig.evsigcaught i))
  | .testNcalls i ncalls =>
    some (w, if ncalls = 0 then .signalLoop (i + 1) else .firstEvent i ncalls)
  | .firstEvent i ncalls => some (w, .eventLoop i ncalls (w.base.sig.evsigevents i).tqhFirst)
  | .eventLoop i ncalls none => some (w, .clearCaught i ncalls)
  | .eventLoop i ncalls (some ev) => some (w, .nextEvent i ncalls ev)
  | .nextEvent i ncalls ev =>
    some (w, .testPersist i ncalls ev ((w.base.sig.evsigevents i).tqeNext ev))
  | .testPersist i ncalls ev next => do
    let e ← (w.event ev).toOption
    some (w, if hasBit e.evEvents Ev.persist then .activate i ncalls ev next
      else .delete i ncalls ev next)
  | .delete i ncalls ev next => do
    let (_, w) ← (eventDel w ev sys).toOption
    some (w, .activate i ncalls ev next)
  | .activate i ncalls ev next => do
    let w ← (eventActive w ev Ev.signal ncalls).toOption
    some (w, .eventLoop i ncalls next)
  | .clearCaught i _ => some (w.setCount i 0, .signalLoop (i + 1))

/-- `evsignal_handler`, with a counter of 32 bits. -/
def handlerRuns (w : World) (signal : Nat) : World :=
  let w := evsignalHandler w signal
  w.setCount signal (wrap32 (w.base.sig.evsigcaught signal))

/-! ## The machine -/

/-- The program, where `evsignal_process` stands, the calls that were passed on for every signal
and event, and how often the handler ran for every signal. -/
structure Catching where
  w : World
  point : Point
  passed : Nat → EventPtr → Int
  handled : Nat → Int

/-- The steps: `evsignal_process` is called, or goes on with its next statement; the handler runs;
and the other steps of the library and of the program. -/
inductive CatchAct where
  | call
  | statement (sys : Sys)
  | handler (signal : Nat)
  | elsewhere (a : Act)
deriving DecidableEq, Repr

/-- What the next statement tells `event_active`, which takes a `short`. -/
def Point.passes : Point → Option (Nat × EventPtr × Int)
  | .activate i ncalls ev _ => some (i, ev, wrap16 ncalls)
  | _ => none

/-- The calls that were passed on, with some more of them. -/
def addPassed (passed : Nat → EventPtr → Int) :
    Option (Nat × EventPtr × Int) → Nat → EventPtr → Int
  | none => passed
  | some (i, ev, n) =>
    Function.update passed i (Function.update (passed i) ev (passed i ev + n))

/-- Whether a step is none of `evsignal_process` or its handler, and adds no signal event. -/
def leavesSignals (w : World) : Act → Bool
  | .signal _ | .loopSignals => false
  | .eventAdd p _ _ =>
    match w.events p with
    | some e => !hasBit e.evEvents Ev.signal
    | none => true
  | .tick _ =>
    match w.frames with
    | .evsignalProcess _ _ :: _ => false
    | _ => true
  | _ => true

/-- A step. -/
def catchStep (s : Catching) : CatchAct → Option Catching
  | .call =>
    if s.point = .out ∧ s.w.loopRuns = true then some { s with point := .clearFlag } else none
  | .statement sys => do
    let (w, point) ← statement s.w sys s.point
    some { s with w, point, passed := addPassed s.passed s.point.passes }
  | .handler signal =>
    if 1 ≤ signal ∧ signal < NSIG then
      some { s with
        w := handlerRuns s.w signal
        handled := Function.update s.handled signal (s.handled signal + 1) }
    else
      none
  | .elsewhere a =>
    if s.point = .out ∧ leavesSignals s.w a = true then
      (next s.w a).map fun w => { s with w }
    else
      none

/-- Nothing was passed on yet, and the handler did not run. -/
def Catching.start (w : World) : Catching := ⟨w, .out, fun _ _ => 0, fun _ => 0⟩

end Donkeyji.MyEvent
