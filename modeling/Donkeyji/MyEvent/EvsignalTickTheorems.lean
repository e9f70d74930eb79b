/-
Donkeyji.MyEvent.EvsignalTickTheorems — the two machines for
`evsignal_process` agree.

The machine of `Event` goes from one event of a signal to the next in one
step, with the call in progress on its stack. `tick_statements` says that such
a step is some statements of `Evsignal`, one after the other; the call itself is
one statement (`enter_statements`), and the handler does the same in both
(`handler_resumed`). The calls of `event_del` and `event_active` do not see the
frame of `evsignal_process` (`eventDel_under`, `eventActive_under`), as no
event points into it.
-/
import Donkeyji.MyEvent.EvsignalTheorems

namespace Donkeyji.MyEvent

open Outcome Runs Memory

/-- The program while a further call is in progress. -/
def World.under (f : Frame) (w : World) : World := { w with frames := f :: w.frames }

variable {f : Frame} {w v : World} {p : EventPtr}

/-! ## A call in progress -/

theorem eventQueueInsert_under (w : World) (queue : Evlist) :
    eventQueueInsert (w.under f) p queue = (eventQueueInsert w p queue).map (World.under f) := by
  refine bind_eq_map (x := w.event p) fun e => ?_
  dsimp only
  split
  · split <;> rfl
  · rfl

theorem eventQueueRemove_under (w : World) (queue : Evlist) :
    eventQueueRemove (w.under f) p queue = (eventQueueRemove w p queue).map (World.under f) := by
  refine bind_eq_map (x := w.event p) fun e => ?_
  dsimp only
  split <;> rfl

theorem removeIfOn_under (w : World) (queue : Evlist) :
    removeIfOn (w.under f) p queue = (removeIfOn w p queue).map (World.under f) := by
  refine bind_eq_map (x := w.event p) fun e => ?_
  split
  · exact eventQueueRemove_under w queue
  · rfl

theorem clearNcalls_under (hf : ∀ addr, f.clear addr = f) (w : World) (e : Event) :
    (w.under f).clearNcalls e = (w.clearNcalls e).under f := by
  unfold World.clearNcalls
  split
  · rfl
  · rename_i addr _
    split
    · rfl
    · simp [World.under, hf addr]

theorem evselDel_under (w : World) (sys : Sys) :
    evselDel (w.under f) p sys = (evselDel w p sys).map (Prod.map id (World.under f)) := by
  refine bind_eq_map (x := w.event p) fun e => ?_
  split
  · rfl
  · split <;> rfl

/-- `event_del` does not see a call that no event points into. -/
theorem eventDel_under (hf : ∀ addr, f.clear addr = f) (w : World) (sys : Sys) :
    eventDel (w.under f) p sys = (eventDel w p sys).map (Prod.map id (World.under f)) := by
  refine bind_eq_map (x := w.event p) fun e => ?_
  rw [clearNcalls_under hf, removeIfOn_under]
  refine map_bind_eq fun w2 => ?_
  rw [removeIfOn_under]
  refine map_bind_eq fun w3 => ?_
  refine bind_eq_map (x := w3.event p) fun e3 => ?_
  split
  · rw [eventQueueRemove_under]
    exact map_bind_eq fun w4 => evselDel_under w4 sys
  · rfl

/-- Nor does `event_active`. -/
theorem eventActive_under (w : World) (res : Nat) (ncalls : Int) :
    eventActive (w.under f) p res ncalls = (eventActive w p res ncalls).map (World.under f) := by
  refine bind_eq_map (x := w.event p) fun e => ?_
  split
  · rfl
  · exact eventQueueInsert_under (f := f) (p := p) (w.setEvent p
      { e with evRes := res, evNcalls := wrap16 ncalls, evPncalls := none }) .active

/-! ## The statements of a step -/

/-- The statement before which a call in progress stands. -/
def pointOf (i : Nat) : Option (Int × Option EventPtr) → Point
  | none => .signalLoop i
  | some (ncalls, ev) => .eventLoop i ncalls ev

/-- The program of the other machine, with the call on its stack. -/
def resumed (w : World) : Point → World
  | .signalLoop i => w.under (.evsignalProcess i none)
  | .eventLoop i ncalls ev => w.under (.evsignalProcess i (some (ncalls, ev)))
  | _ => w

/-- Some statements, one after the other. -/
def statements (sys : Sys) (k : Nat) (w : World) (pt : Point) : Option (World × Point) :=
  run (fun (s : World × Point) sys => statement s.1 sys s.2) (w, pt) (List.replicate k sys)

/-- What a pass does with one event. -/
def processed (w : World) (p : EventPtr) (ncalls : Int) (sys : Sys) : Except Halt World := do
  let e ← w.event p
  let w ← (if hasBit e.evEvents Ev.persist then .ok w else (eventDel w p sys).map Prod.snd)
  eventActive w p Ev.signal ncalls

/-- The step for one event, seen from the program without the call. -/
theorem tick_event (w : World) (p : EventPtr) (i : Nat) (ncalls : Int) (sys : Sys) :
    evsignalProcessTick (w.under (.evsignalProcess i (some (ncalls, some p)))) i
        (some (ncalls, some p)) w.frames sys =
      (processed w p ncalls sys).map
        (World.under (.evsignalProcess i (some (ncalls, (w.base.sig.evsigevents i).tqeNext p)))) := by
  refine bind_eq_map (x := w.event p) fun e => ?_
  have hdel : (if hasBit e.evEvents Ev.persist then
        .ok (w.under (.evsignalProcess i (some (ncalls, some p))))
      else (eventDel (w.under (.evsignalProcess i (some (ncalls, some p)))) p sys).map Prod.snd) =
      (if hasBit e.evEvents Ev.persist then Except.ok w
        else (eventDel w p sys).map Prod.snd).map
          (World.under (.evsignalProcess i (some (ncalls, some p)))) := by
    split
    · rfl
    · rw [eventDel_under fun _ => rfl]
      cases eventDel w p sys <;> rfl
  rw [hdel]
  refine map_bind_eq fun w1 => ?_
  rw [eventActive_under]
  cases eventActive w1 p Ev.signal ncalls <;> rfl

/-- The statements for one event: four for a persistent one, and five for another. -/
theorem event_statements {i : Nat} {ncalls : Int} {sys : Sys} {w' : World}
    (h : processed w p ncalls sys = .ok w') :
    ∃ k, statements sys k w (.eventLoop i ncalls (some p)) =
      some (w', .eventLoop i ncalls ((w.base.sig.evsigevents i).tqeNext p)) := by
  unfold processed at h
  cases he : w.event p with
  | error e =>
    rw [he] at h
    cases h
  | ok e =>
    rw [he] at h
    by_cases hpersist : hasBit e.evEvents Ev.persist = true
    · simp only [bind, Except.bind, if_pos hpersist] at h
      refine ⟨4, ?_⟩
      simp [statements, run, statement, he, hpersist, h, Except.toOption]
    · simp only [bind, Except.bind, if_neg hpersist] at h
      refine ⟨5, ?_⟩
      cases hdel : eventDel w p sys with
      | error e1 =>
        rw [hdel] at h
        cases h
      | ok r =>
        rw [hdel] at h
        have hact : eventActive r.2 p Ev.signal ncalls = .ok w' := h
        simp [statements, run, statement, he, hpersist, hdel, hact, Except.toOption]

/-- **A step of the machine of `Event` is some statements.** -/
theorem tick_statements {i : Nat} {cur : Option (Int × Option EventPtr)} {sys : Sys}
    (h : evsignalProcessTick (w.under (.evsignalProcess i cur)) i cur w.frames sys = .ok v) :
    ∃ k w' pt', statements sys k w (pointOf i cur) = some (w', pt') ∧ v = resumed w' pt' := by
  match cur with
  | none =>
    have hcaught : (w.under (.evsignalProcess i none)).base.sig.evsigcaught i =
        w.base.sig.evsigcaught i := rfl
    by_cases hi : NSIG ≤ i
    · rw [evsignalProcessTick, if_pos hi] at h
      cases h
      exact ⟨1, w, .out, by simp [statements, run, statement, Nat.not_lt.mpr hi, pointOf], rfl⟩
    · by_cases hzero : w.base.sig.evsigcaught i = 0
      · rw [evsignalProcessTick, if_neg hi, hcaught, if_pos hzero] at h
        cases h
        refine ⟨3, w, .signalLoop (i + 1), ?_, rfl⟩
        simp [statements, run, statement, Nat.not_le.mp hi, pointOf, hzero]
      · rw [evsignalProcessTick, if_neg hi, hcaught, if_neg hzero] at h
        cases h
        refine ⟨4, w, .eventLoop i (w.base.sig.evsigcaught i)
          (w.base.sig.evsigevents i).tqhFirst, ?_, rfl⟩
        simp [statements, run, statement, Nat.not_le.mp hi, pointOf, hzero]
  | some (ncalls, none) =>
    cases h
    exact ⟨2, w.setCount i 0, .signalLoop (i + 1), rfl, rfl⟩
  | some (ncalls, some p) =>
    rw [tick_event] at h
    cases hw' : processed w p ncalls sys with
    | error e =>
      rw [hw'] at h
      cases h
    | ok w' =>
      rw [hw'] at h
      cases h
      obtain ⟨k, hk⟩ := event_statements (i := i) hw'
      exact ⟨k, w', _, hk, rfl⟩

/-- The call of `evsignal_process` and its first statement. -/
theorem enter_statements (w : World) (sys : Sys) : ∃ w' pt',
    statements sys 1 w .clearFlag = some (w', pt') ∧ enterEvsignalProcess w = resumed w' pt' :=
  ⟨w.setCaught false, .signalLoop 1, rfl, rfl⟩

/-- The handler does the same in both machines while its counter has room. -/
theorem handler_resumed {signal : Nat} (hlow : 0 ≤ w.base.sig.evsigcaught signal)
    (hroom : w.base.sig.evsigcaught signal < 2147483647) (pt : Point) :
    evsignalHandler (resumed w pt) signal = resumed (handlerRuns w signal) pt := by
  have hunder : ∀ f, evsignalHandler (w.under f) signal = (evsignalHandler w signal).under f := by
    intro f
    unfold evsignalHandler
    by_cases hbase : w.evsignalBase = true
    · have hbase' : (w.under f).evsignalBase = true := hbase
      rw [if_pos hbase, if_pos hbase']
      rfl
    · have hbase' : ¬ (w.under f).evsignalBase = true := hbase
      rw [if_neg hbase, if_neg hbase']
  have hruns : handlerRuns w signal = evsignalHandler w signal := by
    have hwrap : wrap32 ((evsignalHandler w signal).base.sig.evsigcaught signal) =
        (evsignalHandler w signal).base.sig.evsigcaught signal := by
      unfold evsignalHandler wrap32
      split
      · simp only [Function.update_self]
        omega
      · omega
    simp [handlerRuns, World.setCount, hwrap]
  rw [hruns]
  cases pt with
  | signalLoop | eventLoop => exact hunder _
  | _ => rfl

end Donkeyji.MyEvent
