/-
Donkeyji.MyEvent.EventRunTheorems — the queues agree with the flags and the
counters in every run.

One lemma for each step of the machine, from the lemmas about the functions
it is made of; `event_queues_booked` puts them together. That
`event_process_active` finds something to do rests on the guard of
`event_base_loop` and on the counter being exact.
-/
import Donkeyji.Lib.Runs
import Donkeyji.MyEvent.EventQueueTheorems

namespace Donkeyji.MyEvent

open Runs Outcome

/-! ## The steps -/

/-- A change of the calls in progress. -/
theorem Inv.frames {w : World} (hinv : Inv w) (frames : List Frame) :
    Inv { w with frames := frames } :=
  hinv.sameBook ⟨rfl, rfl, rfl, rfl, rfl, fun _ => rfl⟩

/-- `event_set` of an event that was not set puts it on no queue. -/
theorem eventSet_inv {w : World} (hinv : Inv w) (p : EventPtr) (fd : Int) (events : Nat) :
    Ends Unbooked Inv (eventSet w p fd events) := by
  unfold eventSet
  split
  · simp [Unbooked]
  · rename_i hnone
    obtain ⟨lists, hb⟩ := hinv.booked
    refine ⟨⟨lists, hb.queues, ?_, hb.count, hb.countActive⟩, hinv.queue, ?_, ?_⟩
    · intro id p'
      rw [hb.member id p']
      by_cases hp : p' = p
      · subst hp
        simp [World.setEvent, hnone]
      · simp [World.setEvent, hp]
    · intro p' e' he'
      by_cases hp : p' = p
      · subst hp
        simp only [World.setEvent, Function.update_self, Option.some.injEq] at he'
        subst he'
        show w.base.nactiveQueues / 2 < w.base.nactiveQueues
        have := hinv.queue
        omega
      · simp only [World.setEvent, Function.update_of_ne hp] at he'
        exact hinv.pri p' e' he'
    · obtain ⟨es, hes, hsig⟩ := hinv.internal
      have hne : w.base.sig.evSignal ≠ p := by
        intro h
        rw [h, hnone] at hes
        cases hes
      exact ⟨es, by simp [World.setEvent, hne, hes], hsig⟩

/-- The first event of an active queue is active. -/
theorem Inv.activeFirst {w : World} (hinv : Inv w) {i : Nat} {p : EventPtr}
    (hfirst : (w.base.queues (.active i)).tqhFirst = some p) :
    ∃ e, w.events p = some e ∧ e.evFlags .active = true := by
  obtain ⟨lists, hb⟩ := hinv.booked
  rw [(hb.queues _).first] at hfirst
  obtain ⟨e, he, q, hq, hflag⟩ := (hb.member _ p).mp (List.mem_of_head? hfirst)
  cases q with
  | inserted => cases hq
  | active => exact ⟨e, he, hflag⟩
  | timeout => cases hq

/-- If no active queue has an event, none is counted. -/
theorem Inv.countActive_eq_zero {w : World} (hinv : Inv w) :
    w.base.firstActive = none ↔ w.base.eventCountActive = 0 := by
  obtain ⟨lists, hb⟩ := hinv.booked
  rw [hb.countActive, activeTotal_eq_zero, EventBase.firstActive, List.find?_eq_none]
  constructor
  · intro h i hi
    have hnone := h i (List.mem_range.mpr hi)
    rw [(hb.queues _).first] at hnone
    cases hl : lists (.active i) with
    | nil => rfl
    | cons a l => simp [hl] at hnone
  · intro h i hi
    rw [(hb.queues _).first, h i (List.mem_range.mp hi)]
    simp

/-- `event_process_active` finds a queue exactly if an event is counted. -/
theorem enterProcessActive_inv {w : World} (hinv : Inv w) (addr : Nat) :
    Ends (fun h => h = .queueErrx ∨ h = .nullActiveq ∧ w.base.eventCountActive ≠ 0) Inv
      (enterProcessActive w addr) := by
  unfold enterProcessActive
  split
  · simp
  · split
    · rename_i hnone
      simp [hinv.countActive_eq_zero.mp hnone]
    · exact hinv.frames _

theorem takeActive_inv {w : World} (hinv : Inv w) (d : Draining) {p : EventPtr}
    (hfirst : (w.base.queues (.active d.activeq)).tqhFirst = some p) (sys : Sys) :
    Ends Unbooked Inv (takeActive w d p sys) := by
  refine (event_inv w p).bind ?_
  intro e he
  have hremoved : Ends Unbooked Inv
      (if hasBit e.evEvents Ev.persist then eventQueueRemove w p .active
        else (eventDel w p sys).map Prod.snd) := by
    split
    · obtain ⟨e', he', hflag⟩ := hinv.activeFirst hfirst
      rw [he] at he'
      cases he'
      exact (eventQueueRemove_ends hinv he hflag).mono fun _ h => h.1
    · exact (eventDel_inv hinv p sys).map fun _ h => h
  refine hremoved.bind ?_
  intro w1 h1
  refine (event_inv w1 p).bind ?_
  intro e1 he1
  have h2 : Inv (w1.setEvent p { e1 with evPncalls := some d.addr }) :=
    h1.sameBook (sameBook_setEvent _ he1 rfl)
  exact h2.frames _

theorem processActiveTick_inv {w : World} (hinv : Inv w) (d : Draining) (rest : List Frame)
    (sys : Sys) : Ends Unbooked Inv (processActiveTick w d rest sys) := by
  unfold processActiveTick
  split
  · split
    · exact hinv.frames rest
    · rename_i p hfirst
      exact takeActive_inv hinv d hfirst sys
  · rename_i p _
    split
    · exact hinv.frames _
    · refine (event_inv w p).bind ?_
      intro e he
      have h1 : Inv (w.setEvent p { e with evNcalls := Memory.wrap16 (d.ncalls - 1) }) :=
        hinv.sameBook (sameBook_setEvent _ he rfl)
      exact h1.frames _

theorem evsignalProcessTick_inv {w : World} (hinv : Inv w) (i : Nat)
    (cur : Option (Int × Option EventPtr)) (rest : List Frame) (sys : Sys) :
    Ends Unbooked Inv (evsignalProcessTick w i cur rest sys) := by
  unfold evsignalProcessTick
  split
  · split
    · exact hinv.frames rest
    · split
      · exact hinv.frames _
      · exact hinv.frames _
  · exact hinv.sameBook ⟨rfl, rfl, rfl, rfl, rfl, fun _ => rfl⟩
  · rename_i ncalls p
    refine (event_inv w p).bind ?_
    intro e _
    have hdel : Ends Unbooked Inv
        (if hasBit e.evEvents Ev.persist then .ok w else (eventDel w p sys).map Prod.snd) := by
      split
      · exact hinv
      · exact (eventDel_inv hinv p sys).map fun _ h => h
    refine hdel.bind ?_
    intro w1 h1
    refine (eventActive_inv h1 p Ev.signal ncalls).bind ?_
    intro w2 h2
    exact h2.frames _

theorem activeIf_inv {w : World} (hinv : Inv w) (ev : Option EventPtr) (res : Nat) :
    Ends Unbooked Inv (activeIf w ev res) := by
  cases ev with
  | none => exact hinv
  | some p => exact eventActive_inv hinv p res 1

theorem dispatchReport_inv {w : World} (hinv : Inv w) (fd : Nat) (hupErr epollin epollout : Bool) :
    Ends Unbooked Inv (dispatchReport w fd hupErr epollin epollout) :=
  (activeIf_inv hinv _ Ev.read).bind fun _ h => activeIf_inv h _ Ev.write

theorem evsignalHandler_inv {w : World} (hinv : Inv w) (signal : Nat) :
    Inv (evsignalHandler w signal) := by
  unfold evsignalHandler
  split
  · exact hinv.sameBook ⟨rfl, rfl, rfl, rfl, rfl, fun _ => rfl⟩
  · exact hinv

/-- A guarded step. -/
theorem onlyIf_ends {bad : Halt → Prop} {Q : World → Prop} {b : Bool} {x : Except Halt World}
    (hbad : ¬ bad .notHere) (h : b = true → Ends bad Q x) : Ends bad Q (onlyIf b x) := by
  cases b with
  | false => exact hbad
  | true => exact h rfl

theorem not_unbooked_notHere : ¬ Unbooked .notHere := by simp [Unbooked]

/-- The body of `event_base_loop` enters `event_process_active` only if there is an event. -/
theorem loopProcessActive_inv {w : World} (hinv : Inv w) (addr : Nat) :
    Ends Unbooked Inv (loopProcessActive w addr) := by
  unfold loopProcessActive
  split
  · rename_i hcount
    have h := enterProcessActive_inv hinv addr
    cases hx : enterProcessActive w addr with
    | ok w' =>
      rw [hx] at h
      exact h
    | error e =>
      rw [hx] at h
      intro hbad
      cases hbad with
      | inl hbad => exact h (Or.inl hbad)
      | inr hbad => exact h (Or.inr ⟨hbad, hcount⟩)
  · exact hinv

theorem tick_inv {w : World} (hinv : Inv w) (sys : Sys) : Ends Unbooked Inv (tick w sys) := by
  unfold tick
  split
  · exact evsignalProcessTick_inv hinv _ _ _ sys
  · exact onlyIf_ends not_unbooked_notHere fun _ => processActiveTick_inv hinv _ _ sys
  · exact not_unbooked_notHere

theorem callbackReturns_inv {w : World} (hinv : Inv w) :
    Ends Unbooked Inv (callbackReturns w) := by
  unfold callbackReturns
  split
  · exact onlyIf_ends not_unbooked_notHere fun _ => hinv.frames _
  · exact not_unbooked_notHere

/-- What a step must not stop with. Only the program itself can enter `event_process_active`
while there is nothing to process. -/
def BadStop (w : World) (a : Act) (h : Halt) : Prop :=
  h = .queueErrx ∨
    h = .nullActiveq ∧ ¬ ((∃ addr, a = .eventProcessActive addr) ∧ w.base.eventCountActive = 0)

/-- **Every step keeps the account.** -/
theorem step_inv {w : World} (hinv : Inv w) (a : Act) : Ends (BadStop w a) Inv (step w a) := by
  have hhere : ¬ BadStop w a .notHere := by simp [BadStop]
  have himp : ∀ {x : Except Halt World}, Ends Unbooked Inv x → Ends (BadStop w a) Inv x := by
    intro x hx
    cases x with
    | ok w' => exact hx
    | error e => exact fun hbad => hx (hbad.imp id And.left)
  cases a with
  | eventSet p fd events => exact onlyIf_ends hhere fun _ => himp (eventSet_inv hinv p fd events)
  | eventAdd p tv sys =>
    exact onlyIf_ends hhere fun _ => himp ((eventAdd_inv hinv p tv sys).map fun _ h => h)
  | eventDel p sys =>
    exact onlyIf_ends hhere fun _ => himp ((eventDel_inv hinv p sys).map fun _ h => h)
  | eventActive p res ncalls =>
    exact onlyIf_ends hhere fun _ => himp (eventActive_inv hinv p res ncalls)
  | eventProcessActive addr =>
    refine onlyIf_ends hhere fun _ => ?_
    have h := enterProcessActive_inv hinv addr
    cases hx : enterProcessActive w addr with
    | ok w' =>
      rw [hx] at h
      exact h
    | error e =>
      rw [hx] at h
      intro hbad
      cases hbad with
      | inl hbad => exact h (Or.inl hbad)
      | inr hbad => exact h (Or.inr ⟨hbad.1, fun hz => hbad.2 ⟨⟨addr, rfl⟩, hz⟩⟩)
  | eventBaseLoop =>
    exact onlyIf_ends hhere fun _ => hinv.sameBook ⟨rfl, rfl, rfl, rfl, rfl, fun _ => rfl⟩
  | callbackReturns => exact himp (callbackReturns_inv hinv)
  | signal signal => exact onlyIf_ends hhere fun _ => evsignalHandler_inv hinv signal
  | loopSignals =>
    exact onlyIf_ends hhere fun _ => hinv.sameBook ⟨rfl, rfl, rfl, rfl, rfl, fun _ => rfl⟩
  | loopReport fd hupErr epollin epollout =>
    exact onlyIf_ends hhere fun _ => himp (dispatchReport_inv hinv fd hupErr epollin epollout)
  | loopProcessActive addr =>
    exact onlyIf_ends hhere fun _ => himp (loopProcessActive_inv hinv addr)
  | tick sys => exact himp (tick_inv hinv sys)

/-- The internal event reads a socket. -/
theorem internal_not_signal : hasBit (Ev.read ||| Ev.persist) Ev.signal = false := by decide

/-- `event_init` leaves the account right. -/
theorem eventInit_inv (raw : World) (fd : Nat) : Inv (eventInit raw fd) := by
  refine ⟨⟨fun _ => [], ?_, ?_, ?_, ?_⟩, by simp [eventInit], ?_, ?_⟩
  · exact fun id => TailQ.represents_init _
  · intro id p
    by_cases hp : p = raw.base.sig.evSignal
    · subst hp
      simp [eventInit]
    · simp [eventInit, hp]
  · simp [eventInit, total, activeTotal]
  · simp [eventInit, activeTotal]
  · intro p e he
    by_cases hp : p = raw.base.sig.evSignal
    · subst hp
      simp only [eventInit, Function.update_self, Option.some.injEq] at he
      subst he
      simp [eventInit]
    · simp [eventInit, hp] at he
  · refine ⟨⟨fd, Ev.read ||| Ev.persist, 0, fun _ => false, 0, none, 0⟩, ?_, internal_not_signal⟩
    simp [eventInit]

/-- A step of a run keeps the account. -/
theorem next_inv (w : World) (a : Act) (w' : World) (hinv : Inv w) (h : next w a = some w') :
    Inv w' := by
  unfold next at h
  cases hx : step w a with
  | error e => simp [hx, Except.toOption] at h
  | ok w1 =>
    rw [hx] at h
    cases h
    exact (step_inv hinv a).of_ok hx

end Donkeyji.MyEvent
