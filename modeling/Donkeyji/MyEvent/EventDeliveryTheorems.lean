/-
Donkeyji.MyEvent.EventDeliveryTheorems — an active event is called.

Between the moment an event is put on the active queue with calls to make and
the first of these calls it is `Due`: it is on the queue, or
`event_process_active` has taken it and makes the call next. A step that does
neither call it nor withdraw it keeps it so, whatever callbacks do to other
events, and however deep calls of the event loop are nested in each other.
-/
import Donkeyji.MyEvent.EventSilenceTheorems

namespace Donkeyji.MyEvent

open Runs Outcome Memory

/-! ## Waiting -/

/-- The event is active, and its callback is to be called. -/
def Waits (w : World) (p : EventPtr) : Prop :=
  ∃ e, w.events p = some e ∧ e.evFlags .active = true ∧ e.evNcalls ≠ 0

/-- `event_process_active` has taken the event and calls its callback next. -/
def CalledNext (w : World) (p : EventPtr) : Prop :=
  ∃ d rest, w.frames = .eventProcessActive d :: rest ∧ d.inCallback = false ∧ d.ev = some p ∧
    d.ncalls ≠ 0

/-- A call of the callback is to come. -/
def Due (w : World) (p : EventPtr) : Prop := Waits w p ∨ CalledNext w p

/-- `evsignal_process` deletes the event and activates it again, for this number of signals. -/
def renews (w : World) (p : EventPtr) : Act → Option Int
  | .tick _ =>
    match w.frames with
    | .evsignalProcess _ (some (n, some q)) :: _ =>
      if q = p ∧ (w.events p).any fun e => !hasBit e.evEvents Ev.persist then some n else none
    | _ => none
  | _ => none

/-- The step takes the event off the active queue without a call: `event_del`, `event_add` with a
timeout when the event is active because of one, and `evsignal_process` when it activates the event
again for a number of signals that is 0 as a `short`. -/
def withdraws (w : World) (p : EventPtr) : Act → Bool
  | .eventDel q _ => q = p
  | .eventAdd q tv _ => q = p && tv && (w.events p).any fun e => hasBit e.evRes Ev.timeout
  | a => (renews w p a).any fun n => wrap16 n = 0

variable {s p : EventPtr} {S : Nat → EventPtr → Prop} {w w' : World}

/-! ## Steps -/

theorem Waits.of_event (h : Waits w p) (heq : w'.events p = w.events p) : Waits w' p := by
  obtain ⟨e, he, hactive, hn⟩ := h
  exact ⟨e, heq.trans he, hactive, hn⟩

/-- `event_queue_insert` of an event in another queue. -/
theorem insert_waits (h : Waits w p) {queue : Evlist} (hq : queue ≠ .active) :
    Ends (fun _ => False) (Waits · p) (eventQueueInsert w p queue) := by
  obtain ⟨e, he, hactive, hn⟩ := h
  refine (event_ends w p).bind ?_
  intro e' he'
  cases he.symm.trans he'
  dsimp only
  split
  · exact fun h => h
  · refine ⟨_, Function.update_self _ _ _, ?_, hn⟩
    exact (Function.update_of_ne (Ne.symm hq) _ _).trans hactive

/-- `event_queue_remove` from the timeout queue. -/
theorem removeTimeout_waits (h : Waits w p) {e : Event} (he : w.events p = some e) :
    Ends (fun _ => False) (fun w' => Waits w' p ∧ ∀ e', w'.events p = some e' → e'.evRes = e.evRes)
      (removeIfOn w p .timeout) := by
  obtain ⟨e0, he0, hactive, hn⟩ := h
  cases he.symm.trans he0
  refine (event_ends w p).bind ?_
  intro e' he'
  cases he.symm.trans he'
  by_cases hon : e.evFlags .timeout = true
  · rw [if_pos hon]
    refine (event_ends w p).bind ?_
    intro e' he'
    cases he.symm.trans he'
    rw [if_pos hon]
    refine ⟨⟨{ e with evFlags := Function.update e.evFlags .timeout false },
      Function.update_self _ _ _, ?_, hn⟩, fun e' he' => ?_⟩
    · have hne : Evlist.active ≠ .timeout := by decide
      exact (Function.update_of_ne hne false e.evFlags).trans hactive
    · cases (Function.update_self _ _ _).symm.trans he'
      rfl
  · rw [if_neg hon]
    refine ⟨⟨e, he, hactive, hn⟩, fun e' he' => ?_⟩
    cases he.symm.trans he'
    rfl

/-- `event_add` of an active event writes to the timeout queue at most. -/
theorem eventAdd_waits (h : Waits w p) {tv : Bool} {sys : Sys}
    (hno : withdraws w p (.eventAdd p tv sys) = false) {J : World → Prop} (hJ : J w)
    (hremove : Ends (fun _ => False) J (removeIfOn w p .timeout))
    (hinsert : ∀ w, J w → Ends (fun _ => False) J (eventQueueInsert w p .timeout)) :
    Ends (fun _ => False) (fun r => Waits r.2 p ∧ J r.2) (eventAdd w p tv sys) := by
  obtain ⟨e, he, hactive, hn⟩ := h
  have hadd : addInserted (fun w => evselAdd w p sys) w p = .ok (0, w) := by
    simp [addInserted, World.event, he, hactive, bind, Except.bind]
  unfold eventAdd eventAddWith
  rw [hadd]
  cases tv with
  | false => exact ⟨⟨e, he, hactive, hn⟩, hJ⟩
  | true =>
    have htimeout : hasBit e.evRes Ev.timeout = false := by simpa [withdraws, he] using hno
    have hadded : Ends (fun _ => False) (fun w' => Waits w' p ∧ J w') (addTimeout w p) := by
      refine ((removeTimeout_waits ⟨e, he, hactive, hn⟩ he).and hremove).bind ?_
      intro w1 h1
      obtain ⟨⟨h1, hres⟩, hJ1⟩ := h1
      refine (event_ends w1 p).bind ?_
      intro e1 he1
      rw [hres e1 he1, htimeout, Bool.and_false]
      exact (insert_waits h1 (by decide)).and (hinsert w1 hJ1)
    exact hadded.bind fun w' h' => h'

/-- `event_active` of an active event. -/
theorem eventActive_waits (h : Waits w p) (res : Nat) (ncalls : Int) :
    Ends (fun _ => False) (Waits · p) (eventActive w p res ncalls) := by
  obtain ⟨e, he, hactive, hn⟩ := h
  refine (event_ends w p).bind ?_
  intro e' he'
  cases he.symm.trans he'
  rw [if_pos hactive]
  exact ⟨_, Function.update_self _ _ _, hactive, hn⟩

theorem activeIf_waits (h : Waits w p) (ev : Option EventPtr) (res : Nat) :
    Ends (fun _ => False) (Waits · p) (activeIf w ev res) := by
  cases ev with
  | none => exact h
  | some q =>
    by_cases hq : q = p
    · subst hq
      exact eventActive_waits h res 1
    · exact (eventActive_spares (P := (· = p)) hq w res 1).mono
        fun _ hs => h.of_event (hs.event p rfl)

/-- The event is taken from the active queue. -/
theorem takeActive_called (hl : Listed w p) (h : Waits w p) {d : Draining}
    (hd : d.inCallback = false) (sys : Sys) :
    Ends (fun _ => False) (CalledNext · p) (takeActive w d p sys) := by
  obtain ⟨e, he, -, hn⟩ := h
  refine (event_ends w p).bind ?_
  intro e' he'
  cases he.symm.trans he'
  have hremoved : Ends (fun _ => False) (Calm p w)
      (if hasBit e.evEvents Ev.persist then eventQueueRemove w p .active
        else (eventDel w p sys).map Prod.snd) := by
    split
    · exact (remove_steady w p .active (by decide)).mono fun _ h => h.calm
    · exact (eventDel_clears hl sys).map fun _ h => h.1
  refine hremoved.bind ?_
  intro w1 hcalm
  obtain ⟨e1, he1, hkept⟩ := hcalm e he
  refine (event_ends w1 p).bind ?_
  intro e2 he2
  cases he1.symm.trans he2
  exact ⟨_, _, rfl, hd, rfl, hkept.ncalls ▸ hn⟩

/-- `event_active` of an event that is not active. -/
theorem eventActive_waits_off (hoff : Off w p .active) {n : Int} (hn : wrap16 n ≠ 0) (res : Nat) :
    Ends (fun _ => False) (Waits · p) (eventActive w p res n) := by
  refine (event_ends w p).bind ?_
  intro e he
  rw [if_neg (by simp [hoff e he])]
  refine (event_ends _ p).bind ?_
  intro e' he'
  cases (Function.update_self _ _ _).symm.trans he'
  rw [if_neg (by simp [hoff e he])]
  refine ⟨{ e with
    evRes := res
    evNcalls := wrap16 n
    evPncalls := none
    evFlags := Function.update e.evFlags .active true }, Function.update_self _ _ _, ?_, hn⟩
  exact Function.update_self Evlist.active true e.evFlags

/-- `evsignal_process` comes to the event. -/
theorem evsignal_waits (hinv : Inv w) (h : Waits w p) {i : Nat} {n : Int} {rest : List Frame}
    (hn : (w.events p).any (fun e => !hasBit e.evEvents Ev.persist) = true → wrap16 n ≠ 0)
    (sys : Sys) :
    Ends (fun _ => False) (Waits · p) (evsignalProcessTick w i (some (n, some p)) rest sys) := by
  refine (event_ends w p).bind ?_
  intro e he
  have hremoved : Ends (fun _ => False)
      (fun w1 => Waits w1 p ∨ Off w1 p .active ∧ wrap16 n ≠ 0)
      (if hasBit e.evEvents Ev.persist then .ok w else (eventDel w p sys).map Prod.snd) := by
    split
    · exact .inl h
    · rename_i hpersist
      have hn' : wrap16 n ≠ 0 := hn (by simpa [he] using hpersist)
      exact (ends_of_both (eventDel_ends hinv p sys) (eventDel_spares (P := fun _ => False)
        (fun hf => hf) w sys)).map fun _ h => .inr ⟨h.1.2 .active, hn'⟩
  refine hremoved.bind ?_
  intro w1 h1
  have hactive : Ends (fun _ => False) (Waits · p) (eventActive w1 p Ev.signal n) := by
    rcases h1 with h1 | ⟨hoff, hn'⟩
    · exact eventActive_waits h1 Ev.signal n
    · exact eventActive_waits_off hoff hn' Ev.signal
  refine hactive.bind ?_
  exact fun w2 h2 => h2

/-- **A step** that does not call the event whose turn it is leaves it its turn. -/
theorem calledNext_step (h : CalledNext w p) {a : Act} (hsilent : invoked w a ≠ some p) :
    Ends (fun _ => False) (CalledNext · p) (step w a) := by
  have hnever : ¬ (fun _ : Halt => False) .notHere := fun h => h
  obtain ⟨d, rest, hframes, hcall, hev, hn⟩ := h
  -- the library runs, so that only a signal can come before the call
  have hprogram : w.programRuns = false := by rw [World.programRuns, hframes]; exact hcall
  have hloop : w.loopRuns = false := by rw [World.loopRuns, hframes]
  cases a with
  | signal signal =>
    refine onlyIf_ends hnever fun _ => ?_
    unfold evsignalHandler
    split
    · exact ⟨d, rest, hframes, hcall, hev, hn⟩
    · exact ⟨d, rest, hframes, hcall, hev, hn⟩
  | tick sys =>
    refine absurd ?_ hsilent
    simp [invoked, hframes, hcall, hn, hev]
  | callbackReturns => simp [step, callbackReturns, hframes, hcall, onlyIf]
  | eventSet q fd events => simp [step, hprogram, onlyIf]
  | eventAdd q tv sys => simp [step, hprogram, onlyIf]
  | eventDel q sys => simp [step, hprogram, onlyIf]
  | eventActive q res ncalls => simp [step, hprogram, onlyIf]
  | eventProcessActive addr => simp [step, hprogram, onlyIf]
  | eventBaseLoop => simp [step, hprogram, onlyIf]
  | loopSignals => simp [step, hloop, onlyIf]
  | loopReport fd hupErr epollin epollout => simp [step, hloop, onlyIf]
  | loopProcessActive addr => simp [step, hloop, onlyIf]

/-- **A step** that neither withdraws a due event nor calls it leaves it due. -/
theorem due_step (hs : Sound s S w) (hp : p ≠ s) (hl : Listed w p) (h : Due w p) {a : Act}
    (hno : withdraws w p a = false) (hsilent : invoked w a ≠ some p) :
    Ends (fun _ => False) (Due · p) (step w a) := by
  have hnever : ¬ (fun _ : Halt => False) .notHere := fun h => h
  have hp' : p ≠ w.base.sig.evSignal := by
    rw [hs.evSignal]
    exact hp
  rcases h with hwaits | hcalled
  · by_cases hcon : Concerns w p a
    · cases a with
      | eventSet q fd events =>
        obtain ⟨e, he, -⟩ := hwaits
        obtain rfl : q = p := hcon
        refine onlyIf_ends hnever fun _ => ?_
        simp [eventSet, he]
      | eventAdd q tv sys =>
        obtain rfl : q = p := hcon
        have hany : ∀ x : Except Halt World, Ends (fun _ => False) (fun _ => True) x :=
          fun x => by cases x <;> simp
        exact onlyIf_ends hnever fun _ => (eventAdd_waits hwaits hno trivial (hany _)
          fun _ _ => hany _).map fun _ h => .inl h.1
      | eventDel q sys =>
        obtain rfl : q = p := hcon
        simp [withdraws] at hno
      | eventActive q res ncalls =>
        obtain rfl : q = p := hcon
        exact onlyIf_ends hnever fun _ =>
          (eventActive_waits hwaits res ncalls).mono fun _ h => .inl h
      | loopReport fd hupErr epollin epollout =>
        refine onlyIf_ends hnever fun _ => ?_
        refine (activeIf_waits hwaits _ Ev.read).bind ?_
        intro w1 h1
        exact (activeIf_waits h1 _ Ev.write).mono fun _ h => .inl h
      | tick sys =>
        show Ends _ _ (tick w sys)
        unfold Concerns at hcon
        unfold tick
        split
        · rename_i i cur rest hframes
          rw [hframes] at hcon
          rcases cur with _ | ⟨n, a⟩
          · exact hcon.elim
          · obtain rfl : a = some p := hcon
            have hn : (w.events p).any (fun e => !hasBit e.evEvents Ev.persist) = true →
                wrap16 n ≠ 0 := fun hpersist => by
              simpa [withdraws, renews, hframes, hpersist] using hno
            exact (evsignal_waits hs.inv hwaits hn sys).mono fun _ h => .inl h
        · rename_i d rest hframes
          rw [hframes] at hcon
          refine onlyIf_ends hnever fun hcall => ?_
          have hcall' : d.inCallback = false := by simpa using hcall
          rcases hcon with ⟨hev, hfirst⟩ | ⟨hev, hn⟩
          · simp only [processActiveTick, hev, hfirst]
            exact (takeActive_called hl hwaits hcall' sys).mono fun _ h => .inr h
          · refine absurd ?_ hsilent
            simp [invoked, hframes, hcall', hn, hev]
        · exact hnever
      | eventProcessActive addr => exact hcon.elim
      | eventBaseLoop => exact hcon.elim
      | callbackReturns => exact hcon.elim
      | signal signal => exact hcon.elim
      | loopSignals => exact hcon.elim
      | loopProcessActive addr => exact hcon.elim
    · exact (step_leaves hp' hcon).mono fun _ hleaves => .inl (hwaits.of_event hleaves.event)
  · exact (calledNext_step hcalled hsilent).mono fun _ h => .inr h

/-! ## Runs -/

/-- The event is on the active queue of its priority. -/
def OnActiveQueue (w : World) (p : EventPtr) : Prop :=
  ∃ lists e, Booked w lists ∧ w.events p = some e ∧ p ∈ lists (.active e.evPri)

theorem Waits.onActiveQueue (h : Waits w p) (hinv : Inv w) : OnActiveQueue w p := by
  obtain ⟨lists, hb⟩ := hinv.booked
  obtain ⟨e, he, hactive, -⟩ := h
  exact ⟨lists, e, hb, he, (hb.member _ p).mpr ⟨e, he, .active, rfl, hactive⟩⟩

/-- What is true of a due event. -/
structure Pending (s p : EventPtr) (w : World) : Prop where
  sound : ∃ S, Sound s S w
  listed : Listed w p
  due : Due w p

theorem pending_next (hp : p ≠ s) (w : World) (a : Act) (w' : World) (h : Pending s p w)
    (hgood : withdraws w p a = false ∧ invoked w a ≠ some p) (hnext : next w a = some w') :
    Pending s p w' := by
  obtain ⟨S, hs⟩ := h.sound
  have hp' : p ≠ w.base.sig.evSignal := by
    rw [hs.evSignal]
    exact hp
  exact ⟨next_ends (step_sound hs a) hnext, next_ends (step_listed hp' h.listed a) hnext,
    next_ends (due_step hs hp h.listed h.due hgood.1 hgood.2) hnext⟩

/-- What is true in every run. -/
theorem reached_sound {raw : World} {fd : Nat} {acts : List Act} (hp : p ≠ raw.base.sig.evSignal)
    (hrun : run next (eventInit raw fd) acts = some w) :
    (∃ S, Sound raw.base.sig.evSignal S w) ∧ Listed w p := by
  have hstep : ∀ w a w', (∃ S, Sound raw.base.sig.evSignal S w) ∧ Listed w p →
      next w a = some w' → (∃ S, Sound raw.base.sig.evSignal S w') ∧ Listed w' p := by
    rintro w a w' ⟨⟨S, hs⟩, hl⟩ hnext
    have hp' : p ≠ w.base.sig.evSignal := by
      rw [hs.evSignal]
      exact hp
    exact ⟨next_ends (step_sound hs a) hnext, next_ends (step_listed hp' hl a) hnext⟩
  have hprep := eventInit_prepared raw fd p
  exact inv_of_run hstep ⟨hprep.sound, hprep.listed⟩ hrun

/-- Two events read descriptors, and both of these are ready. -/
def twoReady : List Act :=
  [.eventSet 7 3 (Ev.read ||| Ev.persist), .eventAdd 7 false allOk, .eventSet 8 4 Ev.read,
    .eventAdd 8 false allOk, .eventBaseLoop, .loopReport 3 false true false,
    .loopReport 4 false true false]

/-- The state in which both are active. -/
def bothActive : World := (run next (eventInit emptyMemory 5) twoReady).get (by decide +kernel)

theorem bothActive_reached : run next (eventInit emptyMemory 5) twoReady = some bothActive :=
  (Option.some_get _).symm

theorem bothActive_waits : Waits bothActive 7 := by
  have hactive : (bothActive.events 7).any (fun e => e.evFlags .active && e.evNcalls ≠ 0) := by
    decide +kernel
  cases he : bothActive.events 7 with
  | none =>
    rw [he] at hactive
    cases hactive
  | some e =>
    rw [he] at hactive
    exact ⟨e, he, by simpa using hactive⟩

end Donkeyji.MyEvent
