/-
Donkeyji.MyEvent.EvsignalFrameTheorems — what the library leaves of the
signals.

`KeepsSignals w w'` says that the step from `w` to `w'` changed neither the
lists of signal events nor what was caught, and that no event changed its
kind. This holds of `event_del` and `event_active`, which `evsignal_process`
calls, and of every step in between two passes (`next_keepsSignals`).
-/
import Donkeyji.MyEvent.EventRunTheorems
import Donkeyji.MyEvent.Evsignal

namespace Donkeyji.MyEvent

open Outcome

/-- The signals are as before. -/
structure KeepsSignals (w w' : World) : Prop where
  sig : w'.base.sig = w.base.sig
  base : w.evsignalBase = true → w'.evsignalBase = true
  kinds : ∀ p e, w.events p = some e → ∃ e', w'.events p = some e' ∧ e'.evEvents = e.evEvents

variable {w w' w'' : World} {p : EventPtr}

/-- A step that changes no event and no signal. -/
theorem keepsSignals_of_events (hsig : w'.base.sig = w.base.sig)
    (hbase : w'.evsignalBase = w.evsignalBase) (hevents : w'.events = w.events) :
    KeepsSignals w w' := by
  refine ⟨hsig, by rw [hbase]; exact id, ?_⟩
  intro p e he
  exact ⟨e, by rw [hevents]; exact he, rfl⟩

theorem KeepsSignals.refl (w : World) : KeepsSignals w w := keepsSignals_of_events rfl rfl rfl

theorem KeepsSignals.trans (h : KeepsSignals w w') (h' : KeepsSignals w' w'') :
    KeepsSignals w w'' := by
  refine ⟨h'.sig.trans h.sig, fun hb => h'.base (h.base hb), ?_⟩
  intro p e he
  obtain ⟨e1, he1, hk1⟩ := h.kinds p e he
  obtain ⟨e2, he2, hk2⟩ := h'.kinds p e1 he1
  exact ⟨e2, he2, hk2.trans hk1⟩

/-- Writing an event. -/
theorem keepsSignals_setEvent {e : Event} (e' : Event) (he : w.events p = some e)
    (hk : e'.evEvents = e.evEvents) : KeepsSignals w (w.setEvent p e') :=
  ⟨rfl, id, (spares_setEvent (P := fun _ => False) e' id he hk).kinds⟩

theorem keepsSignals_clearNcalls (w : World) (e : Event) : KeepsSignals w (w.clearNcalls e) := by
  unfold World.clearNcalls
  split
  · exact KeepsSignals.refl w
  · split
    · exact KeepsSignals.refl w
    · exact keepsSignals_of_events rfl rfl rfl

/-- **The writes for one event keep the signals.** -/
theorem keepsSignals_framed (p : EventPtr) : Framed p KeepsSignals where
  refl := KeepsSignals.refl
  trans := KeepsSignals.trans
  setEvent := keepsSignals_setEvent
  clear := keepsSignals_clearNcalls
  queues := fun _ _ _ _ => keepsSignals_of_events rfl rfl rfl
  table := fun _ _ _ _ => keepsSignals_of_events rfl rfl rfl
  untable := fun _ _ _ => keepsSignals_of_events rfl rfl rfl

/-- `event_del` keeps the signals: `evsignal_del` is empty. -/
theorem eventDel_keepsSignals (w : World) (p : EventPtr) (sys : Sys) :
    Ends (fun _ => False) (fun r => KeepsSignals w r.2) (eventDel w p sys) :=
  eventDel_framed (keepsSignals_framed p) w sys

/-- `event_active` keeps the signals. -/
theorem eventActive_keepsSignals (w : World) (p : EventPtr) (res : Nat) (ncalls : Int) :
    Ends (fun _ => False) (KeepsSignals w) (eventActive w p res ncalls) :=
  eventActive_framed (keepsSignals_framed p) w res ncalls

/-- `event_add` of an event that is no signal. -/
theorem eventAdd_keepsSignals {e : Event} (he : w.events p = some e)
    (hsig : hasBit e.evEvents Ev.signal = false) (tv : Bool) (sys : Sys) :
    Ends (fun _ => False) (fun r => KeepsSignals w r.2) (eventAdd w p tv sys) := by
  refine eventAddWith_framed (keepsSignals_framed p) tv ?_
  simp only [evselAdd, World.event, he, bind, Except.bind, hsig]
  exact epollAddFd_framed (keepsSignals_framed p) w sys.epollOk

/-! ## The other steps -/

theorem activeIf_keepsSignals (w : World) (ev : Option EventPtr) (res : Nat) :
    Ends (fun _ => False) (KeepsSignals w) (activeIf w ev res) := by
  cases ev with
  | none => exact KeepsSignals.refl w
  | some p => exact eventActive_keepsSignals w p res 1

theorem enterProcessActive_keepsSignals (w : World) (addr : Nat) :
    Ends (fun _ => False) (KeepsSignals w) (enterProcessActive w addr) := by
  unfold enterProcessActive
  split
  · exact fun h => h
  · split
    · exact fun h => h
    · exact keepsSignals_of_events rfl rfl rfl

theorem takeActive_keepsSignals (w : World) (d : Draining) (p : EventPtr) (sys : Sys) :
    Ends (fun _ => False) (KeepsSignals w) (takeActive w d p sys) := by
  refine (event_ends w p).bind ?_
  intro e _
  have hremoved : Ends (fun _ => False) (KeepsSignals w)
      (if hasBit e.evEvents Ev.persist then eventQueueRemove w p .active
        else (eventDel w p sys).map Prod.snd) := by
    split
    · exact eventQueueRemove_framed (keepsSignals_framed p) w .active
    · exact (eventDel_keepsSignals w p sys).map fun _ h => h
  refine hremoved.bind ?_
  intro w1 h1
  refine (event_ends w1 p).bind ?_
  intro e1 he1
  have h2 := keepsSignals_setEvent { e1 with evPncalls := some d.addr } he1 rfl
  exact (h1.trans h2).trans (keepsSignals_of_events rfl rfl rfl)

theorem processActiveTick_keepsSignals (w : World) (d : Draining) (rest : List Frame) (sys : Sys) :
    Ends (fun _ => False) (KeepsSignals w) (processActiveTick w d rest sys) := by
  unfold processActiveTick
  split
  · split
    · exact keepsSignals_of_events rfl rfl rfl
    · exact takeActive_keepsSignals w d _ sys
  · split
    · exact keepsSignals_of_events rfl rfl rfl
    · rename_i p _ _
      refine (event_ends w p).bind ?_
      intro e he
      have h := keepsSignals_setEvent { e with evNcalls := Memory.wrap16 (d.ncalls - 1) } he rfl
      exact h.trans (keepsSignals_of_events rfl rfl rfl)

/-- **Every step between two passes keeps the signals**, unless it adds a signal event. -/
theorem step_keepsSignals (a : Act) (h : leavesSignals w a = true) :
    Ends (fun _ => False) (KeepsSignals w) (step w a) := by
  cases a with
  | eventSet p fd events =>
    refine onlyIf_ends id fun _ => ?_
    unfold eventSet
    split
    · exact id
    · rename_i hnone
      refine ⟨rfl, id, ?_⟩
      intro q e he
      have hq : q ≠ p := by
        rintro rfl
        rw [hnone] at he
        cases he
      exact ⟨e, by simp [World.setEvent, hq, he], rfl⟩
  | eventAdd p tv sys =>
    refine onlyIf_ends id fun _ => ?_
    cases he : w.events p with
    | none =>
      simp [eventAdd, eventAddWith, addInserted, World.event, he, bind, Except.bind, Except.map]
    | some e =>
      have hsig : hasBit e.evEvents Ev.signal = false := by simpa [leavesSignals, he] using h
      exact (eventAdd_keepsSignals he hsig tv sys).map fun _ h => h
  | eventDel p sys =>
    exact onlyIf_ends id fun _ => (eventDel_keepsSignals w p sys).map fun _ h => h
  | eventActive p res ncalls =>
    exact onlyIf_ends id fun _ => eventActive_keepsSignals w p res ncalls
  | eventProcessActive addr => exact onlyIf_ends id fun _ => enterProcessActive_keepsSignals w addr
  | eventBaseLoop =>
    refine onlyIf_ends id fun _ => ⟨rfl, ?_, fun _ e he => ⟨e, he, rfl⟩⟩
    intro hbase
    simp [enterBaseLoop, hbase]
  | callbackReturns =>
    show Ends _ _ (callbackReturns w)
    unfold callbackReturns
    split
    · exact onlyIf_ends id fun _ => keepsSignals_of_events rfl rfl rfl
    · exact id
  | signal signal => cases h
  | loopSignals => cases h
  | loopReport fd hupErr epollin epollout =>
    refine onlyIf_ends id fun _ => (activeIf_keepsSignals w _ Ev.read).bind ?_
    intro w1 h1
    exact (activeIf_keepsSignals w1 _ Ev.write).mono fun _ h2 => h1.trans h2
  | loopProcessActive addr =>
    refine onlyIf_ends id fun _ => ?_
    unfold loopProcessActive
    split
    · exact enterProcessActive_keepsSignals w addr
    · exact KeepsSignals.refl w
  | tick sys =>
    show Ends _ _ (tick w sys)
    unfold tick
    split
    · rename_i hframes
      simp [leavesSignals, hframes] at h
    · exact onlyIf_ends id fun _ => processActiveTick_keepsSignals w _ _ sys
    · exact id

/-- The next state, when there is one. -/
theorem next_keepsSignals {a : Act} (h : leavesSignals w a = true) (hnext : next w a = some w') :
    KeepsSignals w w' :=
  (step_keepsSignals a h).of_toOption hnext

end Donkeyji.MyEvent
