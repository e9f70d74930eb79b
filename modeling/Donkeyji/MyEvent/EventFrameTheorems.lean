/-
Donkeyji.MyEvent.EventFrameTheorems — what an operation on one event leaves
of the others.

`Framed p R` is the rule: a relation that holds along the writes that the
library makes for the event `p` holds along every operation on it.

`Spares P w w'` says that the step from `w` to `w'` left the events `P` alone:
the events are the same, the table of descriptors has them in no new place, and
of the calls in progress at most some `ncalls` were zeroed. Every function of
the library spares the events that it is not called for. The one exception is
the internal event, which `evsignal_add` adds.
-/
import Donkeyji.Lib.Outcome
import Donkeyji.MyEvent.Event

namespace Donkeyji.MyEvent

open Outcome

/-! ## Calls in progress -/

/-- A change of calls in progress that at most zeroes their `ncalls`. -/
def Clears (g : Frame → Frame) : Prop :=
  ∀ f, g f = f ∨ ∃ d, f = .eventProcessActive d ∧ g f = .eventProcessActive { d with ncalls := 0 }

theorem clears_id : Clears id := fun _ => Or.inl rfl

theorem clears_clear (addr : Nat) : Clears (Frame.clear addr) := by
  intro f
  cases f with
  | eventBaseLoop => exact Or.inl rfl
  | evsignalProcess i cur => exact Or.inl rfl
  | eventProcessActive d =>
    by_cases h : d.addr = addr
    · exact Or.inr ⟨d, rfl, by simp [Frame.clear, h]⟩
    · exact Or.inl (by simp [Frame.clear, h])

theorem Clears.comp {g g' : Frame → Frame} (h : Clears g) (h' : Clears g') : Clears (g' ∘ g) := by
  intro f
  cases h f with
  | inl hf =>
    rw [Function.comp_apply, hf]
    exact h' f
  | inr hf =>
    obtain ⟨d, rfl, hd⟩ := hf
    refine Or.inr ⟨d, rfl, ?_⟩
    rw [Function.comp_apply, hd]
    cases h' (.eventProcessActive { d with ncalls := 0 }) with
    | inl h2 => exact h2
    | inr h2 =>
      obtain ⟨d', hd', h2⟩ := h2
      cases hd'
      exact h2

/-- Reading an event. -/
theorem event_ends (w : World) (p : EventPtr) :
    Ends (fun _ => False) (fun e => w.events p = some e) (w.event p) := by
  unfold World.event
  split
  · exact fun h => h
  · assumption

/-! ## The rule -/

/-- A relation between the states before and after a step that follows from the writes that the
library makes for one event. -/
structure Framed (p : EventPtr) (R : World → World → Prop) : Prop where
  refl : ∀ w, R w w
  trans : ∀ {w w' w''}, R w w' → R w' w'' → R w w''
  setEvent : ∀ {w e} (e' : Event), w.events p = some e → e'.evEvents = e.evEvents →
    R w (w.setEvent p e')
  clear : ∀ w e, R w (w.clearNcalls e)
  queues : ∀ w count active queues, R w { w with
    base := { w.base with eventCount := count, eventCountActive := active, queues } }
  table : ∀ w ok (ev : IoEvent), ev.ptr = p →
    R w { w with base := { w.base with evbase := (epollAdd ok w.base.evbase ev).2 } }
  untable : ∀ w ok ev,
    R w { w with base := { w.base with evbase := (epollDel ok w.base.evbase ev).2 } }

section Framed

variable {p : EventPtr} {R : World → World → Prop} (hR : Framed p R) {w w' : World}

include hR

/-- The result of a computation, after a step in the relation. -/
theorem Framed.then {α : Type} {f : α → World} {x : Except Halt α} (h : R w w')
    (hx : Ends (fun _ => False) (fun a => R w' (f a)) x) :
    Ends (fun _ => False) (fun a => R w (f a)) x :=
  hx.mono fun _ ha => hR.trans h ha

theorem eventQueueInsert_framed (w : World) (queue : Evlist) :
    Ends (fun _ => False) (R w) (eventQueueInsert w p queue) := by
  refine (event_ends w p).bind ?_
  intro e he
  dsimp only
  split
  · split
    · exact hR.refl w
    · exact fun h => h
  · have h := hR.setEvent { e with evFlags := Function.update e.evFlags queue true } he rfl
    exact hR.trans h (hR.queues _ _ _ _)

theorem eventQueueRemove_framed (w : World) (queue : Evlist) :
    Ends (fun _ => False) (R w) (eventQueueRemove w p queue) := by
  refine (event_ends w p).bind ?_
  intro e he
  dsimp only
  split
  · have h := hR.setEvent { e with evFlags := Function.update e.evFlags queue false } he rfl
    exact hR.trans h (hR.queues _ _ _ _)
  · exact fun h => h

theorem removeIfOn_framed (w : World) (queue : Evlist) :
    Ends (fun _ => False) (R w) (removeIfOn w p queue) := by
  refine (event_ends w p).bind ?_
  intro e _
  split
  · exact eventQueueRemove_framed hR w queue
  · exact hR.refl w

theorem epollAddFd_framed (w : World) (ok : Bool) :
    Ends (fun _ => False) (fun r => R w r.2) (epollAddFd w p ok) := by
  refine (event_ends w p).bind ?_
  intro e _
  split
  · exact fun h => h
  · exact hR.table w ok _ rfl

theorem evselDel_framed (w : World) (sys : Sys) :
    Ends (fun _ => False) (fun r => R w r.2) (evselDel w p sys) := by
  refine (event_ends w p).bind ?_
  intro e _
  split
  · exact hR.refl w
  · split
    · exact fun h => h
    · exact hR.untable w sys.epollOk _

theorem addInserted_framed {add : World → Except Halt (Int × World)}
    (hadd : Ends (fun _ => False) (fun r => R w r.2) (add w)) :
    Ends (fun _ => False) (fun r => R w r.2) (addInserted add w p) := by
  refine (event_ends w p).bind ?_
  intro e _
  split
  · refine hadd.bind ?_
    intro r hr
    obtain ⟨res, w1⟩ := r
    dsimp only
    split
    · refine Ends.bind (hR.then hr (eventQueueInsert_framed hR w1 .inserted)) ?_
      exact fun w2 h2 => h2
    · exact hr
  · exact hR.refl w

theorem addTimeout_framed (w : World) : Ends (fun _ => False) (R w) (addTimeout w p) := by
  refine (removeIfOn_framed hR w .timeout).bind ?_
  intro w1 h1
  refine (event_ends w1 p).bind ?_
  intro e _
  split
  · have h2 := hR.trans h1 (hR.clear w1 e)
    refine Ends.bind (hR.then h2 (eventQueueRemove_framed hR _ .active)) ?_
    intro w3 h3
    exact hR.then h3 (eventQueueInsert_framed hR w3 .timeout)
  · exact hR.then h1 (eventQueueInsert_framed hR w1 .timeout)

/-- `event_add`, when `evsel->add` is in the relation. -/
theorem eventAddWith_framed {add : World → Except Halt (Int × World)} (tv : Bool)
    (hadd : Ends (fun _ => False) (fun r => R w r.2) (add w)) :
    Ends (fun _ => False) (fun r => R w r.2) (eventAddWith add w p tv) := by
  refine (addInserted_framed hR hadd).bind ?_
  intro r hr
  obtain ⟨res, w1⟩ := r
  dsimp only
  split
  · refine Ends.bind (hR.then hr (addTimeout_framed hR w1)) ?_
    exact fun w2 h2 => h2
  · exact hr

/-- What `event_del` does after it has stopped the callback. -/
theorem eventDel_framed_afterClear {e : Event} (he : w.events p = some e) (sys : Sys) :
    Ends (fun _ => False) (fun r => R (w.clearNcalls e) r.2) (eventDel w p sys) := by
  refine (event_ends w p).bind ?_
  intro e0 he0
  rw [he] at he0
  cases he0
  refine (removeIfOn_framed hR (w.clearNcalls e) .timeout).bind ?_
  intro w2 h2
  refine Ends.bind (hR.then h2 (f := id) (removeIfOn_framed hR w2 .active)) ?_
  intro w3 h3
  refine (event_ends w3 p).bind ?_
  intro e3 _
  split
  · refine Ends.bind (hR.then h3 (f := id) (eventQueueRemove_framed hR w3 .inserted)) ?_
    intro w4 h4
    exact hR.then h4 (f := Prod.snd) (evselDel_framed hR w4 sys)
  · exact h3

/-- `event_del`. -/
theorem eventDel_framed (w : World) (sys : Sys) :
    Ends (fun _ => False) (fun r => R w r.2) (eventDel w p sys) := by
  cases he : w.events p with
  | none => simp [eventDel, World.event, he, bind, Except.bind]
  | some e => exact hR.then (hR.clear w e) (f := Prod.snd) (eventDel_framed_afterClear hR he sys)

/-- `event_active`. -/
theorem eventActive_framed (w : World) (res : Nat) (ncalls : Int) :
    Ends (fun _ => False) (R w) (eventActive w p res ncalls) := by
  refine (event_ends w p).bind ?_
  intro e he
  split
  · exact hR.setEvent _ he rfl
  · have h := hR.setEvent
      { e with evRes := res, evNcalls := Memory.wrap16 ncalls, evPncalls := none } he rfl
    exact hR.then h (f := id) (eventQueueInsert_framed hR _ .active)

end Framed

/-! ## Sparing -/

/-- The pointers of the lists of signals lead to the events `S`, and these are signals. -/
structure Signals (w : World) (S : Nat → EventPtr → Prop) : Prop where
  within : ∀ i, (w.base.sig.evsigevents i).Within (S i)
  signal : ∀ i a, S i a → ∃ e, w.events a = some e ∧ hasBit e.evEvents Ev.signal = true

/-- The step left the events `P` alone. -/
structure Spares (P : EventPtr → Prop) (w w' : World) : Prop where
  event : ∀ p, P p → w'.events p = w.events p
  kinds : ∀ p e, w.events p = some e → ∃ e', w'.events p = some e' ∧ e'.evEvents = e.evEvents
  frames : ∃ g, Clears g ∧ w'.frames = w.frames.map g
  evread : ∀ p fd, P p → (w'.base.evbase.fds fd).evread = some p →
    (w.base.evbase.fds fd).evread = some p
  evwrite : ∀ p fd, P p → (w'.base.evbase.fds fd).evwrite = some p →
    (w.base.evbase.fds fd).evwrite = some p
  nfds : w'.base.evbase.nfds = w.base.evbase.nfds
  evSignal : w'.base.sig.evSignal = w.base.sig.evSignal
  signals : ∀ S, Signals w S → ∃ S', Signals w' S' ∧ ∀ i a, S i a → S' i a

variable {P : EventPtr → Prop} {p' : EventPtr} {w w' w'' : World}

/-- Signals stay signals when the lists do not change. -/
theorem Signals.keep {S : Nat → EventPtr → Prop} (h : Signals w S)
    (hlists : w'.base.sig.evsigevents = w.base.sig.evsigevents)
    (hkinds : ∀ p e, w.events p = some e → ∃ e', w'.events p = some e' ∧ e'.evEvents = e.evEvents) :
    Signals w' S := by
  refine ⟨by rw [hlists]; exact h.within, ?_⟩
  intro i a ha
  obtain ⟨e, he, hs⟩ := h.signal i a ha
  obtain ⟨e', he', hk⟩ := hkinds a e he
  exact ⟨e', he', by rw [hk]; exact hs⟩

/-- A step that changes no list of signals, no event and no call in progress. -/
theorem spares_of_events (hevents : w'.events = w.events) (hframes : w'.frames = w.frames)
    (hread : ∀ p fd, P p → (w'.base.evbase.fds fd).evread = some p →
      (w.base.evbase.fds fd).evread = some p)
    (hwrite : ∀ p fd, P p → (w'.base.evbase.fds fd).evwrite = some p →
      (w.base.evbase.fds fd).evwrite = some p)
    (hnfds : w'.base.evbase.nfds = w.base.evbase.nfds)
    (hsig : w'.base.sig.evSignal = w.base.sig.evSignal)
    (hlists : w'.base.sig.evsigevents = w.base.sig.evsigevents) : Spares P w w' := by
  have hkinds : ∀ p e, w.events p = some e →
      ∃ e', w'.events p = some e' ∧ e'.evEvents = e.evEvents := by
    intro p e he
    exact ⟨e, by rw [hevents]; exact he, rfl⟩
  refine ⟨fun p _ => by rw [hevents], hkinds, ⟨id, clears_id, by simp [hframes]⟩, hread, hwrite,
    hnfds, hsig, ?_⟩
  exact fun S hS => ⟨S, hS.keep hlists hkinds, fun _ _ h => h⟩

theorem Spares.refl (P : EventPtr → Prop) (w : World) : Spares P w w :=
  spares_of_events rfl rfl (fun _ _ _ h => h) (fun _ _ _ h => h) rfl rfl rfl

theorem Spares.trans (h : Spares P w w') (h' : Spares P w' w'') : Spares P w w'' := by
  refine ⟨fun p hp => (h'.event p hp).trans (h.event p hp), ?_, ?_, ?_, ?_,
    h'.nfds.trans h.nfds, h'.evSignal.trans h.evSignal, ?_⟩
  · intro q e he
    obtain ⟨e1, he1, hk1⟩ := h.kinds q e he
    obtain ⟨e2, he2, hk2⟩ := h'.kinds q e1 he1
    exact ⟨e2, he2, hk2.trans hk1⟩
  · obtain ⟨g, hg, hf⟩ := h.frames
    obtain ⟨g', hg', hf'⟩ := h'.frames
    exact ⟨g' ∘ g, hg.comp hg', by rw [hf', hf, List.map_map]⟩
  · exact fun p fd hp hfd => h.evread p fd hp (h'.evread p fd hp hfd)
  · exact fun p fd hp hfd => h.evwrite p fd hp (h'.evwrite p fd hp hfd)
  · intro S hS
    obtain ⟨S1, hS1, hsub1⟩ := h.signals S hS
    obtain ⟨S2, hS2, hsub2⟩ := h'.signals S1 hS1
    exact ⟨S2, hS2, fun i a ha => hsub2 i a (hsub1 i a ha)⟩

/-- The result of a computation, after a step that spares the event. -/
theorem Spares.then {α : Type} {f : α → World} {x : Except Halt α} (h : Spares P w w')
    (hx : Ends (fun _ => False) (fun a => Spares P w' (f a)) x) :
    Ends (fun _ => False) (fun a => Spares P w (f a)) x :=
  hx.mono fun _ ha => h.trans ha

/-- Writing another event. -/
theorem spares_setEvent {e : Event} (e' : Event) (hp : ¬ P p') (he : w.events p' = some e)
    (hk : e'.evEvents = e.evEvents) : Spares P w (w.setEvent p' e') := by
  have hkinds : ∀ q eq, w.events q = some eq →
      ∃ e'', (w.setEvent p' e').events q = some e'' ∧ e''.evEvents = eq.evEvents := by
    intro q eq heq
    by_cases hq : q = p'
    · subst hq
      rw [he] at heq
      cases heq
      exact ⟨e', by simp [World.setEvent], hk⟩
    · exact ⟨eq, by simp [World.setEvent, hq, heq], rfl⟩
  refine ⟨?_, hkinds, ⟨id, clears_id, by simp [World.setEvent]⟩, fun _ _ _ h => h,
    fun _ _ _ h => h, rfl, rfl, fun S hS => ⟨S, hS.keep rfl hkinds, fun _ _ h => h⟩⟩
  intro q hq
  have hne : q ≠ p' := fun h => hp (h ▸ hq)
  simp [World.setEvent, hne]

theorem spares_clearNcalls (P : EventPtr → Prop) (w : World) (e : Event) :
    Spares P w (w.clearNcalls e) := by
  unfold World.clearNcalls
  split
  · exact Spares.refl P w
  · rename_i addr _
    split
    · exact Spares.refl P w
    · have hkinds : ∀ p e, w.events p = some e →
          ∃ e', w.events p = some e' ∧ e'.evEvents = e.evEvents := fun _ e he => ⟨e, he, rfl⟩
      exact ⟨fun _ _ => rfl, hkinds, ⟨Frame.clear addr, clears_clear addr, rfl⟩,
        fun _ _ _ h => h, fun _ _ _ h => h, rfl, rfl,
        fun S hS => ⟨S, hS.keep rfl hkinds, fun _ _ h => h⟩⟩

/-! ## The backend -/

/-- `epoll_add` puts no other event in the table. -/
theorem epollAdd_fds (ok : Bool) (eop : Epollop) (ev : IoEvent) {p : EventPtr} (hp : p ≠ ev.ptr)
    (fd : Nat) :
    (((epollAdd ok eop ev).2.fds fd).evread = some p → (eop.fds fd).evread = some p) ∧
    (((epollAdd ok eop ev).2.fds fd).evwrite = some p → (eop.fds fd).evwrite = some p) := by
  unfold epollAdd
  split
  · exact ⟨id, id⟩
  · by_cases hfd : fd = ev.fd
    · subst hfd
      have hne : ev.ptr ≠ p := hp.symm
      cases ev.evRead <;> cases ev.evWrite <;> simp [hne]
    · simp [hfd]

/-- The table keeps its size. -/
theorem epollAdd_nfds (ok : Bool) (eop : Epollop) (ev : IoEvent) :
    (epollAdd ok eop ev).2.nfds = eop.nfds := by
  unfold epollAdd
  split <;> rfl

/-- The table keeps its size. -/
theorem epollDel_nfds (ok : Bool) (eop : Epollop) (ev : IoEvent) :
    (epollDel ok eop ev).2.nfds = eop.nfds := by
  unfold epollDel
  split
  · rfl
  · dsimp only
    split <;> rfl

/-- `epoll_del` puts no event in the table. -/
theorem epollDel_fds (ok : Bool) (eop : Epollop) (ev : IoEvent) (p : EventPtr) (fd : Nat) :
    (((epollDel ok eop ev).2.fds fd).evread = some p → (eop.fds fd).evread = some p) ∧
    (((epollDel ok eop ev).2.fds fd).evwrite = some p → (eop.fds fd).evwrite = some p) := by
  unfold epollDel
  split
  · exact ⟨id, id⟩
  · by_cases hfd : fd = ev.fd
    · subst hfd
      dsimp only
      split <;> split <;> simp
    · dsimp only
      split <;> split <;> simp [hfd]

theorem spares_epollDel (P : EventPtr → Prop) (w : World) (ok : Bool) (ev : IoEvent) :
    Spares P w { w with base := { w.base with evbase := (epollDel ok w.base.evbase ev).2 } } :=
  spares_of_events rfl rfl (fun p fd _ => (epollDel_fds ok w.base.evbase ev p fd).1)
    (fun p fd _ => (epollDel_fds ok w.base.evbase ev p fd).2)
    (epollDel_nfds ok w.base.evbase ev) rfl rfl

/-- **The writes for one event spare the others.** -/
theorem spares_framed (hp : ¬ P p') : Framed p' (Spares P) where
  refl := Spares.refl P
  trans := Spares.trans
  setEvent := fun e' he hk => spares_setEvent e' hp he hk
  clear := spares_clearNcalls P
  queues := fun _ _ _ _ => spares_of_events rfl rfl (fun _ _ _ h => h) (fun _ _ _ h => h) rfl rfl rfl
  table := by
    rintro w ok ev rfl
    have hne : ∀ p, P p → p ≠ ev.ptr := fun p h heq => hp (heq ▸ h)
    exact spares_of_events rfl rfl (fun p fd hP => (epollAdd_fds ok w.base.evbase ev (hne p hP) fd).1)
      (fun p fd hP => (epollAdd_fds ok w.base.evbase ev (hne p hP) fd).2)
      (epollAdd_nfds ok w.base.evbase ev) rfl rfl
  untable := spares_epollDel P

/-! ## The operations -/

/-- `evsel->del` spares even its own event. -/
theorem evselDel_spares (P : EventPtr → Prop) (p' : EventPtr) (w : World) (sys : Sys) :
    Ends (fun _ => False) (fun r => Spares P w r.2) (evselDel w p' sys) := by
  refine (event_ends w p').bind ?_
  intro e _
  split
  · exact Spares.refl P w
  · split
    · exact fun h => h
    · exact spares_epollDel P w sys.epollOk _

theorem eventQueueRemove_spares (hp : ¬ P p') (w : World) (queue : Evlist) :
    Ends (fun _ => False) (Spares P w) (eventQueueRemove w p' queue) :=
  eventQueueRemove_framed (spares_framed hp) w queue

theorem evsignalFirst_spares (hp : ¬ P w.base.sig.evSignal) (signal : Nat) (sys : Sys) :
    Ends (fun _ => False) (fun r => Spares P w r.2) (evsignalFirst w signal sys) := by
  unfold evsignalFirst
  split
  · dsimp only
    have h1 : Spares P w { w with
        evsignalBase := true
        base := { w.base with
          sig := { w.base.sig with
            handlers := Function.update w.base.sig.handlers signal true } } } :=
      spares_of_events rfl rfl (fun _ _ _ h => h) (fun _ _ _ h => h) rfl rfl rfl
    split
    · exact h1
    · refine Ends.bind (h1.then (f := Prod.snd) (eventAddWith_framed (spares_framed hp) false
        (epollAddFd_framed (spares_framed hp) _ sys.epollOk))) ?_
      intro r hr
      obtain ⟨res, w2⟩ := r
      dsimp only
      split
      · exact hr
      · exact hr.trans (spares_of_events rfl rfl (fun _ _ _ h => h) (fun _ _ _ h => h) rfl rfl rfl)
  · exact Spares.refl P w

/-- An event in the list of its signal. -/
theorem spares_insertSignal {e : Event} (he : w.events p' = some e)
    (hsignal : hasBit e.evEvents Ev.signal = true) (i : Nat) : Spares P w { w with
      base := { w.base with
        sig := { w.base.sig with
          evsigevents := Function.update w.base.sig.evsigevents i
            ((w.base.sig.evsigevents i).insertTail p') } } } := by
  refine ⟨fun _ _ => rfl, fun _ e he => ⟨e, he, rfl⟩, ⟨id, clears_id, by simp⟩,
    fun _ _ _ h => h, fun _ _ _ h => h, rfl, rfl, ?_⟩
  intro S hS
  refine ⟨fun j a => (j = i ∧ a = p') ∨ S j a, ⟨?_, ?_⟩, fun _ _ h => Or.inr h⟩
  · intro j
    by_cases hj : j = i
    · subst hj
      simpa using (hS.within j).insertTail p'
    · simpa [hj] using hS.within j
  · intro j a ha
    cases ha with
    | inl ha => exact ⟨e, ha.2 ▸ he, hsignal⟩
    | inr ha => exact hS.signal j a ha

theorem evsignalAdd_spares (hp : ¬ P w.base.sig.evSignal) {e : Event} (he : w.events p' = some e)
    (hsignal : hasBit e.evEvents Ev.signal = true) (sys : Sys) :
    Ends (fun _ => False) (fun r => Spares P w r.2) (evsignalAdd w p' sys) := by
  refine (event_ends w p').bind ?_
  intro e0 _
  split
  · exact fun h => h
  · split
    · dsimp only
      have hfirst : Ends (fun _ => False) (fun r => Spares P w r.2)
          (if (w.base.sig.evsigevents e0.evFd.toNat).tqhFirst = none then
            evsignalFirst w e0.evFd.toNat sys else .ok (0, w)) := by
        split
        · exact evsignalFirst_spares hp _ sys
        · exact Spares.refl P w
      refine hfirst.bind ?_
      intro r hr
      obtain ⟨res, w1⟩ := r
      dsimp only
      split
      · exact hr
      · obtain ⟨e1, he1, hk⟩ := hr.kinds p' e he
        exact hr.trans (spares_insertSignal he1 (by rw [hk]; exact hsignal) _)
    · exact fun h => h

theorem evselAdd_spares (hp : ¬ P p') (hsig : ¬ P w.base.sig.evSignal) (sys : Sys) :
    Ends (fun _ => False) (fun r => Spares P w r.2) (evselAdd w p' sys) := by
  refine (event_ends w p').bind ?_
  intro e he
  split
  · rename_i hsignal
    exact evsignalAdd_spares hsig he hsignal sys
  · exact epollAddFd_framed (spares_framed hp) w sys.epollOk

/-- **`event_add` spares all events but its own and the internal one.** -/
theorem eventAdd_spares (hp : ¬ P p') (hsig : ¬ P w.base.sig.evSignal) (tv : Bool) (sys : Sys) :
    Ends (fun _ => False) (fun r => Spares P w r.2) (eventAdd w p' tv sys) :=
  eventAddWith_framed (spares_framed hp) tv (evselAdd_spares hp hsig sys)

/-- What `event_del` does after it has stopped the callback. -/
theorem eventDel_afterClear (hp : ¬ P p') {e : Event} (he : w.events p' = some e) (sys : Sys) :
    Ends (fun _ => False) (fun r => Spares P (w.clearNcalls e) r.2) (eventDel w p' sys) :=
  eventDel_framed_afterClear (spares_framed hp) he sys

/-- **`event_del` spares all events but its own.** -/
theorem eventDel_spares (hp : ¬ P p') (w : World) (sys : Sys) :
    Ends (fun _ => False) (fun r => Spares P w r.2) (eventDel w p' sys) :=
  eventDel_framed (spares_framed hp) w sys

/-- **`event_active` spares all events but its own.** -/
theorem eventActive_spares (hp : ¬ P p') (w : World) (res : Nat) (ncalls : Int) :
    Ends (fun _ => False) (Spares P w) (eventActive w p' res ncalls) :=
  eventActive_framed (spares_framed hp) w res ncalls

end Donkeyji.MyEvent
