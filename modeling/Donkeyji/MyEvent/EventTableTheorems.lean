/-
Donkeyji.MyEvent.EventTableTheorems — what an operation on an event does to
that event.

`Listed w p` says where the table of descriptors can have the event `p`: at
its descriptor, in the directions it watches, and only while it is inserted.
So `event_del` takes it out of the table (`eventDel_clears`), although
`epoll_del` clears an entry without looking at whose it is. `Calm p w w'` says
that the step did not touch what `event_process_active` reads of `p`.
-/
import Donkeyji.MyEvent.EventFrameTheorems

namespace Donkeyji.MyEvent

open Outcome

variable {p : EventPtr} {w w' w'' : World}

/-! ## The table -/

/-- The event may be in the table at the descriptor, in the direction. -/
def Placed (w : World) (p : EventPtr) (fd bit : Nat) : Prop :=
  ∃ e, w.events p = some e ∧ hasBit e.evEvents Ev.signal = false ∧ e.evFd.toNat = fd ∧
    fd < w.base.evbase.nfds ∧ hasBit e.evEvents bit = true

/-- The table has the event nowhere. -/
def NotInTable (w : World) (p : EventPtr) : Prop :=
  ∀ fd, (w.base.evbase.fds fd).evread ≠ some p ∧ (w.base.evbase.fds fd).evwrite ≠ some p

/-- The table has the event only where it may. -/
def WellPlaced (w : World) (p : EventPtr) : Prop :=
  ∀ fd, ((w.base.evbase.fds fd).evread = some p → Placed w p fd Ev.read) ∧
    ((w.base.evbase.fds fd).evwrite = some p → Placed w p fd Ev.write)

/-- The table has the event only where it may, and only while it is inserted. -/
structure Listed (w : World) (p : EventPtr) : Prop where
  placed : WellPlaced w p
  inserted : (∃ e, w.events p = some e ∧ e.evFlags .inserted = true) ∨ NotInTable w p

theorem NotInTable.listed (h : NotInTable w p) : Listed w p :=
  ⟨fun fd => ⟨fun hr => absurd hr (h fd).1, fun hw => absurd hw (h fd).2⟩, Or.inr h⟩

/-- What an operation on an event's queues keeps of the event. -/
structure Kept (e e' : Event) : Prop where
  fd : e'.evFd = e.evFd
  kind : e'.evEvents = e.evEvents
  ncalls : e'.evNcalls = e.evNcalls
  pncalls : e'.evPncalls = e.evPncalls
  active : e'.evFlags .active = true → e.evFlags .active = true

/-- The step kept the event and activated it no more than it was. -/
def Calm (p : EventPtr) (w w' : World) : Prop :=
  ∀ e, w.events p = some e → ∃ e', w'.events p = some e' ∧ Kept e e'

theorem Kept.refl (e : Event) : Kept e e := ⟨rfl, rfl, rfl, rfl, id⟩

theorem Kept.trans {e e' e'' : Event} (h : Kept e e') (h' : Kept e' e'') : Kept e e'' :=
  ⟨h'.fd.trans h.fd, h'.kind.trans h.kind, h'.ncalls.trans h.ncalls, h'.pncalls.trans h.pncalls,
    fun ha => h.active (h'.active ha)⟩

theorem Calm.trans (h : Calm p w w') (h' : Calm p w' w'') : Calm p w w'' := by
  intro e he
  obtain ⟨e1, he1, h1⟩ := h e he
  obtain ⟨e2, he2, h2⟩ := h' e1 he1
  exact ⟨e2, he2, h1.trans h2⟩

theorem Calm.of_event (h : w'.events p = w.events p) : Calm p w w' :=
  fun e he => ⟨e, by rw [h]; exact he, Kept.refl e⟩

theorem Spares.calm {P : EventPtr → Prop} (h : Spares P w w') (hp : P p) : Calm p w w' :=
  Calm.of_event (h.event p hp)

/-- What the place of an event depends on. -/
theorem Placed.keep {fd bit : Nat} (h : Placed w p fd bit)
    (hnfds : w'.base.evbase.nfds = w.base.evbase.nfds)
    (hevent : ∀ e, w.events p = some e →
      ∃ e', w'.events p = some e' ∧ e'.evFd = e.evFd ∧ e'.evEvents = e.evEvents) :
    Placed w' p fd bit := by
  obtain ⟨e, he, hsig, hfd, hlt, hbit⟩ := h
  obtain ⟨e', he', hf, hk⟩ := hevent e he
  exact ⟨e', he', by rw [hk]; exact hsig, by rw [hf]; exact hfd, by rw [hnfds]; exact hlt,
    by rw [hk]; exact hbit⟩

/-- A step that puts the event nowhere in the table. -/
theorem Listed.keep (h : Listed w p)
    (hread : ∀ fd, (w'.base.evbase.fds fd).evread = some p →
      (w.base.evbase.fds fd).evread = some p)
    (hwrite : ∀ fd, (w'.base.evbase.fds fd).evwrite = some p →
      (w.base.evbase.fds fd).evwrite = some p)
    (hnfds : w'.base.evbase.nfds = w.base.evbase.nfds)
    (hevent : ∀ e, w.events p = some e → ∃ e', w'.events p = some e' ∧ e'.evFd = e.evFd ∧
      e'.evEvents = e.evEvents ∧ (e.evFlags .inserted = true → e'.evFlags .inserted = true)) :
    Listed w' p := by
  have hplace : ∀ e, w.events p = some e →
      ∃ e', w'.events p = some e' ∧ e'.evFd = e.evFd ∧ e'.evEvents = e.evEvents := by
    intro e he
    obtain ⟨e', he', hf, hk, -⟩ := hevent e he
    exact ⟨e', he', hf, hk⟩
  refine ⟨fun fd => ⟨?_, ?_⟩, ?_⟩
  · exact fun hr => ((h.placed fd).1 (hread fd hr)).keep hnfds hplace
  · exact fun hw => ((h.placed fd).2 (hwrite fd hw)).keep hnfds hplace
  · cases h.inserted with
    | inl hi =>
      obtain ⟨e, he, hflag⟩ := hi
      obtain ⟨e', he', -, -, hkeep⟩ := hevent e he
      exact Or.inl ⟨e', he', hkeep hflag⟩
    | inr hn =>
      exact Or.inr fun fd => ⟨fun hr => (hn fd).1 (hread fd hr), fun hw => (hn fd).2 (hwrite fd hw)⟩

/-- A step that spares the event. -/
theorem Listed.spares (h : Listed w p) {P : EventPtr → Prop} (hs : Spares P w w') (hp : P p) :
    Listed w' p :=
  h.keep (fun fd => hs.evread p fd hp) (fun fd => hs.evwrite p fd hp) hs.nfds
    fun e he => ⟨e, by rw [hs.event p hp]; exact he, rfl, rfl, id⟩

/-- A step that leaves the table as it is and keeps the event inserted. -/
theorem Listed.sameTable (h : Listed w p) (hbase : w'.base.evbase = w.base.evbase)
    (hevent : ∀ e, w.events p = some e → ∃ e', w'.events p = some e' ∧ e'.evFd = e.evFd ∧
      e'.evEvents = e.evEvents ∧ (e.evFlags .inserted = true → e'.evFlags .inserted = true)) :
    Listed w' p :=
  h.keep (fun _ hr => hbase ▸ hr) (fun _ hw => hbase ▸ hw) (by rw [hbase]) hevent

/-- A write of the event that keeps the descriptor, the kind and the flags. -/
theorem Listed.setEvent (h : Listed w p) {e : Event} (e' : Event) (he : w.events p = some e)
    (hf : e'.evFd = e.evFd) (hk : e'.evEvents = e.evEvents) (hflags : e'.evFlags = e.evFlags) :
    Listed (w.setEvent p e') p := by
  refine h.sameTable rfl ?_
  intro e0 he0
  rw [he] at he0
  cases he0
  exact ⟨e', by simp [World.setEvent], hf, hk, fun hi => by rw [hflags]; exact hi⟩

/-- Other calls in progress. -/
theorem Listed.frames (h : Listed w p) (fs : List Frame) : Listed { w with frames := fs } p :=
  h.sameTable rfl fun e he => ⟨e, he, rfl, rfl, id⟩

/-! ## Queues -/

/-- `event_queue_insert`, for the event itself. -/
theorem eventQueueInsert_self (w : World) (p : EventPtr) (queue : Evlist) :
    Ends (fun _ => False) (fun w' => w'.base.evbase = w.base.evbase ∧
      ∀ e, w.events p = some e → ∃ e', w'.events p = some e' ∧ e'.evFd = e.evFd ∧
        e'.evEvents = e.evEvents ∧ (queue ≠ .active → Kept e e') ∧ e'.evFlags queue = true ∧
        (e.evFlags .inserted = true → e'.evFlags .inserted = true))
      (eventQueueInsert w p queue) := by
  refine (event_ends w p).bind ?_
  intro e he
  dsimp only
  split
  · rename_i hon
    split
    · refine ⟨rfl, ?_⟩
      intro e0 he0
      rw [he] at he0
      cases he0
      exact ⟨e, he, rfl, rfl, fun _ => Kept.refl e, hon, id⟩
    · exact fun h => h
  · refine ⟨rfl, ?_⟩
    intro e0 he0
    rw [he] at he0
    cases he0
    refine ⟨{ e with evFlags := Function.update e.evFlags queue true },
      Function.update_self _ _ _, rfl, rfl, ?_, ?_, ?_⟩
    · intro hq
      refine ⟨rfl, rfl, rfl, rfl, ?_⟩
      intro ha
      have hne : Evlist.active ≠ queue := fun h => hq h.symm
      simpa [Function.update_of_ne hne] using ha
    · show Function.update e.evFlags queue true queue = true
      exact Function.update_self _ _ _
    · intro hi
      by_cases hq : Evlist.inserted = queue
      · show Function.update e.evFlags queue true .inserted = true
        rw [← hq]
        exact Function.update_self _ _ _
      · show Function.update e.evFlags queue true .inserted = true
        rw [Function.update_of_ne hq]
        exact hi

/-- `event_queue_remove`, for the event itself. -/
theorem eventQueueRemove_self (w : World) (p : EventPtr) (queue : Evlist) :
    Ends (fun _ => False) (fun w' => w'.base.evbase = w.base.evbase ∧
      ∀ e, w.events p = some e → ∃ e', w'.events p = some e' ∧ Kept e e' ∧
        (queue ≠ .inserted → e.evFlags .inserted = true → e'.evFlags .inserted = true))
      (eventQueueRemove w p queue) := by
  refine (event_ends w p).bind ?_
  intro e he
  dsimp only
  split
  · refine ⟨rfl, ?_⟩
    intro e0 he0
    rw [he] at he0
    cases he0
    refine ⟨{ e with evFlags := Function.update e.evFlags queue false },
      Function.update_self _ _ _, ⟨rfl, rfl, rfl, rfl, ?_⟩, ?_⟩
    · intro ha
      by_cases hq : Evlist.active = queue
      · subst hq
        simp at ha
      · simpa [Function.update_of_ne hq] using ha
    · intro hq hi
      have hne : Evlist.inserted ≠ queue := fun h => hq h.symm
      show Function.update e.evFlags queue false .inserted = true
      rw [Function.update_of_ne hne]
      exact hi
  · exact fun h => h

/-- A step on the queues of the event that leaves it in the table. -/
structure Steady (p : EventPtr) (w w' : World) : Prop where
  calm : Calm p w w'
  listed : Listed w p → Listed w' p

theorem Steady.trans (h : Steady p w w') (h' : Steady p w' w'') : Steady p w w'' :=
  ⟨h.calm.trans h'.calm, fun hl => h'.listed (h.listed hl)⟩

theorem Spares.steady {P : EventPtr → Prop} (h : Spares P w w') (hp : P p) : Steady p w w' :=
  ⟨h.calm hp, fun hl => hl.spares h hp⟩

/-- The result of a computation, after a steady step. -/
theorem Steady.then {α : Type} {f : α → World} {x : Except Halt α} (h : Steady p w w')
    (hx : Ends (fun _ => False) (fun a => Steady p w' (f a)) x) :
    Ends (fun _ => False) (fun a => Steady p w (f a)) x :=
  hx.mono fun _ ha => h.trans ha

theorem insert_steady (w : World) (p : EventPtr) (queue : Evlist) (hq : queue ≠ .active) :
    Ends (fun _ => False) (Steady p w) (eventQueueInsert w p queue) := by
  refine (eventQueueInsert_self w p queue).mono ?_
  intro w' h
  refine ⟨?_, fun hl => hl.sameTable h.1 ?_⟩
  · intro e he
    obtain ⟨e', he', -, -, hk, -, -⟩ := h.2 e he
    exact ⟨e', he', hk hq⟩
  · intro e he
    obtain ⟨e', he', hf, hk, -, -, hi⟩ := h.2 e he
    exact ⟨e', he', hf, hk, hi⟩

theorem remove_steady (w : World) (p : EventPtr) (queue : Evlist) (hq : queue ≠ .inserted) :
    Ends (fun _ => False) (Steady p w) (eventQueueRemove w p queue) := by
  refine (eventQueueRemove_self w p queue).mono ?_
  intro w' h
  refine ⟨?_, fun hl => hl.sameTable h.1 ?_⟩
  · intro e he
    obtain ⟨e', he', hk, -⟩ := h.2 e he
    exact ⟨e', he', hk⟩
  · intro e he
    obtain ⟨e', he', hk, hi⟩ := h.2 e he
    exact ⟨e', he', hk.fd, hk.kind, hi hq⟩

theorem removeIfOn_steady (w : World) (p : EventPtr) (queue : Evlist) (hq : queue ≠ .inserted) :
    Ends (fun _ => False) (Steady p w) (removeIfOn w p queue) := by
  refine (event_ends w p).bind ?_
  intro e _
  split
  · exact remove_steady w p queue hq
  · exact (Spares.refl (fun _ => True) w).steady trivial

theorem clearNcalls_steady (w : World) (p : EventPtr) (e : Event) :
    Steady p w (w.clearNcalls e) :=
  (spares_clearNcalls (fun _ => True) w e).steady trivial

theorem addTimeout_steady (w : World) (p : EventPtr) :
    Ends (fun _ => False) (Steady p w) (addTimeout w p) := by
  refine (removeIfOn_steady w p .timeout (by simp)).bind ?_
  intro w1 h1
  refine (event_ends w1 p).bind ?_
  intro e _
  split
  · have h2 := h1.trans (clearNcalls_steady w1 p e)
    refine Ends.bind (h2.then (f := id) (remove_steady _ p .active (by simp))) ?_
    intro w3 h3
    exact h3.then (f := id) (insert_steady w3 p .timeout (by simp))
  · exact h1.then (f := id) (insert_steady w1 p .timeout (by simp))

/-! ## Adding -/

/-- `epoll_add` puts an event where it belongs, or returns -1 and changes nothing. -/
theorem epollAdd_places (ok : Bool) (eop : Epollop) (ev : IoEvent) (fd : Nat) :
    ((epollAdd ok eop ev).1 = -1 ∧ (epollAdd ok eop ev).2 = eop) ∨
    ((epollAdd ok eop ev).1 = 0 ∧ ev.fd < eop.nfds ∧
      (((epollAdd ok eop ev).2.fds fd).evread = some ev.ptr →
        (fd = ev.fd ∧ ev.evRead = true) ∨ (eop.fds fd).evread = some ev.ptr) ∧
      (((epollAdd ok eop ev).2.fds fd).evwrite = some ev.ptr →
        (fd = ev.fd ∧ ev.evWrite = true) ∨ (eop.fds fd).evwrite = some ev.ptr)) := by
  unfold epollAdd
  split
  · exact Or.inl ⟨rfl, rfl⟩
  · rename_i hlt
    refine Or.inr ⟨rfl, by omega, ?_⟩
    by_cases hfd : fd = ev.fd
    · subst hfd
      cases ev.evRead <;> cases ev.evWrite <;> simp
    · simp [hfd]

/-- Adding an event to the table: it is placed well, if anything was changed. -/
theorem epollAddFd_places {e : Event} (h : WellPlaced w p) (he : w.events p = some e)
    (hsig : hasBit e.evEvents Ev.signal = false) (ok : Bool) :
    Ends (fun _ => False) (fun r => r.2.events = w.events ∧ WellPlaced r.2 p ∧
      (r.1 = -1 → r.2 = w)) (epollAddFd w p ok) := by
  refine (event_ends w p).bind ?_
  intro e0 he0
  rw [he] at he0
  cases he0
  split
  · exact fun h => h
  · have hp := epollAdd_places ok w.base.evbase
      ⟨p, e.evFd.toNat, hasBit e.evEvents Ev.read, hasBit e.evEvents Ev.write⟩
    have hn := epollAdd_nfds ok w.base.evbase
      ⟨p, e.evFd.toNat, hasBit e.evEvents Ev.read, hasBit e.evEvents Ev.write⟩
    revert hp hn
    generalize epollAdd ok w.base.evbase _ = x
    intro hp hn
    obtain ⟨res, eop⟩ := x
    dsimp only at hp hn ⊢
    have hsame : ∀ {fd bit : Nat}, Placed w p fd bit →
        Placed { w with base := { w.base with evbase := eop } } p fd bit :=
      fun hpl => hpl.keep hn fun e1 he1 => ⟨e1, he1, rfl, rfl⟩
    refine ⟨rfl, ?_, ?_⟩
    · intro fd
      cases hp fd with
      | inl hp =>
        have hfds : eop.fds fd = w.base.evbase.fds fd := by rw [hp.2]
        refine ⟨fun hr => hsame ((h fd).1 ?_), fun hw => hsame ((h fd).2 ?_)⟩
        · rw [← hfds]
          exact hr
        · rw [← hfds]
          exact hw
      | inr hp =>
        obtain ⟨-, hlt, hread, hwrite⟩ := hp
        refine ⟨fun hr => ?_, fun hw => ?_⟩
        · cases hread hr with
          | inl hnew => exact hsame ⟨e, he, hsig, hnew.1.symm, hnew.1 ▸ hlt, hnew.2⟩
          | inr hold => exact hsame ((h fd).1 hold)
        · cases hwrite hw with
          | inl hnew => exact hsame ⟨e, he, hsig, hnew.1.symm, hnew.1 ▸ hlt, hnew.2⟩
          | inr hold => exact hsame ((h fd).2 hold)
    · intro hres
      cases hp 0 with
      | inl hp => rw [hp.2]
      | inr hp =>
        have hzero : (0 : Int) = -1 := hp.1.symm.trans hres
        cases hzero

/-- What the backend does to the event it is asked to add. -/
theorem evselAdd_places {e : Event} (h : Listed w p) (he : w.events p = some e)
    (hp : p ≠ w.base.sig.evSignal) (sys : Sys) :
    Ends (fun _ => False) (fun r => r.2.events p = w.events p ∧ WellPlaced r.2 p ∧
      (r.1 = -1 → Listed r.2 p)) (evselAdd w p sys) := by
  refine (event_ends w p).bind ?_
  intro e0 he0
  rw [he] at he0
  cases he0
  split
  · rename_i hsignal
    refine (evsignalAdd_spares (P := (· = p)) (fun heq => hp heq.symm) he hsignal sys).mono ?_
    intro r hr
    have hl := h.spares hr rfl
    exact ⟨hr.event p rfl, hl.placed, fun _ => hl⟩
  · rename_i hsignal
    refine (epollAddFd_places h.placed he (by simpa using hsignal) sys.epollOk).mono ?_
    intro r hr
    exact ⟨by rw [hr.1], hr.2.1, fun hres => by rw [hr.2.2 hres]; exact h⟩

/-- **`event_add` leaves its event listed.** -/
theorem eventAdd_steady (h : Listed w p) (hp : p ≠ w.base.sig.evSignal) (tv : Bool) (sys : Sys) :
    Ends (fun _ => False) (fun r => Calm p w r.2 ∧ Listed r.2 p) (eventAdd w p tv sys) := by
  have hins : Ends (fun _ => False) (fun r => Calm p w r.2 ∧ Listed r.2 p)
      (addInserted (fun w => evselAdd w p sys) w p) := by
    refine (event_ends w p).bind ?_
    intro e he
    split
    · refine (evselAdd_places h he hp sys).bind ?_
      intro r hr
      obtain ⟨res, w1⟩ := r
      obtain ⟨hevents, hplaced, hfail⟩ := hr
      dsimp only at hevents hplaced hfail ⊢
      split
      · refine (eventQueueInsert_self w1 p .inserted).bind ?_
        intro w2 h2
        obtain ⟨e2, he2, hf, hk, hkept, hon, -⟩ := h2.2 e (by rw [hevents]; exact he)
        have hplace : ∀ e1, w1.events p = some e1 →
            ∃ e', w2.events p = some e' ∧ e'.evFd = e1.evFd ∧ e'.evEvents = e1.evEvents := by
          intro e1 he1
          rw [hevents, he] at he1
          cases he1
          exact ⟨e2, he2, hf, hk⟩
        refine ⟨?_, ⟨fun fd => ⟨?_, ?_⟩, Or.inl ⟨e2, he2, hon⟩⟩⟩
        · intro e1 he1
          rw [he] at he1
          cases he1
          exact ⟨e2, he2, hkept (by simp)⟩
        · intro hr
          exact ((hplaced fd).1 (h2.1 ▸ hr)).keep (by rw [h2.1]) hplace
        · intro hw
          exact ((hplaced fd).2 (h2.1 ▸ hw)).keep (by rw [h2.1]) hplace
      · rename_i hres
        exact ⟨Calm.of_event hevents, hfail (by simpa using hres)⟩
    · exact ⟨Calm.of_event rfl, h⟩
  refine hins.bind ?_
  intro r hr
  obtain ⟨res, w1⟩ := r
  dsimp only
  split
  · refine (addTimeout_steady w1 p).bind ?_
    intro w2 h2
    exact ⟨hr.1.trans h2.calm, h2.listed hr.2⟩
  · exact hr

/-! ## Deleting -/

/-- `epoll_del` clears the reader, if its event reads. -/
theorem epollDel_read (ok : Bool) {eop : Epollop} {ev : IoEvent} (hfd : ev.fd < eop.nfds)
    (hread : ev.evRead = true) : ((epollDel ok eop ev).2.fds ev.fd).evread = none := by
  simp only [epollDel, if_neg (Nat.not_le.mpr hfd), hread, Bool.true_and]
  cases ev.evWrite <;> cases (eop.fds ev.fd).evwrite <;> split <;> simp

/-- `epoll_del` clears the writer, if its event writes. -/
theorem epollDel_write (ok : Bool) {eop : Epollop} {ev : IoEvent} (hfd : ev.fd < eop.nfds)
    (hwrite : ev.evWrite = true) : ((epollDel ok eop ev).2.fds ev.fd).evwrite = none := by
  simp only [epollDel, if_neg (Nat.not_le.mpr hfd), hwrite, Bool.and_true, Bool.true_and]
  cases ev.evRead <;> cases (eop.fds ev.fd).evread <;> split <;> simp

/-- `epoll_del` clears what its event watches, whoever is there. -/
theorem epollDel_clears (ok : Bool) (eop : Epollop) (ev : IoEvent)
    (hread : ∀ fd, (eop.fds fd).evread = some ev.ptr →
      fd = ev.fd ∧ fd < eop.nfds ∧ ev.evRead = true)
    (hwrite : ∀ fd, (eop.fds fd).evwrite = some ev.ptr →
      fd = ev.fd ∧ fd < eop.nfds ∧ ev.evWrite = true) (fd : Nat) :
    ((epollDel ok eop ev).2.fds fd).evread ≠ some ev.ptr ∧
      ((epollDel ok eop ev).2.fds fd).evwrite ≠ some ev.ptr := by
  constructor
  · intro hr
    obtain ⟨rfl, hlt, hbit⟩ := hread fd ((epollDel_fds ok eop ev ev.ptr fd).1 hr)
    rw [epollDel_read ok hlt hbit] at hr
    cases hr
  · intro hw
    obtain ⟨rfl, hlt, hbit⟩ := hwrite fd ((epollDel_fds ok eop ev ev.ptr fd).2 hw)
    rw [epollDel_write ok hlt hbit] at hw
    cases hw

/-- The backend takes a deleted event out of the table. -/
theorem evselDel_clears (h : WellPlaced w p) (sys : Sys) :
    Ends (fun _ => False) (fun r => NotInTable r.2 p) (evselDel w p sys) := by
  refine (event_ends w p).bind ?_
  intro e he
  have hplaced : ∀ {fd bit : Nat}, Placed w p fd bit → hasBit e.evEvents Ev.signal = false ∧
      fd = e.evFd.toNat ∧ fd < w.base.evbase.nfds ∧ hasBit e.evEvents bit = true := by
    intro fd bit hpl
    obtain ⟨e0, he0, hsig, hfd, hlt, hbit⟩ := hpl
    rw [he] at he0
    cases he0
    exact ⟨hsig, hfd.symm, hlt, hbit⟩
  split
  · rename_i hsignal
    intro fd
    refine ⟨fun hr => ?_, fun hw => ?_⟩
    · have := (hplaced ((h fd).1 hr)).1
      rw [hsignal] at this
      cases this
    · have := (hplaced ((h fd).2 hw)).1
      rw [hsignal] at this
      cases this
  · split
    · exact fun h => h
    · exact epollDel_clears sys.epollOk w.base.evbase
        ⟨p, e.evFd.toNat, hasBit e.evEvents Ev.read, hasBit e.evEvents Ev.write⟩
        (fun fd hr => (hplaced ((h fd).1 hr)).2) (fun fd hw => (hplaced ((h fd).2 hw)).2)

/-- **`event_del` takes its event out of the table.** -/
theorem eventDel_clears (h : Listed w p) (sys : Sys) :
    Ends (fun _ => False) (fun r => Calm p w r.2 ∧ NotInTable r.2 p) (eventDel w p sys) := by
  refine (event_ends w p).bind ?_
  intro e _
  have h1 := clearNcalls_steady w p e
  refine Ends.bind (h1.then (f := id) (removeIfOn_steady _ p .timeout (by simp))) ?_
  intro w2 h2
  refine Ends.bind (h2.then (f := id) (removeIfOn_steady w2 p .active (by simp))) ?_
  intro w3 h3
  have hl : Listed w3 p := h3.listed h
  refine (event_ends w3 p).bind ?_
  intro e3 he3
  split
  · refine (eventQueueRemove_self w3 p .inserted).bind ?_
    intro w4 h4
    have hcalm : Calm p w3 w4 := by
      intro e0 he0
      obtain ⟨e', he', hk, -⟩ := h4.2 e0 he0
      exact ⟨e', he', hk⟩
    have hplace : ∀ e0, w3.events p = some e0 →
        ∃ e', w4.events p = some e' ∧ e'.evFd = e0.evFd ∧ e'.evEvents = e0.evEvents := by
      intro e0 he0
      obtain ⟨e', he', hk⟩ := hcalm e0 he0
      exact ⟨e', he', hk.fd, hk.kind⟩
    have hplaced : WellPlaced w4 p := by
      intro fd
      refine ⟨fun hr => ?_, fun hw => ?_⟩
      · exact ((hl.placed fd).1 (h4.1 ▸ hr)).keep (by rw [h4.1]) hplace
      · exact ((hl.placed fd).2 (h4.1 ▸ hw)).keep (by rw [h4.1]) hplace
    refine ((evselDel_clears hplaced sys).and (evselDel_spares (fun _ => True) p w4 sys)).mono ?_
    intro r hr
    exact ⟨(h3.calm.trans hcalm).trans (hr.2.calm trivial), hr.1⟩
  · rename_i hoff
    refine ⟨h3.calm, ?_⟩
    cases hl.inserted with
    | inl hi =>
      obtain ⟨e0, he0, hflag⟩ := hi
      rw [he3] at he0
      cases he0
      exact absurd hflag hoff
    | inr hn => exact hn

/-- `event_active` leaves its event listed. -/
theorem eventActive_listed (h : Listed w p) (res : Nat) (ncalls : Int) :
    Ends (fun _ => False) (fun w' => Listed w' p) (eventActive w p res ncalls) := by
  refine (event_ends w p).bind ?_
  intro e he
  split
  · exact h.setEvent _ he rfl rfl rfl
  · refine (eventQueueInsert_self _ p .active).mono ?_
    intro w' h'
    have hl := h.setEvent ({ e with
      evRes := res
      evNcalls := Memory.wrap16 ncalls
      evPncalls := none }) he rfl rfl rfl
    refine hl.sameTable h'.1 ?_
    intro e0 he0
    obtain ⟨e', he', hf, hk, -, -, hi⟩ := h'.2 e0 he0
    exact ⟨e', he', hf, hk, hi⟩

end Donkeyji.MyEvent
