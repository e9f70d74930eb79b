/-
Donkeyji.MyEvent.EventLinkTheorems — what holds of an event before it is
deleted.

Two facts about every event make a deletion work: the table of descriptors
has the event only while it is inserted (`Listed`), and when a run of its
callback has repetitions left, `ev_pncalls` points to the `ncalls` of that
run (`Linked`). A step that is not about the event leaves both as they are
(`step_leaves`), the steps about it are looked at one by one. The second fact
is lost when the program calls `event_active` on the event while repetitions
are left.
-/
import Donkeyji.MyEvent.EventStackTheorems
import Donkeyji.MyEvent.EventTableTheorems

namespace Donkeyji.MyEvent

open Outcome

/-! ## Repetitions -/

/-- The step is an `event_active` of the event. -/
def Act.activates (p : EventPtr) : Act → Bool
  | .eventActive q _ _ => q = p
  | _ => false

/-- The call of `event_process_active` has more calls of the event's callback to make. -/
def Frame.Repeats (p : EventPtr) : Frame → Prop
  | .eventProcessActive d => d.ev = some p ∧ d.ncalls ≠ 0
  | _ => False

instance (p : EventPtr) (f : Frame) : Decidable (f.Repeats p) := by
  cases f <;> unfold Frame.Repeats <;> infer_instance

/-- A run of the event's callback has repetitions left. -/
def Repeating (w : World) (p : EventPtr) : Prop := ∃ f ∈ resumable w.frames, f.Repeats p

instance (w : World) (p : EventPtr) : Decidable (Repeating w p) := by
  unfold Repeating
  infer_instance

variable {s p : EventPtr} {S : Nat → EventPtr → Prop} {w w' : World}

/-! ## Steps that do not concern the event -/

/-- Every repetition was there before. -/
def FromOld (p : EventPtr) (fs fs' : List Frame) : Prop :=
  ∀ f' ∈ resumable fs', f'.Repeats p → ∃ f ∈ resumable fs, f.Repeats p ∧ f.addr? = f'.addr?

theorem FromOld.refl (p : EventPtr) (fs : List Frame) : FromOld p fs fs :=
  fun f hf hr => ⟨f, hf, hr, rfl⟩

theorem FromOld.trans {fs fs' fs'' : List Frame} (h : FromOld p fs fs')
    (h' : FromOld p fs' fs'') : FromOld p fs fs'' := by
  intro f'' hf'' hr''
  obtain ⟨f', hf', hr', ha'⟩ := h' f'' hf'' hr''
  obtain ⟨f, hf, hr, ha⟩ := h f' hf' hr'
  exact ⟨f, hf, hr, ha.trans ha'⟩

theorem Clears.fromOld {g : Frame → Frame} (hg : Clears g) (p : EventPtr) (fs : List Frame) :
    FromOld p fs (fs.map g) := by
  intro f' hf' hr
  rw [resumable_map hg] at hf'
  obtain ⟨f, hf, rfl⟩ := List.mem_map.mp hf'
  refine ⟨f, hf, ?_, (hg.kind f).2.1.symm⟩
  cases hg f with
  | inl hgf => rwa [hgf] at hr
  | inr hgf =>
    obtain ⟨d, -, hd⟩ := hgf
    rw [hd] at hr
    exact absurd rfl hr.2

/-- A call without repetitions of the event is entered. -/
theorem fromOld_push {f : Frame} (hf : ¬ f.Repeats p) (fs : List Frame) :
    FromOld p fs (f :: fs) := by
  intro f' hf' hr
  by_cases hloop : f = .eventBaseLoop
  · subst hloop
    cases hf'
  · rw [resumable_cons hloop] at hf'
    cases List.mem_cons.mp hf' with
    | inl heq => exact absurd (heq ▸ hr) hf
    | inr hmem => exact ⟨f', hmem, hr, rfl⟩

/-- A call returns, or goes on with no more repetitions than before. -/
theorem fromOld_top {f : Frame} (hloop : f ≠ .eventBaseLoop) {fs fs' : List Frame}
    (hrest : FromOld p fs fs') : FromOld p (f :: fs) fs' := by
  intro f' hf' hr
  obtain ⟨f0, hf0, hr0, ha⟩ := hrest f' hf' hr
  exact ⟨f0, by rw [resumable_cons hloop]; exact List.mem_cons_of_mem f hf0, hr0, ha⟩

/-- The innermost call goes on and keeps its address. -/
theorem fromOld_replace {f f' : Frame} (hloop : f ≠ .eventBaseLoop) (hloop' : f' ≠ .eventBaseLoop)
    {fs fs' : List Frame} (himp : f'.Repeats p → f.Repeats p ∧ f.addr? = f'.addr?)
    (hrest : FromOld p fs fs') : FromOld p (f :: fs) (f' :: fs') := by
  intro f1 hf1 hr
  rw [resumable_cons hloop'] at hf1
  cases List.mem_cons.mp hf1 with
  | inl heq =>
    subst heq
    obtain ⟨hr', ha⟩ := himp hr
    exact ⟨f, by rw [resumable_cons hloop]; exact List.mem_cons_self, hr', ha⟩
  | inr hmem => exact fromOld_top hloop hrest f1 hmem hr

/-- The step does nothing to the event and adds no repetitions. -/
structure Leaves (p : EventPtr) (w w' : World) : Prop where
  event : w'.events p = w.events p
  evread : ∀ fd, (w'.base.evbase.fds fd).evread = some p → (w.base.evbase.fds fd).evread = some p
  evwrite : ∀ fd, (w'.base.evbase.fds fd).evwrite = some p →
    (w.base.evbase.fds fd).evwrite = some p
  nfds : w'.base.evbase.nfds = w.base.evbase.nfds
  fromOld : FromOld p w.frames w'.frames

/-- What a step that does not concern the event leaves. -/
abbrev LeftAlone (p : EventPtr) (w : World) (x : Except Halt World) : Prop :=
  Ends (fun _ => False) (Leaves p w) x

theorem Spares.fromOld {P : EventPtr → Prop} (h : Spares P w w') (p : EventPtr) :
    FromOld p w.frames w'.frames := by
  obtain ⟨g, hg, hframes⟩ := h.frames
  rw [hframes]
  exact hg.fromOld p w.frames

theorem Spares.leaves (h : Spares (· = p) w w') : Leaves p w w' :=
  ⟨h.event p rfl, fun fd => h.evread p fd rfl, fun fd => h.evwrite p fd rfl, h.nfds,
    h.fromOld p⟩

/-- A step that only changes the calls in progress. -/
theorem leaves_frames (hevents : w'.events = w.events) (hbase : w'.base.evbase = w.base.evbase)
    (hold : FromOld p w.frames w'.frames) : Leaves p w w' :=
  ⟨by rw [hevents], fun _ h => hbase ▸ h, fun _ h => hbase ▸ h, by rw [hbase], hold⟩

/-- The step is about the event. -/
def Concerns (w : World) (p : EventPtr) : Act → Prop
  | .eventSet q _ _ => q = p
  | .eventAdd q _ _ => q = p
  | .eventDel q _ => q = p
  | .eventActive q _ _ => q = p
  | .loopReport fd _ _ _ =>
    (w.base.evbase.fds fd).evread = some p ∨ (w.base.evbase.fds fd).evwrite = some p
  | .tick _ =>
    match w.frames with
    | .evsignalProcess _ (some (_, a)) :: _ => a = some p
    | .eventProcessActive d :: _ =>
      (d.ev = none ∧ (w.base.queues (.active d.activeq)).tqhFirst = some p) ∨
        (d.ev = some p ∧ d.ncalls ≠ 0)
    | _ => False
  | _ => False

theorem enterProcessActive_leaves (p : EventPtr) (w : World) (addr : Nat) :
    LeftAlone p w (enterProcessActive w addr) := by
  unfold enterProcessActive
  split
  · exact fun h => h
  · split
    · exact fun h => h
    · exact leaves_frames rfl rfl (fromOld_push (by simp [Frame.Repeats]) w.frames)

/-- Another event is taken from the active queue. -/
theorem takeActive_leaves {d : Draining} {rest : List Frame}
    (hframes : w.frames = .eventProcessActive d :: rest) {q : EventPtr} (hq : ¬ q = p) (sys : Sys) :
    LeftAlone p w (takeActive w d q sys) := by
  refine (event_ends w q).bind ?_
  intro e _
  have hremoved : Ends (fun _ => False) (fun w1 => Spares (· = p) w w1)
      (if hasBit e.evEvents Ev.persist then eventQueueRemove w q .active
        else (eventDel w q sys).map Prod.snd) := by
    split
    · exact eventQueueRemove_spares (P := (· = p)) hq w .active
    · exact (eventDel_spares (P := (· = p)) hq w sys).map fun _ h => h
  refine hremoved.bind ?_
  intro w1 h1
  refine (event_ends w1 q).bind ?_
  intro e1 he1
  have h2 := h1.trans (spares_setEvent { e1 with evPncalls := some d.addr } hq he1 rfl)
  refine ⟨h2.event p rfl, fun fd => h2.evread p fd rfl, fun fd => h2.evwrite p fd rfl, h2.nfds, ?_⟩
  obtain ⟨g, hg, hmap⟩ := h1.frames
  have htail : w1.frames.tail = rest.map g := by
    rw [hmap, hframes, List.map_cons, List.tail_cons]
  show FromOld p w.frames (_ :: w1.frames.tail)
  rw [htail, hframes]
  refine fromOld_replace (by simp) (by simp) ?_ (hg.fromOld p rest)
  intro hr
  exact absurd (Option.some.inj hr.1) hq

theorem processActiveTick_leaves {d : Draining} {rest : List Frame}
    (hframes : w.frames = .eventProcessActive d :: rest)
    (hfirst : d.ev = none → (w.base.queues (.active d.activeq)).tqhFirst ≠ some p)
    (hcall : d.ev = some p → d.ncalls = 0) (sys : Sys) :
    LeftAlone p w (processActiveTick w d rest sys) := by
  have hloop : Frame.eventProcessActive d ≠ .eventBaseLoop := by simp
  unfold processActiveTick
  split
  · rename_i hnone
    split
    · refine leaves_frames rfl rfl ?_
      rw [hframes]
      exact fromOld_top hloop (FromOld.refl p rest)
    · rename_i q hq
      refine takeActive_leaves hframes ?_ sys
      intro hqp
      exact hfirst hnone (hqp ▸ hq)
  · rename_i q hev
    split
    · refine leaves_frames rfl rfl ?_
      rw [hframes]
      refine fromOld_replace hloop (by simp) ?_ (FromOld.refl p rest)
      intro hr
      cases hr.1
    · rename_i hn
      have hq : ¬ q = p := by
        intro hqp
        exact hn (hcall (hqp ▸ hev))
      refine (event_ends w q).bind ?_
      intro e he
      have h1 := spares_setEvent (P := (· = p))
        { e with evNcalls := Memory.wrap16 (d.ncalls - 1) } hq he rfl
      refine ⟨h1.event p rfl, fun fd => h1.evread p fd rfl, fun fd => h1.evwrite p fd rfl,
        h1.nfds, ?_⟩
      show FromOld p w.frames (_ :: rest)
      rw [hframes]
      refine fromOld_replace hloop (by simp) ?_ (FromOld.refl p rest)
      intro hr
      have hevp : d.ev = some p := hr.1
      rw [hev] at hevp
      exact absurd (Option.some.inj hevp) hq

theorem evsignalProcessTick_leaves {i : Nat} {cur : Option (Int × Option EventPtr)}
    {rest : List Frame} (hframes : w.frames = .evsignalProcess i cur :: rest)
    (hcur : ∀ n a, cur = some (n, a) → a ≠ some p) (sys : Sys) :
    LeftAlone p w (evsignalProcessTick w i cur rest sys) := by
  have hloop : Frame.evsignalProcess i cur ≠ .eventBaseLoop := by simp
  have hnext : ∀ {fs : List Frame} {j : Nat} {cur' : Option (Int × Option EventPtr)},
      FromOld p rest fs → FromOld p w.frames (.evsignalProcess j cur' :: fs) := by
    intro fs j cur' hrest
    rw [hframes]
    exact fromOld_replace hloop (by simp) (fun hr => hr.elim) hrest
  unfold evsignalProcessTick
  split
  · split
    · refine leaves_frames rfl rfl ?_
      rw [hframes]
      exact fromOld_top hloop (FromOld.refl p rest)
    · split
      · exact leaves_frames rfl rfl (hnext (FromOld.refl p rest))
      · exact leaves_frames rfl rfl (hnext (FromOld.refl p rest))
  · exact leaves_frames rfl rfl (hnext (FromOld.refl p rest))
  · rename_i ncalls q
    have hq : ¬ q = p := by
      intro hqp
      exact hcur ncalls (some q) rfl (by rw [hqp])
    refine (event_ends w q).bind ?_
    intro e _
    have hdel : Ends (fun _ => False) (fun w1 => Spares (· = p) w w1)
        (if hasBit e.evEvents Ev.persist then .ok w else (eventDel w q sys).map Prod.snd) := by
      split
      · exact Spares.refl _ w
      · exact (eventDel_spares (P := (· = p)) hq w sys).map fun _ h => h
    refine hdel.bind ?_
    intro w1 h1
    refine Ends.bind (h1.then (f := id) (eventActive_spares (P := (· = p)) hq w1 Ev.signal ncalls)) ?_
    intro w2 h2
    have h2' : Spares (· = p) w w2 := h2
    refine ⟨h2'.event p rfl, fun fd => h2'.evread p fd rfl, fun fd => h2'.evwrite p fd rfl,
      h2'.nfds, ?_⟩
    obtain ⟨g, hg, hmap⟩ := h2'.frames
    have htail : w2.frames.tail = rest.map g := by
      rw [hmap, hframes, List.map_cons, List.tail_cons]
    show FromOld p w.frames (_ :: w2.frames.tail)
    rw [htail]
    exact hnext (hg.fromOld p rest)

theorem activeIf_spares {P : EventPtr → Prop} {ev : Option EventPtr}
    (hev : ∀ q, ev = some q → ¬ P q) (w : World) (res : Nat) :
    Ends (fun _ => False) (Spares P w) (activeIf w ev res) := by
  cases ev with
  | none => exact Spares.refl _ w
  | some q => exact eventActive_spares (hev q rfl) w res 1

/-- **A step that is not about the event leaves it alone.** -/
theorem step_leaves (hp : p ≠ w.base.sig.evSignal) {a : Act} (hno : ¬ Concerns w p a) :
    LeftAlone p w (step w a) := by
  have hnever : ¬ (fun _ : Halt => False) .notHere := fun h => h
  cases a with
  | eventSet q fd events =>
    refine onlyIf_ends hnever fun _ => ?_
    unfold eventSet
    split
    · exact hnever
    · have hne : p ≠ q := fun h => hno h.symm
      exact ⟨by simp [World.setEvent, hne], fun _ h => h, fun _ h => h, rfl, FromOld.refl p _⟩
  | eventAdd q tv sys =>
    refine onlyIf_ends hnever fun _ => ?_
    exact (eventAdd_spares (P := (· = p)) hno (fun h => hp h.symm) tv sys).map fun _ h => h.leaves
  | eventDel q sys =>
    exact onlyIf_ends hnever fun _ => (eventDel_spares (P := (· = p)) hno w sys).map fun _ h => h.leaves
  | eventActive q res ncalls =>
    exact onlyIf_ends hnever fun _ => (eventActive_spares (P := (· = p)) hno w res ncalls).mono fun _ h => h.leaves
  | eventProcessActive addr =>
    exact onlyIf_ends hnever fun _ => enterProcessActive_leaves p w addr
  | eventBaseLoop =>
    exact onlyIf_ends hnever fun _ =>
      leaves_frames rfl rfl (fromOld_push (by simp [Frame.Repeats]) w.frames)
  | callbackReturns =>
    show LeftAlone p w (callbackReturns w)
    unfold callbackReturns
    split
    · rename_i d rest hframes
      refine onlyIf_ends hnever fun _ => leaves_frames rfl rfl ?_
      rw [hframes]
      exact fromOld_replace (by simp) (by simp) (fun hr => ⟨hr, rfl⟩) (FromOld.refl p rest)
    · exact hnever
  | signal signal =>
    refine onlyIf_ends hnever fun _ => ?_
    unfold evsignalHandler
    split
    · exact leaves_frames rfl rfl (FromOld.refl p _)
    · exact leaves_frames rfl rfl (FromOld.refl p _)
  | loopSignals =>
    exact onlyIf_ends hnever fun _ =>
      leaves_frames rfl rfl (fromOld_push (by simp [Frame.Repeats]) w.frames)
  | loopReport fd hupErr epollin epollout =>
    refine onlyIf_ends hnever fun _ => ?_
    have hread : ∀ q, (if hupErr || epollin then (w.base.evbase.fds fd).evread else none) =
        some q → ¬ q = p := by
      intro q hq hqp
      split at hq
      · exact hno (Or.inl (hqp ▸ hq))
      · cases hq
    have hwrite : ∀ q, (if hupErr || epollout then (w.base.evbase.fds fd).evwrite else none) =
        some q → ¬ q = p := by
      intro q hq hqp
      split at hq
      · exact hno (Or.inr (hqp ▸ hq))
      · cases hq
    refine (activeIf_spares (P := (· = p)) hread w Ev.read).bind ?_
    intro w1 h1
    exact (activeIf_spares (P := (· = p)) hwrite w1 Ev.write).mono fun _ h => (h1.trans h).leaves
  | loopProcessActive addr =>
    refine onlyIf_ends hnever fun _ => ?_
    unfold loopProcessActive
    split
    · exact enterProcessActive_leaves p w addr
    · exact leaves_frames rfl rfl (FromOld.refl p _)
  | tick sys =>
    show LeftAlone p w (tick w sys)
    unfold Concerns at hno
    unfold tick
    split
    · rename_i i cur rest hframes
      refine evsignalProcessTick_leaves hframes ?_ sys
      intro n a hcur ha
      subst hcur
      rw [hframes] at hno
      exact hno ha
    · rename_i d rest hframes
      rw [hframes] at hno
      refine onlyIf_ends hnever fun _ => processActiveTick_leaves hframes ?_ ?_ sys
      · exact fun hnone hfirst => hno (Or.inl ⟨hnone, hfirst⟩)
      · intro hev
        by_contra hn
        exact hno (Or.inr ⟨hev, hn⟩)
    · exact hnever

/-! ## Before the deletion -/

/-- `ev_pncalls` points to the `ncalls` of the call that has repetitions left. -/
def Linked (w : World) (p : EventPtr) : Prop :=
  ∀ f ∈ resumable w.frames, f.Repeats p → ∃ e, w.events p = some e ∧ e.evPncalls = f.addr? ∧
    e.evNcalls ≠ 0 ∧ e.evFlags .active = false

theorem linked_of_still (h : ¬ Repeating w p) : Linked w p :=
  fun f hf hr => absurd ⟨f, hf, hr⟩ h

theorem still_fromOld (h : ¬ Repeating w p) (hold : FromOld p w.frames w'.frames) :
    ¬ Repeating w' p := by
  intro h'
  obtain ⟨f', hf', hr'⟩ := h'
  obtain ⟨f, hf, hr, -⟩ := hold f' hf' hr'
  exact h ⟨f, hf, hr⟩

theorem Linked.calm (h : Linked w p) (hc : Calm p w w') (hold : FromOld p w.frames w'.frames) :
    Linked w' p := by
  intro f' hf' hr'
  obtain ⟨f, hf, hr, ha⟩ := hold f' hf' hr'
  obtain ⟨e, he, hpn, hn, hact⟩ := h f hf hr
  obtain ⟨e', he', hk⟩ := hc e he
  refine ⟨e', he', by rw [hk.pncalls, hpn, ha], by rw [hk.ncalls]; exact hn, ?_⟩
  cases hflag : e'.evFlags .active with
  | false => rfl
  | true =>
    rw [hk.active hflag] at hact
    cases hact

theorem Leaves.calm (h : Leaves p w w') : Calm p w w' := Calm.of_event h.event

theorem Leaves.listed (h : Leaves p w w') (hl : Listed w p) : Listed w' p :=
  hl.keep h.evread h.evwrite h.nfds
    fun e he => ⟨e, by rw [h.event]; exact he, rfl, rfl, id⟩

/-- An event with repetitions left was set. -/
theorem Linked.still_of_unset (h : Linked w p) (hnone : w.events p = none) :
    ¬ Repeating w p := by
  intro hrep
  obtain ⟨f, hf, hr⟩ := hrep
  obtain ⟨e, he, -⟩ := h f hf hr
  rw [hnone] at he
  cases he

/-- An active event has no repetitions left. -/
theorem Linked.still_of_active (h : Linked w p) {e : Event} (he : w.events p = some e)
    (hact : e.evFlags .active = true) : ¬ Repeating w p := by
  intro hrep
  obtain ⟨f, hf, hr⟩ := hrep
  obtain ⟨e', he', -, -, hno⟩ := h f hf hr
  rw [he] at he'
  cases he'
  rw [hact] at hno
  cases hno

theorem evsignalProcessTick_fromOld {i : Nat} {cur : Option (Int × Option EventPtr)}
    {rest : List Frame} (hframes : w.frames = .evsignalProcess i cur :: rest) (p : EventPtr)
    (sys : Sys) : Ends (fun _ => False) (fun w' => FromOld p w.frames w'.frames)
      (evsignalProcessTick w i cur rest sys) := by
  have hloop : Frame.evsignalProcess i cur ≠ .eventBaseLoop := by simp
  have hnext : ∀ {fs : List Frame} {j : Nat} {cur' : Option (Int × Option EventPtr)},
      FromOld p rest fs → FromOld p w.frames (.evsignalProcess j cur' :: fs) := by
    intro fs j cur' hrest
    rw [hframes]
    exact fromOld_replace hloop (by simp) (fun hr => hr.elim) hrest
  unfold evsignalProcessTick
  split
  · split
    · show FromOld p w.frames rest
      rw [hframes]
      exact fromOld_top hloop (FromOld.refl p rest)
    · split
      · exact hnext (FromOld.refl p rest)
      · exact hnext (FromOld.refl p rest)
  · exact hnext (FromOld.refl p rest)
  · rename_i ncalls q
    refine (event_ends w q).bind ?_
    intro e _
    have hdel : Ends (fun _ => False) (fun w1 => Spares (fun _ => False) w w1)
        (if hasBit e.evEvents Ev.persist then .ok w else (eventDel w q sys).map Prod.snd) := by
      split
      · exact Spares.refl _ w
      · exact (eventDel_spares (P := fun _ => False) (fun h => h) w sys).map fun _ h => h
    refine hdel.bind ?_
    intro w1 h1
    refine Ends.bind (h1.then (f := id)
      (eventActive_spares (P := fun _ => False) (fun h => h) w1 Ev.signal ncalls)) ?_
    intro w2 h2
    obtain ⟨g, hg, hmap⟩ := h2.frames
    have htail : w2.frames.tail = rest.map g := by
      rw [show w2.frames = w.frames.map g from hmap, hframes, List.map_cons, List.tail_cons]
    show FromOld p w.frames (_ :: w2.frames.tail)
    rw [htail]
    exact hnext (hg.fromOld p rest)

/-! ### The event in the table -/

theorem activeIf_listed (h : Listed w p) (ev : Option EventPtr) (res : Nat) :
    Ends (fun _ => False) (fun w' => Listed w' p) (activeIf w ev res) := by
  cases ev with
  | none => exact h
  | some q =>
    by_cases hq : q = p
    · subst hq
      exact eventActive_listed h res 1
    · exact (eventActive_spares (P := (· = p)) hq w res 1).mono fun _ hs => h.spares hs rfl

theorem takeActive_listed (h : Listed w p) (d : Draining) (sys : Sys) :
    Ends (fun _ => False) (fun w' => Listed w' p) (takeActive w d p sys) := by
  refine (event_ends w p).bind ?_
  intro e _
  have hremoved : Ends (fun _ => False) (fun w1 => Listed w1 p)
      (if hasBit e.evEvents Ev.persist then eventQueueRemove w p .active
        else (eventDel w p sys).map Prod.snd) := by
    split
    · exact (remove_steady w p .active (by simp)).mono fun _ hs => hs.listed h
    · exact (eventDel_clears h sys).map fun _ hd => hd.2.listed
  refine hremoved.bind ?_
  intro w1 h1
  refine (event_ends w1 p).bind ?_
  intro e1 he1
  exact (h1.setEvent { e1 with evPncalls := some d.addr } he1 rfl rfl rfl).frames _

theorem tick_listed (h : Listed w p) (sys : Sys)
    (hcon : Concerns w p (.tick sys)) :
    Ends (fun _ => False) (fun w' => Listed w' p) (tick w sys) := by
  unfold Concerns at hcon
  unfold tick
  split
  · rename_i i cur rest hframes
    rw [hframes] at hcon
    cases cur with
    | none => exact hcon.elim
    | some cur =>
      obtain ⟨n, a⟩ := cur
      have ha : a = some p := hcon
      subst ha
      refine (event_ends w p).bind ?_
      intro e _
      have hdel : Ends (fun _ => False) (fun w1 => Listed w1 p)
          (if hasBit e.evEvents Ev.persist then .ok w else (eventDel w p sys).map Prod.snd) := by
        split
        · exact h
        · exact (eventDel_clears h sys).map fun _ hd => hd.2.listed
      refine hdel.bind ?_
      intro w1 h1
      refine (eventActive_listed h1 Ev.signal n).bind ?_
      intro w2 h2
      exact h2.frames _
  · rename_i d rest hframes
    rw [hframes] at hcon
    refine onlyIf_ends (fun hf => hf) fun _ => ?_
    unfold processActiveTick
    cases hcon with
    | inl hcon =>
      rw [hcon.1]
      dsimp only
      rw [hcon.2]
      exact takeActive_listed h d sys
    | inr hcon =>
      rw [hcon.1]
      dsimp only
      rw [if_neg hcon.2]
      refine (event_ends w p).bind ?_
      intro e he
      exact (h.setEvent { e with evNcalls := Memory.wrap16 (d.ncalls - 1) } he rfl rfl
        rfl).frames _
  · exact fun hf => hf

/-- **Every step leaves the event listed.** -/
theorem step_listed (hp : p ≠ w.base.sig.evSignal) (h : Listed w p) (a : Act) :
    Ends (fun _ => False) (fun w' => Listed w' p) (step w a) := by
  have hnever : ¬ (fun _ : Halt => False) .notHere := fun h => h
  by_cases hcon : Concerns w p a
  · cases a with
    | eventSet q fd events =>
      have hq : q = p := hcon
      subst hq
      refine onlyIf_ends hnever fun _ => ?_
      unfold eventSet
      split
      · exact hnever
      · rename_i hnone
        cases h.inserted with
        | inl hi =>
          obtain ⟨e, he, -⟩ := hi
          rw [hnone] at he
          cases he
        | inr hn =>
          have hn' : NotInTable (w.setEvent q
              ⟨fd, events, 0, fun _ => false, 0, none, w.base.nactiveQueues / 2⟩) q := hn
          exact hn'.listed
    | eventAdd q tv sys =>
      have hq : q = p := hcon
      subst hq
      exact onlyIf_ends hnever fun _ => (eventAdd_steady h hp tv sys).map fun _ hs => hs.2
    | eventDel q sys =>
      have hq : q = p := hcon
      subst hq
      exact onlyIf_ends hnever fun _ => (eventDel_clears h sys).map fun _ hd => hd.2.listed
    | eventActive q res ncalls =>
      have hq : q = p := hcon
      subst hq
      exact onlyIf_ends hnever fun _ => eventActive_listed h res ncalls
    | loopReport fd hupErr epollin epollout =>
      refine onlyIf_ends hnever fun _ => (activeIf_listed h _ Ev.read).bind ?_
      intro w1 h1
      exact activeIf_listed h1 _ Ev.write
    | tick sys => exact tick_listed h sys hcon
    | eventProcessActive addr => exact hcon.elim
    | eventBaseLoop => exact hcon.elim
    | callbackReturns => exact hcon.elim
    | signal signal => exact hcon.elim
    | loopSignals => exact hcon.elim
    | loopProcessActive addr => exact hcon.elim
  · exact (step_leaves hp hcon).mono fun _ hl => hl.listed h

/-! ### The running callback -/

/-- The event is taken from the active queue: it had no repetitions left, and its callback is
linked to the call that takes it. -/
theorem takeActive_linked (hs : Sound s S w) {d : Draining} {rest : List Frame}
    (hframes : w.frames = .eventProcessActive d :: rest)
    (hfirst : (w.base.queues (.active d.activeq)).tqhFirst = some p) (h : Linked w p) (sys : Sys) :
    Ends (fun _ => False) (fun w' => Linked w' p) (takeActive w d p sys) := by
  obtain ⟨e0, he0, hact⟩ := hs.inv.activeFirst hfirst
  have hstill := h.still_of_active he0 hact
  refine (event_ends w p).bind ?_
  intro e he
  rw [he0] at he
  cases he
  have hremoved : Ends (fun _ => False) (fun w1 => Off w1 p .active ∧
        Spares (fun _ => False) w w1)
      (if hasBit e0.evEvents Ev.persist then eventQueueRemove w p .active
        else (eventDel w p sys).map Prod.snd) := by
    split
    · exact (ends_of_both (eventQueueRemove_ends hs.inv he0 hact)
        (eventQueueRemove_spares (fun hf => hf) w .active)).mono fun _ h => ⟨h.1.2.off, h.2⟩
    · exact (ends_of_both (eventDel_ends hs.inv p sys)
        (eventDel_spares (fun hf => hf) w sys)).map fun _ h => ⟨h.1.2 .active, h.2⟩
  refine hremoved.bind ?_
  intro w1 h1
  obtain ⟨hoff, hsp⟩ := h1
  refine (event_ends w1 p).bind ?_
  intro e1 he1
  have hold : FromOld p w.frames w1.frames.tail := by
    obtain ⟨g, hg, hmap⟩ := hsp.frames
    rw [hmap, hframes, List.map_cons, List.tail_cons]
    exact fromOld_top (by simp) (hg.fromOld p rest)
  intro f hf hr
  rw [resumable_cons (by simp)] at hf
  cases List.mem_cons.mp hf with
  | inl heq =>
    subst heq
    refine ⟨{ e1 with evPncalls := some d.addr }, by simp [World.setEvent], rfl, hr.2, ?_⟩
    exact hoff e1 he1
  | inr hmem =>
    obtain ⟨f0, hf0, hr0, -⟩ := hold f hmem hr
    exact absurd ⟨f0, hf0, hr0⟩ hstill

/-- The callback is called: it stays linked to the call that calls it. -/
theorem callback_linked (hs : Sound s S w) {d : Draining} {rest : List Frame}
    (hframes : w.frames = .eventProcessActive d :: rest) (hev : d.ev = some p)
    (hn : d.ncalls ≠ 0) (h : Linked w p) {e : Event} (he : w.events p = some e) (ncalls : Int) :
    Linked { w.setEvent p { e with evNcalls := ncalls } with
      frames := .eventProcessActive { d with ncalls := ncalls, inCallback := true } :: rest } p := by
  have hres : resumable w.frames = .eventProcessActive d :: resumable rest := by
    rw [hframes, resumable_cons (by simp)]
  obtain ⟨e', he', hpn, -, hact⟩ := h (.eventProcessActive d) (by rw [hres]; exact List.mem_cons_self)
    ⟨hev, hn⟩
  rw [he] at he'
  cases he'
  intro f hf hr
  rw [resumable_cons (by simp)] at hf
  cases List.mem_cons.mp hf with
  | inl heq =>
    subst heq
    exact ⟨{ e with evNcalls := ncalls }, by simp [World.setEvent], hpn, hr.2, hact⟩
  | inr hmem =>
    -- two calls with repetitions left would have their `ncalls` at one address
    obtain ⟨e2, he2, hpn2, -, -⟩ := h f (by rw [hres]; exact List.mem_cons_of_mem _ hmem) hr
    rw [he] at he2
    cases he2
    have haddr : f.addr? = some d.addr := hpn2.symm.trans hpn
    have hnd := hs.stack.distinct
    rw [hframes, addrs_cons] at hnd
    have hin : d.addr ∈ addrs rest := by
      refine List.mem_filterMap.mpr ⟨f, ?_, haddr⟩
      exact mem_of_resumable hmem
    exact absurd hin (List.nodup_cons.mp hnd).1

/-- **Every step leaves the callback linked**, except an `event_active` of the event while
repetitions are left. -/
theorem step_linked (hs : Sound s S w) (hp : p ≠ s) (hl : Listed w p) (h : Linked w p) {a : Act}
    (hgood : ¬ (a.activates p = true ∧ Repeating w p)) :
    Ends (fun _ => False) (fun w' => Linked w' p) (step w a) := by
  have hnever : ¬ (fun _ : Halt => False) .notHere := fun h => h
  have hp' : p ≠ w.base.sig.evSignal := by
    rw [hs.evSignal]
    exact hp
  by_cases hcon : Concerns w p a
  · cases a with
    | eventSet q fd events =>
      have hq : q = p := hcon
      subst hq
      refine onlyIf_ends hnever fun _ => ?_
      unfold eventSet
      split
      · exact hnever
      · rename_i hnone
        exact linked_of_still (still_fromOld (h.still_of_unset hnone) (FromOld.refl q w.frames))
    | eventAdd q tv sys =>
      have hq : q = p := hcon
      subst hq
      refine onlyIf_ends hnever fun _ => ?_
      refine ((eventAdd_steady hl hp' tv sys).and (eventAdd_spares (P := fun _ => False)
        (fun hf => hf) (fun hf => hf) tv sys)).map ?_
      exact fun r hr => h.calm hr.1.1 (hr.2.fromOld q)
    | eventDel q sys =>
      have hq : q = p := hcon
      subst hq
      refine onlyIf_ends hnever fun _ => ?_
      refine ((eventDel_clears hl sys).and (eventDel_spares (P := fun _ => False)
        (fun hf => hf) w sys)).map ?_
      exact fun r hr => h.calm hr.1.1 (hr.2.fromOld q)
    | eventActive q res ncalls =>
      have hq : q = p := hcon
      subst hq
      have hstill : ¬ Repeating w q := fun hr => hgood ⟨by simp [Act.activates], hr⟩
      refine onlyIf_ends hnever fun _ => ?_
      refine (eventActive_spares (P := fun _ => False) (fun hf => hf) w res ncalls).mono ?_
      exact fun w' hsp => linked_of_still (still_fromOld hstill (hsp.fromOld q))
    | loopReport fd hupErr epollin epollout =>
      refine onlyIf_ends hnever fun hruns => ?_
      obtain ⟨rest, hframes⟩ := loopRuns_top hruns
      have hstill : ¬ Repeating w p := by
        intro hrep
        obtain ⟨f, hf, -⟩ := hrep
        rw [hframes] at hf
        cases hf
      refine (activeIf_spares (P := fun _ => False) (fun _ _ hf => hf) w Ev.read).bind ?_
      intro w1 h1
      refine (activeIf_spares (P := fun _ => False) (fun _ _ hf => hf) w1 Ev.write).mono ?_
      exact fun w' h2 => linked_of_still (still_fromOld hstill ((h1.trans h2).fromOld p))
    | tick sys =>
      show Ends _ _ (tick w sys)
      unfold Concerns at hcon
      unfold tick
      split
      · rename_i i cur rest hframes
        have hstill : ¬ Repeating w p := by
          intro hrep
          obtain ⟨f, hf, hr⟩ := hrep
          rw [hframes, resumable_cons (by simp), (hs.stack.below _ _ hframes).2 rfl,
            List.mem_singleton] at hf
          subst hf
          exact hr.elim
        refine (evsignalProcessTick_fromOld hframes p sys).mono ?_
        exact fun w' hold => linked_of_still (still_fromOld hstill hold)
      · rename_i d rest hframes
        rw [hframes] at hcon
        refine onlyIf_ends hnever fun _ => ?_
        unfold processActiveTick
        cases hcon with
        | inl hcon =>
          rw [hcon.1]
          dsimp only
          rw [hcon.2]
          exact takeActive_linked hs hframes hcon.2 h sys
        | inr hcon =>
          rw [hcon.1]
          dsimp only
          rw [if_neg hcon.2]
          refine (event_ends w p).bind ?_
          intro e he
          have hcalled := callback_linked hs hframes hcon.1 hcon.2 h he
            (Memory.wrap16 (d.ncalls - 1))
          rw [hcon.1] at hcalled
          exact hcalled
      · exact hnever
    | eventProcessActive addr => exact hcon.elim
    | eventBaseLoop => exact hcon.elim
    | callbackReturns => exact hcon.elim
    | signal signal => exact hcon.elim
    | loopSignals => exact hcon.elim
    | loopProcessActive addr => exact hcon.elim
  · exact (step_leaves hp' hcon).mono fun _ hlv => h.calm hlv.calm hlv.fromOld

end Donkeyji.MyEvent
