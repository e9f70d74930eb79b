/-
Donkeyji.MyEvent.EventStackTheorems — the calls in progress.

`event_base_loop` never returns, so only the calls above it go on
(`resumable`). `Sound` says what the calls in progress look like between two
steps: `evsignal_process` runs no callback, so it is the innermost call, and
it was called by `event_base_loop`; its cursor is on an event of the list of
a signal; and the variables `ncalls` have different addresses.
-/
import Donkeyji.MyEvent.EventRunTheorems

namespace Donkeyji.MyEvent

open Outcome

/-! ## Calls that go on -/

/-- The calls that return to their caller some day. -/
def resumable : List Frame → List Frame
  | [] => []
  | .eventBaseLoop :: _ => []
  | f :: fs => f :: resumable fs

/-- A call of `evsignal_process`. -/
def Frame.isEvsignal : Frame → Bool
  | .evsignalProcess _ _ => true
  | _ => false

/-- The addresses of the variables `ncalls`. -/
def addrs (fs : List Frame) : List Nat := fs.filterMap Frame.addr?

/-- The shape of the calls in progress. -/
structure Stacked (fs : List Frame) : Prop where
  below : ∀ f rest, fs = f :: rest → (∀ f' ∈ rest, f'.isEvsignal = false) ∧
    (f.isEvsignal = true → resumable rest = [])
  distinct : (addrs fs).Nodup

/-- A state between two steps: `s` is the internal event and `S i` are the events of the list
of the signal `i`. -/
structure Sound (s : EventPtr) (S : Nat → EventPtr → Prop) (w : World) : Prop where
  inv : Inv w
  evSignal : w.base.sig.evSignal = s
  stack : Stacked w.frames
  signals : Signals w S
  cursor : ∀ i n a rest, w.frames = .evsignalProcess i (some (n, some a)) :: rest → S i a

variable {s : EventPtr} {S : Nat → EventPtr → Prop} {w w' : World} {P : EventPtr → Prop}

/-- Zeroing does not change what a call is. -/
theorem Clears.kind {g : Frame → Frame} (h : Clears g) (f : Frame) :
    (g f).isEvsignal = f.isEvsignal ∧ (g f).addr? = f.addr? ∧
      (g f = .eventBaseLoop ↔ f = .eventBaseLoop) := by
  cases h f with
  | inl hf => simp [hf]
  | inr hf =>
    obtain ⟨d, rfl, hd⟩ := hf
    simp [hd, Frame.isEvsignal, Frame.addr?]

/-- A call other than that of `event_base_loop` goes on. -/
theorem resumable_cons {f : Frame} (h : f ≠ .eventBaseLoop) (fs : List Frame) :
    resumable (f :: fs) = f :: resumable fs := by
  cases f with
  | eventBaseLoop => exact absurd rfl h
  | evsignalProcess i cur => rfl
  | eventProcessActive d => rfl

/-- A call that goes on is in progress. -/
theorem mem_of_resumable {f : Frame} {fs : List Frame} (h : f ∈ resumable fs) : f ∈ fs := by
  induction fs with
  | nil => exact h
  | cons f0 fs ih =>
    by_cases hf0 : f0 = .eventBaseLoop
    · subst hf0
      cases h
    · rw [resumable_cons hf0] at h
      cases List.mem_cons.mp h with
      | inl heq => exact heq ▸ List.mem_cons_self
      | inr hmem => exact List.mem_cons_of_mem f0 (ih hmem)

/-- Zeroing does not change which calls go on. -/
theorem resumable_map {g : Frame → Frame} (h : Clears g) (fs : List Frame) :
    resumable (fs.map g) = (resumable fs).map g := by
  induction fs with
  | nil => rfl
  | cons f fs ih =>
    by_cases hf : f = .eventBaseLoop
    · rw [List.map_cons, (h.kind f).2.2.mpr hf, hf]
      rfl
    · have hg : g f ≠ .eventBaseLoop := fun hgf => hf ((h.kind f).2.2.mp hgf)
      rw [List.map_cons, resumable_cons hg, resumable_cons hf, ih, List.map_cons]

theorem addrs_cons (f : Frame) (fs : List Frame) :
    addrs (f :: fs) = f.addr?.toList ++ addrs fs := by
  cases h : f.addr? <;> simp [addrs, h]

theorem addrs_map {g : Frame → Frame} (h : Clears g) (fs : List Frame) :
    addrs (fs.map g) = addrs fs := by
  induction fs with
  | nil => rfl
  | cons f fs ih =>
    rw [List.map_cons, addrs_cons, addrs_cons, (h.kind f).2.1, ih]

theorem Stacked.map {fs : List Frame} (h : Stacked fs) {g : Frame → Frame} (hg : Clears g) :
    Stacked (fs.map g) := by
  refine ⟨?_, by rw [addrs_map hg]; exact h.distinct⟩
  intro f rest heq
  cases fs with
  | nil => cases heq
  | cons f0 fs =>
    obtain ⟨rfl, rfl⟩ := List.cons.inj heq
    obtain ⟨hbelow, htop⟩ := h.below f0 fs rfl
    refine ⟨?_, ?_⟩
    · intro f' hf'
      obtain ⟨f1, hf1, rfl⟩ := List.mem_map.mp hf'
      rw [(hg.kind f1).1]
      exact hbelow f1 hf1
    · intro hev
      rw [(hg.kind f0).1] at hev
      rw [resumable_map hg, htop hev, List.map_nil]

/-- The innermost call returns. -/
theorem Stacked.pop {f : Frame} {fs : List Frame} (h : Stacked (f :: fs)) :
    Stacked fs ∧ ∀ f' ∈ fs, f'.isEvsignal = false := by
  obtain ⟨hbelow, -⟩ := h.below f fs rfl
  refine ⟨⟨?_, ?_⟩, hbelow⟩
  · intro f1 rest heq
    subst heq
    refine ⟨fun f' hf' => hbelow f' (by simp [hf']), ?_⟩
    intro hev
    rw [hbelow f1 (by simp)] at hev
    cases hev
  · have hnd := h.distinct
    rw [addrs_cons] at hnd
    exact (List.nodup_append.mp hnd).2.1

/-- A call is entered. -/
theorem Stacked.push {f : Frame} {fs : List Frame} (h : Stacked fs)
    (hno : ∀ f' ∈ fs, f'.isEvsignal = false) (htop : f.isEvsignal = true → resumable fs = [])
    (hnew : ∀ a, f.addr? = some a → a ∉ addrs fs) : Stacked (f :: fs) := by
  refine ⟨?_, ?_⟩
  · intro f1 rest heq
    obtain ⟨rfl, rfl⟩ := List.cons.inj heq
    exact ⟨hno, htop⟩
  · rw [addrs_cons]
    cases ha : f.addr? with
    | none => exact h.distinct
    | some a => exact List.nodup_cons.mpr ⟨hnew a ha, h.distinct⟩

/-- The innermost call goes on. -/
theorem Stacked.top {f f' : Frame} {fs : List Frame} (h : Stacked (f :: fs))
    (hkind : f'.isEvsignal = true → f.isEvsignal = true) (haddr : f'.addr? = f.addr?) :
    Stacked (f' :: fs) := by
  obtain ⟨hpop, hno⟩ := h.pop
  refine hpop.push hno (fun hev => (h.below f fs rfl).2 (hkind hev)) ?_
  intro a ha
  rw [haddr] at ha
  have hnd := h.distinct
  rw [addrs_cons, ha] at hnd
  exact (List.nodup_cons.mp hnd).1

/-! ## Steps -/

/-- The functions of the library leave a sound state sound. -/
theorem Sound.spares (h : Sound s S w) (hs : Spares P w w') (hinv : Inv w') :
    ∃ S', Sound s S' w' ∧ ∀ i a, S i a → S' i a := by
  obtain ⟨g, hg, hframes⟩ := hs.frames
  obtain ⟨S', hS', hsub⟩ := hs.signals S h.signals
  refine ⟨S', ⟨hinv, hs.evSignal.trans h.evSignal, ?_, hS', ?_⟩, hsub⟩
  · rw [hframes]
    exact h.stack.map hg
  · intro i n a rest heq
    rw [hframes] at heq
    cases hfs : w.frames with
    | nil =>
      rw [hfs] at heq
      cases heq
    | cons f fs =>
      rw [hfs] at heq
      obtain ⟨hf, -⟩ := List.cons.inj heq
      cases hg f with
      | inl hgf =>
        rw [hgf] at hf
        exact hsub i a (h.cursor i n a fs (by rw [hfs, hf]))
      | inr hgf =>
        obtain ⟨d, -, hd⟩ := hgf
        rw [hd] at hf
        cases hf

/-- Another list of calls in progress. -/
theorem Sound.reframe (h : Sound s S w) {fs : List Frame} (hst : Stacked fs)
    (hcur : ∀ i n a rest, fs = .evsignalProcess i (some (n, some a)) :: rest → S i a) :
    Sound s S { w with frames := fs } :=
  ⟨h.inv.frames fs, h.evSignal, hst,
    h.signals.keep rfl fun _ e he => ⟨e, he, rfl⟩, hcur⟩

/-- What a sound step leaves. -/
abbrev StaysSound (s : EventPtr) (x : Except Halt World) : Prop :=
  Ends (fun _ => False) (fun w' => ∃ S', Sound s S' w') x

/-- A computation that keeps the account and spares the other events. -/
theorem Sound.ends {α : Type} {f : α → World} {x : Except Halt α} (h : Sound s S w)
    (hinv : Ends Unbooked (fun a => Inv (f a)) x)
    (hs : Ends (fun _ => False) (fun a => Spares P w (f a)) x) :
    Ends (fun _ => False) (fun a => ∃ S', Sound s S' (f a) ∧ ∀ i b, S i b → S' i b) x := by
  cases x with
  | error e => exact hs
  | ok a => exact h.spares hs hinv

theorem enterProcessActive_sound (h : Sound s S w) (hno : ∀ f ∈ w.frames, f.isEvsignal = false)
    (addr : Nat) : StaysSound s (enterProcessActive w addr) := by
  unfold enterProcessActive
  split
  · exact fun h => h
  · rename_i hfresh
    split
    · exact fun h => h
    · refine ⟨S, h.reframe (h.stack.push hno (by simp [Frame.isEvsignal]) ?_) ?_⟩
      · intro a ha hmem
        cases ha
        obtain ⟨f, hf, hfa⟩ := List.mem_filterMap.mp hmem
        exact hfresh (List.mem_map.mpr ⟨f, hf, hfa⟩)
      · intro i n a rest heq
        cases heq

/-- The next event is taken from the active queue. -/
theorem takeActive_sound (h : Sound s S w) {d : Draining} {rest : List Frame}
    (hframes : w.frames = .eventProcessActive d :: rest) {p : EventPtr}
    (hfirst : (w.base.queues (.active d.activeq)).tqhFirst = some p) (sys : Sys) :
    StaysSound s (takeActive w d p sys) := by
  refine (event_ends w p).bind ?_
  intro e he
  have hremoved : Ends (fun _ => False) (fun w1 => Inv w1 ∧ Spares (fun _ => False) w w1)
      (if hasBit e.evEvents Ev.persist then eventQueueRemove w p .active
        else (eventDel w p sys).map Prod.snd) := by
    split
    · obtain ⟨e', he', hflag⟩ := h.inv.activeFirst hfirst
      rw [he] at he'
      cases he'
      exact (ends_of_both (eventQueueRemove_ends h.inv he hflag)
        (eventQueueRemove_spares (fun hf => hf) w .active)).mono fun _ h => ⟨h.1.1, h.2⟩
    · exact (ends_of_both (eventDel_inv h.inv p sys)
        (eventDel_spares (fun hf => hf) w sys)).map fun _ h => h
  refine hremoved.bind ?_
  intro w1 h1
  obtain ⟨hinv1, hs1⟩ := h1
  refine (event_ends w1 p).bind ?_
  intro e1 he1
  have hset := sameBook_setEvent { e1 with evPncalls := some d.addr } he1 rfl
  have hset' : Spares (fun _ => False) w1 (w1.setEvent p { e1 with evPncalls := some d.addr }) :=
    spares_setEvent _ (fun hf => hf) he1 rfl
  obtain ⟨S', h2, -⟩ := h.spares (hs1.trans hset') (hinv1.sameBook hset)
  refine ⟨S', h2.reframe ?_ ?_⟩
  · obtain ⟨g, hg, hmap⟩ := hs1.frames
    have hst := h.stack.map hg
    rw [hframes, List.map_cons] at hst
    have htail : (w1.setEvent p { e1 with evPncalls := some d.addr }).frames.tail =
        rest.map g := by
      show w1.frames.tail = rest.map g
      rw [hmap, hframes, List.map_cons, List.tail_cons]
    rw [htail]
    exact hst.top (by simp [Frame.isEvsignal]) (hg.kind (.eventProcessActive d)).2.1.symm
  · intro i n a r heq
    cases heq

theorem processActiveTick_sound (h : Sound s S w) {d : Draining} {rest : List Frame}
    (hframes : w.frames = .eventProcessActive d :: rest) (sys : Sys) :
    StaysSound s (processActiveTick w d rest sys) := by
  have hst := h.stack
  rw [hframes] at hst
  unfold processActiveTick
  split
  · split
    · refine ⟨S, h.reframe hst.pop.1 ?_⟩
      intro i n a r heq
      have := hst.pop.2 _ (by rw [heq]; exact List.mem_cons_self)
      cases this
    · rename_i p hfirst
      exact takeActive_sound h hframes hfirst sys
  · rename_i p _
    split
    · refine ⟨S, h.reframe (hst.top (by simp [Frame.isEvsignal]) rfl) ?_⟩
      intro i n a r heq
      cases heq
    · refine (event_ends w p).bind ?_
      intro e he
      obtain ⟨S', h1, -⟩ := h.spares (P := fun _ => False)
        (spares_setEvent { e with evNcalls := Memory.wrap16 (d.ncalls - 1) }
          (fun hf => hf) he rfl)
        (h.inv.sameBook (sameBook_setEvent _ he rfl))
      refine ⟨S', h1.reframe (hst.top (by simp [Frame.isEvsignal]) rfl) ?_⟩
      intro i n a r heq
      cases heq

theorem evsignalProcessTick_sound (h : Sound s S w) {i : Nat}
    {cur : Option (Int × Option EventPtr)} {rest : List Frame}
    (hframes : w.frames = .evsignalProcess i cur :: rest) (sys : Sys) :
    StaysSound s (evsignalProcessTick w i cur rest sys) := by
  have hst := h.stack
  rw [hframes] at hst
  unfold evsignalProcessTick
  split
  · split
    · refine ⟨S, h.reframe hst.pop.1 ?_⟩
      intro j n a r heq
      have := hst.pop.2 _ (by rw [heq]; exact List.mem_cons_self)
      cases this
    · split
      · refine ⟨S, h.reframe (hst.top (by simp [Frame.isEvsignal]) rfl) ?_⟩
        intro j n a r heq
        cases heq
      · refine ⟨S, h.reframe (hst.top (by simp [Frame.isEvsignal]) rfl) ?_⟩
        intro j n a r heq
        simp only [List.cons.injEq, Frame.evsignalProcess.injEq, Option.some.injEq,
          Prod.mk.injEq] at heq
        obtain ⟨⟨rfl, -, hfirst⟩, -⟩ := heq
        exact (h.signals.within i).first a hfirst
  · refine ⟨S, ?_, h.evSignal, hst.top (by simp [Frame.isEvsignal]) rfl, ?_, ?_⟩
    · exact h.inv.sameBook ⟨rfl, rfl, rfl, rfl, rfl, fun _ => rfl⟩
    · exact h.signals.keep rfl fun _ e he => ⟨e, he, rfl⟩
    · intro j n a r heq
      cases heq
  · rename_i ncalls p
    have hp : S i p := h.cursor i ncalls p rest hframes
    refine (event_ends w p).bind ?_
    intro e _
    have hdel : Ends (fun _ => False) (fun w1 => Inv w1 ∧ Spares (fun _ => False) w w1)
        (if hasBit e.evEvents Ev.persist then .ok w else (eventDel w p sys).map Prod.snd) := by
      split
      · exact ⟨h.inv, Spares.refl _ w⟩
      · exact (ends_of_both (eventDel_inv h.inv p sys)
          (eventDel_spares (fun hf => hf) w sys)).map fun _ h => h
    refine hdel.bind ?_
    intro w1 h1
    refine (ends_of_both (eventActive_inv h1.1 p Ev.signal ncalls)
      (eventActive_spares (P := fun _ => False) (fun hf => hf) w1 Ev.signal ncalls)).bind ?_
    intro w2 h2
    have hs := h1.2.trans h2.2
    obtain ⟨S', h3, hsub⟩ := h.spares hs h2.1
    refine ⟨S', h3.reframe ?_ ?_⟩
    · obtain ⟨g, hg, hmap⟩ := hs.frames
      have hst' := hst.map hg
      have htail : w2.frames.tail = rest.map g := by
        rw [hmap, hframes, List.map_cons, List.tail_cons]
      rw [htail]
      refine hst'.top ?_ (hg.kind (.evsignalProcess i (some (ncalls, some p)))).2.1.symm
      intro _
      rw [(hg.kind _).1]
      rfl
    · intro j n a r heq
      simp only [List.cons.injEq, Frame.evsignalProcess.injEq, Option.some.injEq,
        Prod.mk.injEq] at heq
      obtain ⟨⟨rfl, -, hnext⟩, -⟩ := heq
      exact hsub i a ((h.signals.within i).next p hp a hnext)

theorem activeIf_sound (h : Sound s S w) (ev : Option EventPtr) (res : Nat) :
    StaysSound s (activeIf w ev res) := by
  cases ev with
  | none => exact ⟨S, h⟩
  | some p =>
    refine (h.ends (f := id) (eventActive_inv h.inv p res 1)
      (eventActive_spares (P := fun _ => False) (fun hf => hf) w res 1)).mono ?_
    intro w' h'
    obtain ⟨S', h', -⟩ := h'
    exact ⟨S', h'⟩

/-- No call of `evsignal_process` is in progress. -/
theorem Sound.noEvsignal (h : Sound s S w)
    (htop : ∀ f rest, w.frames = f :: rest → f.isEvsignal = false) :
    ∀ f ∈ w.frames, f.isEvsignal = false := by
  cases hfs : w.frames with
  | nil => simp
  | cons f fs =>
    intro f' hf'
    cases List.mem_cons.mp hf' with
    | inl heq =>
      rw [heq]
      exact htop f fs hfs
    | inr hmem => exact (h.stack.below f fs hfs).1 f' hmem

theorem programRuns_top (hruns : w.programRuns = true) :
    ∀ f rest, w.frames = f :: rest → f.isEvsignal = false := by
  intro f rest hfs
  rw [World.programRuns, hfs] at hruns
  cases f with
  | eventBaseLoop => rfl
  | evsignalProcess i cur => cases hruns
  | eventProcessActive d => rfl

theorem loopRuns_top (hruns : w.loopRuns = true) :
    ∃ rest, w.frames = .eventBaseLoop :: rest := by
  unfold World.loopRuns at hruns
  split at hruns
  · exact ⟨_, by assumption⟩
  · cases hruns

/-- **Every step leaves a sound state.** -/
theorem step_sound (h : Sound s S w) (a : Act) : StaysSound s (step w a) := by
  have hdrop : ∀ {α : Type} {f : α → World} {x : Except Halt α},
      Ends (fun _ => False) (fun a => ∃ S', Sound s S' (f a) ∧ ∀ i b, S i b → S' i b) x →
      Ends (fun _ => False) (fun a => ∃ S', Sound s S' (f a)) x := by
    intro α f x hx
    refine hx.mono ?_
    intro a ha
    obtain ⟨S', hS', -⟩ := ha
    exact ⟨S', hS'⟩
  cases a with
  | eventSet p fd events =>
    refine onlyIf_ends (fun hf => hf) fun _ => ?_
    have hinv := eventSet_inv h.inv p fd events
    unfold eventSet at hinv ⊢
    split
    · exact fun hf => hf
    · rename_i hnone
      rw [hnone] at hinv
      refine ⟨S, hinv, h.evSignal, h.stack, h.signals.keep rfl ?_, h.cursor⟩
      intro q e he
      have hne : q ≠ p := by
        intro hqp
        rw [hqp, hnone] at he
        cases he
      exact ⟨e, by simp [World.setEvent, hne, he], rfl⟩
  | eventAdd p tv sys =>
    refine onlyIf_ends (fun hf => hf) fun _ => Ends.map (hdrop (h.ends (f := Prod.snd)
      (eventAdd_inv h.inv p tv sys)
      (eventAdd_spares (P := fun _ => False) (fun hf => hf) (fun hf => hf) tv sys))) fun _ h => h
  | eventDel p sys =>
    refine onlyIf_ends (fun hf => hf) fun _ => Ends.map (hdrop (h.ends (f := Prod.snd)
      (eventDel_inv h.inv p sys)
      (eventDel_spares (P := fun _ => False) (fun hf => hf) w sys))) fun _ h => h
  | eventActive p res ncalls =>
    exact onlyIf_ends (fun hf => hf) fun _ => hdrop (h.ends (f := id)
      (eventActive_inv h.inv p res ncalls)
      (eventActive_spares (P := fun _ => False) (fun hf => hf) w res ncalls))
  | eventProcessActive addr =>
    exact onlyIf_ends (fun hf => hf) fun hruns =>
      enterProcessActive_sound h (h.noEvsignal (programRuns_top hruns)) addr
  | eventBaseLoop =>
    refine onlyIf_ends (fun hf => hf) fun hruns => ⟨S, ?_, h.evSignal, ?_, ?_, ?_⟩
    · exact h.inv.sameBook ⟨rfl, rfl, rfl, rfl, rfl, fun _ => rfl⟩
    · exact h.stack.push (h.noEvsignal (programRuns_top hruns)) (by simp [Frame.isEvsignal])
        (by simp [Frame.addr?])
    · exact h.signals.keep rfl fun _ e he => ⟨e, he, rfl⟩
    · intro i n a rest heq
      cases heq
  | callbackReturns =>
    show StaysSound s (callbackReturns w)
    unfold callbackReturns
    split
    · rename_i d rest hframes
      refine onlyIf_ends (fun hf => hf) fun _ => ⟨S, h.reframe ?_ ?_⟩
      · have hst := h.stack
        rw [hframes] at hst
        exact hst.top (by simp [Frame.isEvsignal]) rfl
      · intro i n a r heq
        cases heq
    · exact fun hf => hf
  | signal signal =>
    refine onlyIf_ends (fun hf => hf) fun _ => ⟨S, ?_⟩
    unfold evsignalHandler
    split
    · exact ⟨h.inv.sameBook ⟨rfl, rfl, rfl, rfl, rfl, fun _ => rfl⟩, h.evSignal, h.stack,
        h.signals.keep rfl fun _ e he => ⟨e, he, rfl⟩, h.cursor⟩
    · exact h
  | loopSignals =>
    refine onlyIf_ends (fun hf => hf) fun hruns => ?_
    obtain ⟨rest, hframes⟩ := loopRuns_top hruns
    refine ⟨S, ?_, h.evSignal, ?_, ?_, ?_⟩
    · exact h.inv.sameBook ⟨rfl, rfl, rfl, rfl, rfl, fun _ => rfl⟩
    · refine h.stack.push (h.noEvsignal ?_) ?_ (by simp [Frame.addr?])
      · intro f r heq
        rw [hframes] at heq
        obtain ⟨rfl, -⟩ := List.cons.inj heq
        rfl
      · intro _
        rw [hframes]
        rfl
    · exact h.signals.keep rfl fun _ e he => ⟨e, he, rfl⟩
    · intro i n a r heq
      cases heq
  | loopReport fd hupErr epollin epollout =>
    refine onlyIf_ends (fun hf => hf) fun _ => ?_
    refine (activeIf_sound h _ Ev.read).bind ?_
    intro w1 h1
    obtain ⟨S1, h1⟩ := h1
    exact activeIf_sound h1 _ Ev.write
  | loopProcessActive addr =>
    refine onlyIf_ends (fun hf => hf) fun hruns => ?_
    obtain ⟨rest, hframes⟩ := loopRuns_top hruns
    unfold loopProcessActive
    split
    · refine enterProcessActive_sound h (h.noEvsignal ?_) addr
      intro f r heq
      rw [hframes] at heq
      obtain ⟨rfl, -⟩ := List.cons.inj heq
      rfl
    · exact ⟨S, h⟩
  | tick sys =>
    show StaysSound s (tick w sys)
    unfold tick
    split
    · rename_i hframes
      exact evsignalProcessTick_sound h hframes sys
    · rename_i hframes
      exact onlyIf_ends (fun hf => hf) fun _ => processActiveTick_sound h hframes sys
    · exact fun hf => hf

/-- `event_init` leaves a sound state. -/
theorem eventInit_sound (raw : World) (fd : Nat) :
    Sound raw.base.sig.evSignal (fun _ _ => False) (eventInit raw fd) := by
  refine ⟨eventInit_inv raw fd, rfl, ⟨?_, List.nodup_nil⟩, ⟨?_, fun _ _ h => h.elim⟩, ?_⟩
  · intro f rest heq
    cases heq
  · exact fun i => TailQ.within_init _
  · intro i n a rest heq
    cases heq

end Donkeyji.MyEvent
