/-
Donkeyji.MyEvent.EvsignalTheorems — whether a caught signal is lost.

Between two passes of `evsignal_process`, the calls that were passed on to a
persistent event and those still recorded should add up to the runs of the
handler (`NoneLost`). They do as long as the handler of a signal does not run
between the statement that reads its count and the one that clears it, and no
count outgrows the `short` of `event_active` (`no_signal_lost`).

The flag `evsignal_caught` is never lost: it is cleared before the first count
is read (`flagged_step`).
-/
import Donkeyji.MyEvent.EventSilenceTheorems
import Donkeyji.MyEvent.EvsignalFrameTheorems

namespace Donkeyji.MyEvent

open Runs Memory

/-! ## What is to hold -/

/-- The event stays when it is activated. -/
def persists (w : World) (p : EventPtr) : Bool :=
  match w.events p with
  | some e => hasBit e.evEvents Ev.persist
  | none => false

/-- Some event of the signal is persistent. -/
def Awaited (evs : Nat → List EventPtr) (w : World) (i : Nat) : Prop :=
  ∃ p ∈ evs i, persists w p = true

/-- The events of each signal are on its list, and the handler has its base. -/
structure SignalEvents (evs : Nat → List EventPtr) (w : World) : Prop where
  lists : ∀ i, (w.base.sig.evsigevents i).Represents (evs i)
  set : ∀ i, ∀ p ∈ evs i, ∃ e, w.events p = some e
  base : w.evsignalBase = true

/-- What was passed on and what is recorded are what was caught, and what is recorded is
flagged. -/
structure NoneLost (evs : Nat → List EventPtr) (s : Catching) : Prop where
  counts : ∀ i, ∀ p ∈ evs i, persists s.w p = true →
    s.passed i p + s.w.base.sig.evsigcaught i = s.handled i
  flag : ∀ i, s.w.base.sig.evsigcaught i ≠ 0 → s.w.base.sig.evsignalCaught = true

/-- The signal whose count was read, is not zero, and is not cleared yet; and this count. -/
def Point.inside : Point → Option (Nat × Int)
  | .testNcalls i ncalls => if ncalls = 0 then none else some (i, ncalls)
  | .firstEvent i ncalls | .eventLoop i ncalls _ | .nextEvent i ncalls _
  | .testPersist i ncalls _ _ | .delete i ncalls _ _ | .activate i ncalls _ _
  | .clearCaught i ncalls => some (i, ncalls)
  | _ => none

/-- The signal whose count is read next. -/
def Point.reads : Point → Option Nat
  | .readCaught i => some i
  | _ => none

/-- The handler of a signal with a persistent event does not run between the reading and the
clearing of its count, nor at the largest `sig_atomic_t`, and a count that is read is a `short`. -/
def InTime (evs : Nat → List EventPtr) (s : Catching) : CatchAct → Prop
  | .handler i => Awaited evs s.w i →
    s.point.inside.map Prod.fst ≠ some i ∧ s.w.base.sig.evsigcaught i < 2147483647
  | .statement _ => ∀ i ∈ s.point.reads, Awaited evs s.w i → s.w.base.sig.evsigcaught i ≤ 32767
  | _ => True

instance (evs : Nat → List EventPtr) (w : World) (i : Nat) : Decidable (Awaited evs w i) :=
  inferInstanceAs (Decidable (∃ p ∈ evs i, persists w p = true))

instance (evs : Nat → List EventPtr) (s : Catching) : ∀ a, Decidable (InTime evs s a)
  | .handler i => inferInstanceAs (Decidable (Awaited evs s.w i →
      s.point.inside.map Prod.fst ≠ some i ∧ s.w.base.sig.evsigcaught i < 2147483647))
  | .statement _ => inferInstanceAs (Decidable (∀ i ∈ s.point.reads,
      Awaited evs s.w i → s.w.base.sig.evsigcaught i ≤ 32767))
  | .call => isTrue trivial
  | .elsewhere _ => isTrue trivial

/-! ## The events -/

variable {evs : Nat → List EventPtr} {w w' : World} {pt pt' : Point} {s s' : Catching}

/-- Whether an event is persistent does not change. -/
theorem KeepsSignals.persists_eq (h : KeepsSignals w w') {p : EventPtr} {e : Event}
    (he : w.events p = some e) : persists w' p = persists w p := by
  obtain ⟨e', he', hk⟩ := h.kinds p e he
  simp [persists, he, he', hk]

theorem SignalEvents.keep (h : SignalEvents evs w) (hk : KeepsSignals w w') :
    SignalEvents evs w' := by
  refine ⟨by rw [hk.sig]; exact h.lists, ?_, hk.base h.base⟩
  intro i p hp
  obtain ⟨e, he⟩ := h.set i p hp
  obtain ⟨e', he', -⟩ := hk.kinds p e he
  exact ⟨e', he'⟩

theorem signalEvents_setCaught (h : SignalEvents evs w) (flag : Bool) :
    SignalEvents evs (w.setCaught flag) := ⟨h.lists, h.set, h.base⟩

theorem signalEvents_setCount (h : SignalEvents evs w) (i : Nat) (n : Int) :
    SignalEvents evs (w.setCount i n) := ⟨h.lists, h.set, h.base⟩

/-- What the handler writes. -/
theorem handlerRuns_eq (hbase : w.evsignalBase = true) (i : Nat) :
    handlerRuns w i =
      (w.setCaught true).setCount i (wrap32 (w.base.sig.evsigcaught i + 1)) := by
  simp [handlerRuns, evsignalHandler, hbase, World.setCount, World.setCaught]

/-- **A statement that writes neither the flag nor a count** keeps the signals. -/
theorem statement_keepsSignals {sys : Sys} (h : statement w sys pt = some (w', pt')) :
    (pt = .clearFlag ∧ w' = w.setCaught false) ∨
      (∃ i n, pt = .clearCaught i n ∧ w' = w.setCount i 0) ∨ KeepsSignals w w' := by
  cases pt with
  | out => cases h
  | clearFlag =>
    cases h
    exact Or.inl ⟨rfl, rfl⟩
  | clearCaught i n =>
    cases h
    exact Or.inr (Or.inl ⟨i, n, rfl, rfl⟩)
  | testPersist i n ev nx =>
    obtain ⟨e, -, hst⟩ := Option.bind_eq_some_iff.mp h
    cases hst
    exact Or.inr (Or.inr (KeepsSignals.refl w))
  | delete i n ev nx =>
    obtain ⟨r, hdel, hst⟩ := Option.bind_eq_some_iff.mp h
    cases hst
    exact Or.inr (Or.inr ((eventDel_keepsSignals w ev sys).of_toOption hdel))
  | activate i n ev nx =>
    obtain ⟨w1, hact, hst⟩ := Option.bind_eq_some_iff.mp h
    cases hst
    exact Or.inr (Or.inr ((eventActive_keepsSignals w ev Ev.signal n).of_toOption hact))
  | eventLoop i n ev =>
    cases ev with
    | none =>
      cases h
      exact Or.inr (Or.inr (KeepsSignals.refl w))
    | some ev =>
      cases h
      exact Or.inr (Or.inr (KeepsSignals.refl w))
  | signalLoop | readCaught | testNcalls | firstEvent | nextEvent =>
    cases h
    exact Or.inr (Or.inr (KeepsSignals.refl w))

theorem SignalEvents.statement (h : SignalEvents evs w) {sys : Sys}
    (hst : statement w sys pt = some (w', pt')) : SignalEvents evs w' := by
  rcases statement_keepsSignals hst with ⟨-, rfl⟩ | ⟨i, n, -, rfl⟩ | hk
  · exact signalEvents_setCaught h false
  · exact signalEvents_setCount h i 0
  · exact h.keep hk

/-- **The events of the signals stay.** -/
theorem signalEvents_step (h : SignalEvents evs s.w) {a : CatchAct}
    (hs : catchStep s a = some s') : SignalEvents evs s'.w := by
  cases a with
  | call =>
    obtain ⟨-, hs⟩ := Option.ite_none_right_eq_some.mp hs
    cases hs
    exact h
  | statement sys =>
    obtain ⟨⟨w1, pt1⟩, hst, hs⟩ := Option.bind_eq_some_iff.mp hs
    cases hs
    exact h.statement hst
  | handler i =>
    obtain ⟨-, hs⟩ := Option.ite_none_right_eq_some.mp hs
    cases hs
    show SignalEvents evs (handlerRuns s.w i)
    rw [handlerRuns_eq h.base]
    exact signalEvents_setCount (signalEvents_setCaught h true) i _
  | elsewhere a =>
    obtain ⟨hleaves, hs⟩ := Option.ite_none_right_eq_some.mp hs
    obtain ⟨w1, hnext, rfl⟩ := Option.map_eq_some_iff.mp hs
    exact h.keep (next_keepsSignals hleaves.2 hnext)

/-! ## The flag -/

/-- The pass has not cleared the count of the signal yet, and will. -/
def Point.Ahead (i : Nat) : Point → Prop
  | .out => False
  | .clearFlag => True
  | .signalLoop j | .readCaught j => j ≤ i
  | .testNcalls j n => j < i ∨ (j = i ∧ n ≠ 0)
  | .firstEvent j _ | .eventLoop j _ _ | .nextEvent j _ _ | .testPersist j _ _ _
  | .delete j _ _ _ | .activate j _ _ _ | .clearCaught j _ => j ≤ i

/-- What is recorded is flagged, or ahead. -/
structure Flagged (w : World) (pt : Point) : Prop where
  range : ∀ i, w.base.sig.evsigcaught i ≠ 0 → 1 ≤ i ∧ i < NSIG
  seen : ∀ i, w.base.sig.evsigcaught i ≠ 0 → w.base.sig.evsignalCaught = true ∨ pt.Ahead i

/-- A step over a statement that leaves no count behind. -/
theorem Flagged.move (h : Flagged w pt) (hsig : w'.base.sig = w.base.sig)
    (hahead : ∀ i, i < NSIG → w.base.sig.evsigcaught i ≠ 0 → pt.Ahead i → pt'.Ahead i) :
    Flagged w' pt' := by
  refine ⟨by rw [hsig]; exact h.range, ?_⟩
  intro i hi
  rw [hsig] at hi ⊢
  exact (h.seen i hi).imp_right (hahead i (h.range i hi).2 hi)

theorem flagged_statement (h : Flagged w pt) {sys : Sys}
    (hst : statement w sys pt = some (w', pt')) : Flagged w' pt' := by
  cases pt with
  | out => cases hst
  | clearFlag =>
    cases hst
    exact ⟨h.range, fun i hi => Or.inr (h.range i hi).1⟩
  | signalLoop j =>
    cases hst
    refine h.move rfl fun i hi _ hj => ?_
    have hlt : j < NSIG := lt_of_le_of_lt hj hi
    rwa [if_pos hlt]
  | readCaught j =>
    cases hst
    refine h.move rfl fun i _ hcaught hj => ?_
    rcases Nat.lt_or_eq_of_le hj with hlt | rfl
    · exact Or.inl hlt
    · exact Or.inr ⟨rfl, hcaught⟩
  | testNcalls j n =>
    cases hst
    refine h.move rfl fun i _ _ hj => ?_
    rcases hj with hlt | ⟨rfl, hn⟩
    · split
      · exact hlt
      · exact hlt.le
    · rw [if_neg hn]
      exact le_refl j
  | clearCaught j n =>
    cases hst
    have hother : ∀ i, (w.setCount j 0).base.sig.evsigcaught i ≠ 0 →
        i ≠ j ∧ w.base.sig.evsigcaught i ≠ 0 := by
      intro i hi
      by_cases hij : i = j
      · simp [World.setCount, hij] at hi
      · exact ⟨hij, by simpa [World.setCount, hij] using hi⟩
    refine ⟨fun i hi => h.range i (hother i hi).2, ?_⟩
    intro i hi
    obtain ⟨hij, hcaught⟩ := hother i hi
    refine (h.seen i hcaught).imp_right fun hle => ?_
    exact Nat.lt_of_le_of_ne hle (Ne.symm hij)
  | firstEvent j n =>
    cases hst
    exact h.move rfl fun _ _ _ hj => hj
  | eventLoop j n ev =>
    cases ev with
    | none =>
      cases hst
      exact h.move rfl fun _ _ _ hj => hj
    | some ev =>
      cases hst
      exact h.move rfl fun _ _ _ hj => hj
  | nextEvent j n ev =>
    cases hst
    exact h.move rfl fun _ _ _ hj => hj
  | testPersist j n ev nx =>
    obtain ⟨e, -, hst⟩ := Option.bind_eq_some_iff.mp hst
    cases hst
    refine h.move rfl fun _ _ _ hj => ?_
    split
    · exact hj
    · exact hj
  | delete j n ev nx =>
    obtain ⟨r, hdel, hst⟩ := Option.bind_eq_some_iff.mp hst
    cases hst
    exact h.move ((eventDel_keepsSignals w ev sys).of_toOption hdel).sig fun _ _ _ hj => hj
  | activate j n ev nx =>
    obtain ⟨w1, hact, hst⟩ := Option.bind_eq_some_iff.mp hst
    cases hst
    exact h.move ((eventActive_keepsSignals w ev Ev.signal n).of_toOption hact).sig
      fun _ _ _ hj => hj

/-- **The flag is never lost**, whenever the handler runs. -/
theorem flagged_step (hev : SignalEvents evs s.w) (h : Flagged s.w s.point) {a : CatchAct}
    (hs : catchStep s a = some s') : Flagged s'.w s'.point := by
  cases a with
  | call =>
    obtain ⟨-, hs⟩ := Option.ite_none_right_eq_some.mp hs
    cases hs
    exact h.move rfl fun _ _ _ _ => trivial
  | statement sys =>
    obtain ⟨⟨w1, pt1⟩, hst, hs⟩ := Option.bind_eq_some_iff.mp hs
    cases hs
    exact flagged_statement h hst
  | handler i =>
    obtain ⟨hi, hs⟩ := Option.ite_none_right_eq_some.mp hs
    cases hs
    show Flagged (handlerRuns s.w i) s.point
    rw [handlerRuns_eq hev.base]
    refine ⟨?_, fun _ _ => Or.inl rfl⟩
    intro j hj
    by_cases hij : j = i
    · rwa [hij]
    · exact h.range j (by simpa [World.setCount, World.setCaught, hij] using hj)
  | elsewhere a =>
    obtain ⟨hleaves, hs⟩ := Option.ite_none_right_eq_some.mp hs
    obtain ⟨w1, hnext, rfl⟩ := Option.map_eq_some_iff.mp hs
    exact h.move (next_keepsSignals hleaves.2 hnext).sig fun _ _ _ hj => hj

/-! ## The counts -/

/-- The events of the signal that the pass has still to activate. -/
def Point.Left (l todo : List EventPtr) : Point → Prop
  | .testNcalls _ _ | .firstEvent _ _ => todo = l
  | .eventLoop _ _ ev => todo <:+ l ∧ ev = todo.head?
  | .nextEvent _ _ ev => todo <:+ l ∧ some ev = todo.head?
  | .testPersist _ _ ev next | .delete _ _ ev next | .activate _ _ ev next =>
    todo <:+ l ∧ ∃ rest, todo = ev :: rest ∧ next = rest.head?
  | .clearCaught _ _ => todo = []
  | _ => True

/-- Outside the pass over a signal, what was passed on and what is recorded are what was caught;
inside it, the events that are left lack the count that was read. -/
structure Counted (evs : Nat → List EventPtr) (s : Catching) : Prop where
  nonneg : ∀ i, Awaited evs s.w i → 0 ≤ s.w.base.sig.evsigcaught i
  outside : ∀ i, s.point.inside.map Prod.fst ≠ some i → ∀ p ∈ evs i, persists s.w p = true →
    s.passed i p + s.w.base.sig.evsigcaught i = s.handled i
  inside : ∀ i n, s.point.inside = some (i, n) → ∃ todo, s.point.Left (evs i) todo ∧
    ∀ p ∈ evs i, persists s.w p = true →
      s.w.base.sig.evsigcaught i = n ∧ wrap16 n = n ∧
        s.passed i p + (if p ∈ todo then n else 0) = s.handled i

/-- The same events are persistent, and the same counts are recorded. -/
structure SameCounts (evs : Nat → List EventPtr) (w w' : World) : Prop where
  caught : w'.base.sig.evsigcaught = w.base.sig.evsigcaught
  persists : ∀ i, ∀ p ∈ evs i, persists w' p = persists w p

theorem KeepsSignals.sameCounts (h : KeepsSignals w w') (hev : SignalEvents evs w) :
    SameCounts evs w w' := by
  refine ⟨by rw [h.sig], ?_⟩
  intro i p hp
  obtain ⟨e, he⟩ := hev.set i p hp
  exact h.persists_eq he

theorem SameCounts.awaited (h : SameCounts evs w w') {i : Nat} :
    Awaited evs w' i ↔ Awaited evs w i := by
  constructor
  · rintro ⟨p, hp, hper⟩
    exact ⟨p, hp, by rw [← h.persists i p hp]; exact hper⟩
  · rintro ⟨p, hp, hper⟩
    exact ⟨p, hp, by rw [h.persists i p hp]; exact hper⟩

/-- A step within the pass over a signal, or outside of all. -/
theorem Counted.move (h : Counted evs s) (hw : SameCounts evs s.w w')
    (hin : pt'.inside = s.point.inside)
    (hleft : ∀ i n todo, s.point.inside = some (i, n) → s.point.Left (evs i) todo →
      pt'.Left (evs i) todo) : Counted evs { s with w := w', point := pt' } := by
  refine ⟨?_, ?_, ?_⟩
  · intro i hi
    show 0 ≤ w'.base.sig.evsigcaught i
    rw [hw.caught]
    exact h.nonneg i (hw.awaited.mp hi)
  · intro i hi p hp hper
    show s.passed i p + w'.base.sig.evsigcaught i = s.handled i
    rw [hw.caught]
    refine h.outside i (by rw [← hin]; exact hi) p hp ?_
    rw [← hw.persists i p hp]
    exact hper
  · intro i n hi
    have hi' : s.point.inside = some (i, n) := by
      rw [← hin]
      exact hi
    obtain ⟨todo, htodo, hcounts⟩ := h.inside i n hi'
    refine ⟨todo, hleft i n todo hi' htodo, ?_⟩
    intro p hp hper
    show w'.base.sig.evsigcaught i = n ∧ _
    rw [hw.caught]
    refine hcounts p hp ?_
    rw [← hw.persists i p hp]
    exact hper

variable {passed : Nat → EventPtr → Int} {handled : Nat → Int} {j : Nat} {n : Int}

/-- A count is read: all events of the signal lack it, unless it is zero. -/
theorem counted_read (h : Counted evs ⟨w, .readCaught j, passed, handled⟩)
    (hshort : Awaited evs w j → w.base.sig.evsigcaught j ≤ 32767) :
    Counted evs ⟨w, .testNcalls j (w.base.sig.evsigcaught j), passed, handled⟩ := by
  have heven := fun i => h.outside i (by simp [Point.inside])
  refine ⟨h.nonneg, fun i _ => heven i, ?_⟩
  intro i n hin
  have hcaught : w.base.sig.evsigcaught j ≠ 0 ∧ j = i ∧ w.base.sig.evsigcaught j = n := by
    simpa [Point.inside, Option.ite_none_left_eq_some] using hin
  obtain ⟨-, rfl, rfl⟩ := hcaught
  refine ⟨evs j, rfl, ?_⟩
  intro p hp hper
  have hlow := h.nonneg j ⟨p, hp, hper⟩
  have hhigh := hshort ⟨p, hp, hper⟩
  have hwrap : wrap16 (w.base.sig.evsigcaught j) = w.base.sig.evsigcaught j := by
    simp only at hlow
    unfold wrap16
    omega
  exact ⟨rfl, hwrap, by rw [if_pos hp]; exact heven j p hp hper⟩

/-- An event is activated: it does not lack the count any more. -/
theorem counted_activate {ev : EventPtr} {nx : Option EventPtr}
    (h : Counted evs ⟨w, .activate j n ev nx, passed, handled⟩) (hev : SignalEvents evs w)
    (hw : SameCounts evs w w') :
    Counted evs ⟨w', .eventLoop j n nx, addPassed passed (some (j, ev, wrap16 n)), handled⟩ := by
  have hother : ∀ i, i ≠ j → addPassed passed (some (j, ev, wrap16 n)) i = passed i := by
    intro i hij
    simp [addPassed, hij]
  refine ⟨?_, ?_, ?_⟩
  · intro i hi
    show 0 ≤ w'.base.sig.evsigcaught i
    rw [hw.caught]
    exact h.nonneg i (hw.awaited.mp hi)
  · intro i hi p hp hper
    have hij : i ≠ j := fun hij => hi (by simp [Point.inside, hij])
    have heven := h.outside i (by simpa [Point.inside] using hij.symm) p hp
      (by rw [← hw.persists i p hp]; exact hper)
    show addPassed passed (some (j, ev, wrap16 n)) i p + w'.base.sig.evsigcaught i = handled i
    rw [hother i hij, hw.caught]
    exact heven
  · intro i m hin
    obtain ⟨rfl, rfl⟩ : j = i ∧ n = m := by simpa [Point.inside] using hin
    obtain ⟨todo, ⟨hsuffix, rest, rfl, hnext⟩, hcounts⟩ := h.inside j n rfl
    have hnodup : (ev :: rest).Nodup := (hev.lists j).nodup.sublist hsuffix.sublist
    refine ⟨rest, ⟨(List.suffix_cons ev rest).trans hsuffix, hnext⟩, ?_⟩
    intro p hp hper
    obtain ⟨hcaught, hwrap, hsum⟩ := hcounts p hp (by rw [← hw.persists j p hp]; exact hper)
    refine ⟨by rw [hw.caught]; exact hcaught, hwrap, ?_⟩
    by_cases hpe : p = ev
    · subst hpe
      have hnot : p ∉ rest := (List.nodup_cons.mp hnodup).1
      simp only [List.mem_cons_self, if_true] at hsum
      simp [addPassed, hnot, hwrap, hsum]
    · simpa [addPassed, hpe] using hsum

/-- The count is cleared: nothing lacks it any more. -/
theorem counted_clear (h : Counted evs ⟨w, .clearCaught j n, passed, handled⟩) :
    Counted evs ⟨w.setCount j 0, .signalLoop (j + 1), passed, handled⟩ := by
  refine ⟨?_, ?_, fun i m hin => by cases hin⟩
  · intro i hi
    by_cases hij : i = j
    · simp [World.setCount, hij]
    · simpa [World.setCount, hij] using h.nonneg i hi
  · intro i _ p hp hper
    by_cases hij : i = j
    · subst hij
      obtain ⟨todo, rfl, hcounts⟩ := h.inside i n rfl
      obtain ⟨-, -, hsum⟩ := hcounts p hp hper
      simpa [World.setCount] using hsum
    · have heven := h.outside i (by simpa [Point.inside] using Ne.symm hij) p hp hper
      simpa [World.setCount, hij] using heven

theorem counted_statement (h : Counted evs ⟨w, pt, passed, handled⟩) (hev : SignalEvents evs w)
    {sys : Sys} (hgood : InTime evs ⟨w, pt, passed, handled⟩ (.statement sys))
    (hst : statement w sys pt = some (w', pt')) :
    Counted evs ⟨w', pt', addPassed passed pt.passes, handled⟩ := by
  have hsame : SameCounts evs w w := ⟨rfl, fun _ _ _ => rfl⟩
  cases pt with
  | out => cases hst
  | clearFlag =>
    cases hst
    exact h.move ⟨rfl, fun _ _ _ => rfl⟩ rfl fun _ _ _ hin => by cases hin
  | signalLoop i =>
    cases hst
    refine h.move hsame ?_ fun _ _ _ hin => by cases hin
    split <;> rfl
  | readCaught i =>
    cases hst
    exact counted_read h (hgood i rfl)
  | testNcalls i m =>
    cases hst
    by_cases hm : m = 0
    · rw [if_pos hm]
      refine h.move hsame (by simp [Point.inside, hm]) fun _ _ _ hin => ?_
      simp [Point.inside, hm] at hin
    · rw [if_neg hm]
      exact h.move hsame (by simp [Point.inside, hm]) fun _ _ _ _ htodo => htodo
  | firstEvent i m =>
    cases hst
    refine h.move hsame rfl fun k _ todo hin htodo => ?_
    cases hin
    have htodo' : todo = evs i := htodo
    subst htodo'
    exact ⟨List.suffix_rfl, (hev.lists i).first⟩
  | eventLoop i m ev =>
    cases ev with
    | none =>
      cases hst
      refine h.move hsame rfl fun _ _ todo _ htodo => ?_
      exact List.head?_eq_none_iff.mp htodo.2.symm
    | some ev =>
      cases hst
      exact h.move hsame rfl fun _ _ _ _ htodo => htodo
  | nextEvent i m ev =>
    cases hst
    refine h.move hsame rfl fun k _ todo hin htodo => ?_
    cases hin
    obtain ⟨⟨done, hdone⟩, hhead⟩ := htodo
    obtain ⟨rest, rfl⟩ : ∃ rest, todo = ev :: rest := by
      cases todo with
      | nil => cases hhead
      | cons a rest =>
        cases hhead
        exact ⟨rest, rfl⟩
    refine ⟨⟨done, hdone⟩, rest, rfl, ?_⟩
    have hlist := hev.lists i
    rw [← hdone] at hlist
    exact hlist.next
  | testPersist i m ev nx =>
    obtain ⟨e, -, hst⟩ := Option.bind_eq_some_iff.mp hst
    cases hst
    refine h.move hsame ?_ fun _ _ _ _ htodo => ?_
    · split <;> rfl
    · split
      · exact htodo
      · exact htodo
  | delete i m ev nx =>
    obtain ⟨r, hdel, hst⟩ := Option.bind_eq_some_iff.mp hst
    cases hst
    have hk : KeepsSignals w r.2 := (eventDel_keepsSignals w ev sys).of_toOption hdel
    exact h.move (hk.sameCounts hev) rfl fun _ _ _ _ htodo => htodo
  | activate i m ev nx =>
    obtain ⟨w1, hact, hst⟩ := Option.bind_eq_some_iff.mp hst
    cases hst
    have hk := (eventActive_keepsSignals w ev Ev.signal m).of_toOption hact
    exact counted_activate h hev (hk.sameCounts hev)
  | clearCaught i m =>
    cases hst
    exact counted_clear h

/-- The handler runs in time: what it adds is recorded. -/
theorem counted_handler {i : Nat} (h : Counted evs s) (hbase : s.w.evsignalBase = true)
    (hgood : InTime evs s (.handler i)) :
    Counted evs { s with
      w := handlerRuns s.w i
      handled := Function.update s.handled i (s.handled i + 1) } := by
  rw [handlerRuns_eq hbase]
  have hwrap : Awaited evs s.w i → wrap32 (s.w.base.sig.evsigcaught i + 1) =
      s.w.base.sig.evsigcaught i + 1 := by
    intro hi
    have hlow := h.nonneg i hi
    have hhigh := (hgood hi).2
    unfold wrap32
    omega
  refine ⟨?_, ?_, ?_⟩
  · intro k hk
    have hlow := h.nonneg k hk
    by_cases hki : k = i
    · subst hki
      have hnext : 0 ≤ wrap32 (s.w.base.sig.evsigcaught k + 1) := by
        rw [hwrap hk]
        omega
      simpa [World.setCount, World.setCaught] using hnext
    · simpa [World.setCount, World.setCaught, hki] using hlow
  · intro k hk p hp hper
    have heven := h.outside k hk p hp hper
    by_cases hki : k = i
    · subst hki
      have hnext := hwrap ⟨p, hp, hper⟩
      simp only [World.setCount, World.setCaught, Function.update_self]
      omega
    · simpa [World.setCount, World.setCaught, hki] using heven
  · intro k n hk
    obtain ⟨todo, htodo, hcounts⟩ := h.inside k n hk
    refine ⟨todo, htodo, ?_⟩
    intro p hp hper
    have hki : k ≠ i := by
      rintro rfl
      exact (hgood ⟨p, hp, hper⟩).1 (by rw [hk]; rfl)
    simpa [World.setCount, World.setCaught, hki] using hcounts p hp hper

/-- **Steps in time keep the counts.** -/
theorem counted_step (hev : SignalEvents evs s.w) (h : Counted evs s) {a : CatchAct}
    (hgood : InTime evs s a) (hs : catchStep s a = some s') : Counted evs s' := by
  cases a with
  | call =>
    obtain ⟨⟨hout, -⟩, hs⟩ := Option.ite_none_right_eq_some.mp hs
    cases hs
    refine h.move ⟨rfl, fun _ _ _ => rfl⟩ (by rw [hout]; rfl) fun _ _ _ hin => ?_
    rw [hout] at hin
    cases hin
  | statement sys =>
    obtain ⟨⟨w1, pt1⟩, hst, hs⟩ := Option.bind_eq_some_iff.mp hs
    cases hs
    exact counted_statement h hev hgood hst
  | handler i =>
    obtain ⟨-, hs⟩ := Option.ite_none_right_eq_some.mp hs
    cases hs
    exact counted_handler h hev.base hgood
  | elsewhere a =>
    obtain ⟨⟨-, hleaves⟩, hs⟩ := Option.ite_none_right_eq_some.mp hs
    obtain ⟨w1, hnext, rfl⟩ := Option.map_eq_some_iff.mp hs
    exact h.move ((next_keepsSignals hleaves hnext).sameCounts hev) rfl fun _ _ _ _ htodo => htodo

/-! ## Runs -/

/-- All that steps in time keep. -/
structure Caught (evs : Nat → List EventPtr) (s : Catching) : Prop where
  events : SignalEvents evs s.w
  flagged : Flagged s.w s.point
  counted : Counted evs s

theorem caught_start (hev : SignalEvents evs w) (hzero : ∀ i, w.base.sig.evsigcaught i = 0) :
    Caught evs (.start w) := by
  have hnone : ∀ i, ¬ (Catching.start w).w.base.sig.evsigcaught i ≠ 0 := fun i hi => hi (hzero i)
  refine ⟨hev, ⟨fun i hi => absurd hi (hnone i), fun i hi => absurd hi (hnone i)⟩,
    ⟨fun i _ => (hzero i).ge, ?_, fun i n hin => by cases hin⟩⟩
  intro i _ p _ _
  simp [Catching.start, hzero i]

theorem caught_step (h : Caught evs s) {a : CatchAct} (hgood : InTime evs s a)
    (hs : catchStep s a = some s') : Caught evs s' :=
  ⟨signalEvents_step h.events hs, flagged_step h.events h.flagged hs,
    counted_step h.events h.counted hgood hs⟩

/-- Between two passes nothing is lost. -/
theorem Caught.noneLost (h : Caught evs s) (hout : s.point = .out) : NoneLost evs s := by
  constructor
  · intro i p hp hper
    exact h.counted.outside i (by rw [hout]; simp [Point.inside]) p hp hper
  · intro i hi
    refine (h.flagged.seen i hi).resolve_right ?_
    rw [hout]
    exact id

/-- **The flag is never lost**: in every run, whenever the handler runs, what is recorded between
two passes is flagged. -/
theorem flag_never_lost (hev : SignalEvents evs w) (hzero : ∀ i, w.base.sig.evsigcaught i = 0)
    (acts : List CatchAct) :
    AllStates catchStep (fun s => s.point = .out → ∀ i, s.w.base.sig.evsigcaught i ≠ 0 →
      s.w.base.sig.evsignalCaught = true) (.start w) acts := by
  have hstart := caught_start hev hzero
  have hall : AllStates catchStep (fun s => SignalEvents evs s.w ∧ Flagged s.w s.point)
      (.start w) acts :=
    allStates_of_allSteps
      (fun _ _ _ h _ hs => ⟨signalEvents_step h.1 hs, flagged_step h.1 h.2 hs⟩)
      ⟨hstart.events, hstart.flagged⟩
      (allSteps_of_forall (p := fun _ => True) (fun _ _ => trivial) _)
  refine hall.mono fun s hs hout i hi => (hs.2.seen i hi).resolve_right ?_
  rw [hout]
  exact id

/-- **No caught signal is lost** in a run in which the handlers run in time: between any two
passes of `evsignal_process`, what was passed on to a persistent event and what is recorded add up
to the runs of the handler, and what is recorded is flagged. -/
theorem no_signal_lost (evs : Nat → List EventPtr) (w : World) (hev : SignalEvents evs w)
    (hzero : ∀ i, w.base.sig.evsigcaught i = 0) (acts : List CatchAct)
    (hgood : AllSteps catchStep (InTime evs) (.start w) acts) :
    AllStates catchStep (fun s => s.point = .out → NoneLost evs s) (.start w) acts :=
  (allStates_of_allSteps (fun _ _ _ h hgood hs => caught_step h hgood hs)
    (caught_start hev hzero) hgood).mono fun _ h => h.noneLost

/-- The event loop waits; the event 5 is there for the signal 2. -/
def signalWaits : World where
  base := {
    evbase := ⟨10, fun _ => ⟨none, none⟩, fun _ => none⟩
    eventCount := 1
    eventCountActive := 0
    queues := Function.update (fun _ => (⟨none, none, fun _ => none, fun _ => none⟩ : TailQ EventPtr))
      .inserted (TailQ.insertTail ⟨none, none, fun _ => none, fun _ => none⟩ 5)
    nactiveQueues := 1
    sig := {
      evSignal := 1
      evSignalAdded := true
      evsignalCaught := false
      evsigevents := Function.update (fun _ => TailQ.init ⟨none, none, fun _ => none, fun _ => none⟩)
        2 (TailQ.insertTail (TailQ.init ⟨none, none, fun _ => none, fun _ => none⟩) 5)
      evsigcaught := fun _ => 0
      handlers := fun i => i = 2 } }
  events := Function.update (fun _ => none) 5
    (some ⟨2, Ev.signal ||| Ev.persist, 0, fun queue => queue = .inserted, 0, none, 0⟩)
  evsignalBase := true
  frames := [.eventBaseLoop]

/-- Its events. -/
def waiting : Nat → List EventPtr := fun i => if i = 2 then [5] else []

/-- The signal is caught; `evsignal_process` reads its count and goes on for some statements,
another signal is caught, and the pass ends. -/
def caughtInside (before after signal : Nat) : List CatchAct :=
  .handler 2 :: .call :: (List.replicate before (.statement allOk) ++
    .handler signal :: List.replicate after (.statement allOk))

theorem signalEvents_waiting : SignalEvents waiting signalWaits := by
  refine ⟨?_, ?_, rfl⟩
  · intro i
    by_cases hi : i = 2
    · subst hi
      exact TailQ.represents_insertTail (TailQ.represents_init _) List.not_mem_nil
    · simp only [signalWaits, Function.update_of_ne hi, waiting, if_neg hi]
      exact TailQ.represents_init _
  · intro i p hp
    by_cases hi : i = 2
    · simp only [waiting, if_pos hi, List.mem_singleton] at hp
      subst hp
      exact ⟨_, rfl⟩
    · simp [waiting, hi] at hp

/-- The other signal is 3. -/
theorem no_signal_lost_other : AllStates catchStep (fun s => s.point = .out → NoneLost waiting s)
    (.start signalWaits) (caughtInside 9 195 3) :=
  no_signal_lost waiting signalWaits signalEvents_waiting (fun _ => rfl) (caughtInside 9 195 3)
    (by decide +kernel)

/-- The other signal is 2 again: it is caught twice and passed on once. -/
theorem caught_twice_passed_once :
    ¬ AllStates catchStep (fun s => s.point = .out → NoneLost waiting s) (.start signalWaits)
      (caughtInside 9 192 2) := by
  have hend : (run catchStep (.start signalWaits) (caughtInside 9 192 2)).map (fun s =>
      (s.point, s.passed 2 5, s.w.base.sig.evsigcaught 2, s.handled 2, persists s.w 5)) =
        some (.out, 1, 0, 2, true) := by decide +kernel
  intro h
  obtain ⟨s, hrun, hs⟩ := Option.map_eq_some_iff.mp hend
  simp only [Prod.mk.injEq] at hs
  obtain ⟨hout, hpassed, hcaught, hhandled, hpersists⟩ := hs
  have hcounts := (h.last hrun hout).counts 2 5 (by decide) hpersists
  rw [hpassed, hcaught, hhandled] at hcounts
  exact absurd hcounts (by decide)

end Donkeyji.MyEvent
