/-
Donkeyji.Mytimer.HeapRunTheorems — the heap is valid in every run.

`Tidy` is the invariant: the heap is valid, and the timeouts in it and those
that `multi_cb` will arm again are normal. Every step keeps it when the
timeouts that the interface is called with are normal, as those computed from
a number that is not negative are.
-/
import Donkeyji.Mytimer.ExpiryTheorems

namespace Donkeyji.Mytimer

open LinkedList

/-- The heap is valid and all timeouts are normal. -/
structure Tidy (s : State) : Prop where
  valid : s.mh.Valid
  normal : s.mh.Normal
  wrappers : ∀ w ∈ s.live, (s.wrappers w).timeout.Normal

/-- The callbacks of an iteration create timers with normal timeouts only. -/
def Iteration.Normal (it : Iteration) : Prop :=
  ∀ r ∈ it.reactions, ∀ c ∈ r.calls, c.timeout.Normal

instance (it : Iteration) : Decidable it.Normal :=
  inferInstanceAs (Decidable (∀ r ∈ it.reactions, ∀ c ∈ r.calls, c.timeout.Normal))

variable {s : State} {q : List Addr}

/-! ## Arming a timer -/

/-- The fields of a timer that is not in the heap change. -/
theorem MinHeap.Valid.timer {h : MinHeap} (hv : h.Valid) {w : Addr} (hw : ¬ h.Has w)
    (t : Timer) : MinHeap.Valid { h with timers := Function.update h.timers w t } := by
  have hother : ∀ i < h.n, Function.update h.timers w t (h.p i) = h.timers (h.p i) :=
    fun i hi => Function.update_of_ne (fun he => hw ⟨i, hi, he⟩) _ _
  refine ⟨?_, ?_⟩
  · intro i hi
    show (Function.update h.timers w t (h.p i)).minHeapIdx = i
    rw [hother i hi]
    exact hv.indexed i hi
  · intro i hi hpos
    show minHeapElemGreater (Function.update h.timers w t (h.p ((i - 1) / 2)))
      (Function.update h.timers w t (h.p i)) = false
    have hlt : (i - 1) / 2 < h.n := by
      have hi' : i < h.n := hi
      omega
    rw [hother i hi, hother _ hlt]
    exact hv.ordered i hi hpos

theorem MinHeap.Normal.timer {h : MinHeap} (hn : h.Normal) {w : Addr} (hw : ¬ h.Has w)
    (t : Timer) : MinHeap.Normal { h with timers := Function.update h.timers w t } := by
  intro i hi
  show (Function.update h.timers w t (h.p i)).timeout.Normal
  rw [Function.update_of_ne (fun he => hw ⟨i, hi, he⟩)]
  exact hn i hi

/-- A timer with a normal timeout is pushed. -/
theorem minHeapPush_normal {ok : Bool} {h h' : MinHeap} {e : Addr} (hidx : h.Indexed)
    (he : ¬ h.Has e) (hn : h.Normal) (ht : (h.timers e).timeout.Normal)
    (hp : minHeapPush ok h e = some h') : h'.Normal := by
  obtain ⟨-, -, hhas, htim, -⟩ := minHeapPush_spec hidx he hp
  intro i hi
  obtain ⟨j, hj⟩ := htim (h'.p i)
  rw [hj]
  cases (hhas (h'.p i)).1 ⟨i, hi, rfl⟩ with
  | inl hnew => exact hnew ▸ ht
  | inr hold => exact hn.has hold

/-- `timer_add` of a timer that is neither in the heap nor waiting. -/
theorem timerAdd_tidy (h : Inv s q) (ht : Tidy s) {w : Addr} (hlive : w ∈ s.live)
    (hw : ¬ s.mh.Has w) (ok : Bool) {tv : TimeVal} (htv : tv.Normal) :
    Tidy (timerAdd ok s w tv) := by
  unfold timerAdd
  rw [timerAdd_derefs h hlive]
  refine andThen_of (P := Tidy) ht ?_
  intro _
  have hv : (s.mh.setTimeout w tv).Valid := ht.valid.timer hw _
  have hn : (s.mh.setTimeout w tv).Normal := ht.normal.timer hw _
  cases hp : minHeapPush ok (s.mh.setTimeout w tv) w with
  | none => exact ⟨hv, hn, ht.wrappers⟩
  | some mh' =>
    have hnew : ((s.mh.setTimeout w tv).timers w).timeout.Normal := by
      simpa [MinHeap.setTimeout] using htv
    exact ⟨minHeapPush_valid hv hw hp, minHeapPush_normal hv.indexed hw hn hnew hp, ht.wrappers⟩

/-- A new wrapper with a normal timeout. -/
theorem callWith_tidy (h : Inv s q) (ht : Tidy s) (k : TimerCb) {c : Call}
    (hc : c.timeout.Normal) : Tidy (callWith k s c) := by
  cases callWith_cases s k c with
  | inl heq =>
    rw [heq]
    exact { ht with }
  | inr hnew =>
    obtain ⟨mt, hin, heq⟩ := hnew
    obtain ⟨hinv, -, hout, -⟩ := prepared_inv h k c hin
    have hprep : Tidy (prepared s k c mt) := by
      refine ⟨ht.valid.timer hout _, ht.normal.timer hout _, ?_⟩
      intro w hw
      show (Function.update s.wrappers mt _ w).timeout.Normal
      by_cases he : w = mt
      · subst he
        simpa using hc
      · rw [Function.update_of_ne he]
        exact ht.wrappers w ((List.mem_cons.mp hw).resolve_left he)
    rw [heq]
    have hadd := timerAdd_tidy hinv hprep List.mem_cons_self hout c.reallocOk hc
    refine andThen_of (P := Tidy) hadd ?_
    intro _
    exact { hadd with }

/-- A call of the interface with a normal timeout. -/
theorem call_tidy (h : Inv s q) (ht : Tidy s) {c : Call} (hc : c.timeout.Normal) :
    Tidy (call s c) := by
  unfold call
  cases c.kind with
  | onceCb => exact callWith_tidy h ht .onceCb hc
  | multiCb => exact callWith_tidy h ht .multiCb hc

/-! ## Callbacks -/

/-- The calls of a callback. -/
theorem calls_tidy (cs : List Call) : ∀ {s : State}, Inv s q → Tidy s →
    (∀ c ∈ cs, c.timeout.Normal) →
    Tidy (cs.foldl (fun s c => s.andThen fun s => call s c) s) := by
  induction cs with
  | nil =>
    intro s _ ht _
    exact ht
  | cons c cs ih =>
    intro s h ht hcs
    have hc : Inv (s.andThen fun s => call s c) q ∧ Tidy (s.andThen fun s => call s c) :=
      andThen_of (P := fun s' => Inv s' q ∧ Tidy s') ⟨h, ht⟩
        fun _ => ⟨(call_inv h c).1, call_tidy h ht (hcs c (by simp))⟩
    exact ih hc.1 hc.2 fun c' hc' => hcs c' (by simp [hc'])

/-- The callback of a waiting timer. -/
theorem userCallback_tidy (h : Inv s q) (ht : Tidy s) {w : Addr} (hw : w ∈ q) {r : Reaction}
    (hr : ∀ c ∈ r.calls, c.timeout.Normal) : Tidy (userCallback s w r) := by
  have hlog : Tidy (s.logCalled w) := { ht with }
  have hcalls := calls_tidy r.calls (logCalled_inv h hw) hlog hr
  unfold userCallback
  refine andThen_of (P := Tidy) hcalls ?_
  intro _
  exact { hcalls with }

/-- `multi_cb` arms the timer again for the timeout of its wrapper. -/
theorem multiCb_tidy {w : Addr} (h : Inv s (w :: q)) (ht : Tidy s) {r : Reaction}
    (hr : ∀ c ∈ r.calls, c.timeout.Normal) : Tidy (multiCb s w r) := by
  have hlive : w ∈ s.live := h.qLive w (by simp)
  unfold multiCb
  rw [deref_live hlive h.liveBlocks]
  refine andThen_of (P := Tidy) ht ?_
  intro _
  obtain ⟨hinv, hframe⟩ := userCallback_inv h (w := w) (by simp) r
  have hcb := userCallback_tidy h ht (w := w) (by simp) hr
  refine andThen_of (P := Tidy) hcb ?_
  intro _
  have hout : ¬ (userCallback s w r).mh.Has w := hinv.qOut w (by simp)
  have hset := hinv.drop.timer hout (List.nodup_cons.mp h.nodup).1
    { (userCallback s w r).mh.timers w with cb := .multiCb, arg := w }
  have hset' : Tidy (timerSet (userCallback s w r) w .multiCb w) :=
    ⟨hcb.valid.timer hout _, hcb.normal.timer hout _, hcb.wrappers⟩
  exact timerAdd_tidy (s := timerSet (userCallback s w r) w .multiCb w) hset hset'
    (hframe.live w hlive) hout r.reallocOk (ht.wrappers w hlive)

/-- Following pointers keeps the invariant. -/
theorem derefAll_tidy (ht : Tidy s) (xs : List (Option Addr)) : Tidy (s.derefAll xs) := by
  obtain ⟨st, d, hd⟩ := derefAll_eq xs s
  rw [hd]
  exact { ht with }

/-- `once_cb` releases the wrapper. -/
theorem onceCb_tidy {w : Addr} (h : Inv s (w :: q)) (ht : Tidy s) {r : Reaction}
    (hr : ∀ c ∈ r.calls, c.timeout.Normal) : Tidy (onceCb s w r) := by
  have hlive : w ∈ s.live := h.qLive w (by simp)
  unfold onceCb
  rw [deref_live hlive h.liveBlocks]
  refine andThen_of (P := Tidy) ht ?_
  intro _
  have hcb := userCallback_tidy h ht (w := w) (by simp) hr
  refine andThen_of (P := Tidy) hcb ?_
  intro _
  have hderef := derefAll_tidy hcb ((userCallback s w r).ml.removeDerefs w)
  refine andThen_of (P := Tidy) hderef ?_
  intro _
  exact ⟨hderef.valid, hderef.normal, fun x hx => hderef.wrappers x (List.mem_filter.mp hx).1⟩

/-- The callback of a waiting timer, of either kind. -/
theorem timerCallback_tidy {w : Addr} (h : Inv s (w :: q)) (ht : Tidy s) {r : Reaction}
    (hr : ∀ c ∈ r.calls, c.timeout.Normal) : Tidy (timerCallback s w r) := by
  unfold timerCallback
  dsimp only
  rw [h.qArg w (by simp)]
  cases (s.mh.timers w).cb with
  | onceCb => exact onceCb_tidy h ht hr
  | multiCb => exact multiCb_tidy h ht hr

/-- One turn of `timer_process_actived`. -/
theorem activedTurn_tidy {w : Addr} (h : Inv s (w :: q)) (ht : Tidy s) {r : Reaction}
    (hr : ∀ c ∈ r.calls, c.timeout.Normal) : Tidy (activedTurn s w r) := by
  unfold activedTurn
  rw [deref_live (h.qLive w (by simp)) h.liveBlocks]
  refine andThen_of (P := Tidy) ht ?_
  intro _
  have hcb := timerCallback_tidy h ht hr
  refine andThen_of (P := Tidy) hcb ?_
  intro _
  have hderef := derefAll_tidy hcb ((timerCallback s w r).tl.removeDerefs w)
  refine andThen_of (P := Tidy) hderef ?_
  intro _
  exact { hderef with }

/-- The callbacks of all waiting timers. -/
theorem activedLoop_tidy (fuel : Nat) : ∀ {s : State} {q : List Addr} (rs : List Reaction),
    Inv s q → Tidy s → s.tl.Holds q → (∀ r ∈ rs, ∀ c ∈ r.calls, c.timeout.Normal) →
    Tidy (activedLoop fuel s s.tl.head rs) := by
  induction fuel with
  | zero =>
    intro s q rs _ ht _ _
    exact ht
  | succ fuel ih =>
    intro s q rs h ht htl hrs
    cases q with
    | nil =>
      rw [chain_nil.mp htl.chain]
      exact ht
    | cons w q =>
      have hr : ∀ c ∈ (rs.headD Reaction.none).calls, c.timeout.Normal := by
        cases rs with
        | nil => simp [Reaction.none]
        | cons r rs => exact hrs r (by simp)
      rw [(chain_cons.mp htl.chain).1]
      obtain ⟨-, hturn⟩ := activedTurn_inv h htl (rs.headD Reaction.none)
      have htidy := activedTurn_tidy h ht hr
      simp only [activedLoop]
      refine andThen_of (P := Tidy) htidy ?_
      intro hrun
      obtain ⟨hinv, hholds, hhead⟩ := hturn hrun
      have hrec := ih rs.tail hinv htidy hholds fun r hr => hrs r (List.mem_of_mem_tail hr)
      rwa [hhead] at hrec

/-- `timer_process_actived`. -/
theorem timerProcessActived_tidy (h : Inv s q) (ht : Tidy s) (htl : s.tl.Holds q)
    {rs : List Reaction} (hrs : ∀ r ∈ rs, ∀ c ∈ r.calls, c.timeout.Normal) :
    Tidy (timerProcessActived s rs) := by
  unfold timerProcessActived
  split
  · exact ht
  · exact activedLoop_tidy s.tl.len.toNat rs h ht htl hrs

/-! ## Runs -/

/-- Taking timers out of the heap. -/
theorem Popped.tidy {s' : State} {ws : List Addr} (h : Popped s s' q ws) (ht : Tidy s) :
    Tidy s' := by
  refine ⟨h.valid ht.valid, ?_, ?_⟩
  · intro i hi
    obtain ⟨j, hj⟩ := h.timers (s'.mh.p i)
    rw [hj]
    exact ht.normal.has ((h.has _).1 ⟨i, hi, rfl⟩).1
  · rw [h.rest]
    exact ht.wrappers

/-- One turn of `timer_loop`. -/
theorem timerLoopTurn_tidy (h : RunInv s) (ht : Tidy s) {it : Iteration} (hit : it.Normal) :
    Tidy (timerLoopTurn s it) := by
  unfold timerLoopTurn
  split
  · rename_i hrun
    obtain ⟨hinv, htl⟩ := h.2 (by simp [hrun])
    obtain ⟨st, tv, heq⟩ := timerGetNextTimeout_eq s
    rw [heq]
    refine andThen_of (P := Tidy) { ht with } ?_
    intro _
    dsimp only
    split
    · have hup := update_inv hinv it.idle it.wait
      have hnorm1 := timerGetTime_normal (s.clock + it.idle)
      have hnorm2 := timerGetTime_normal (s.clock + it.idle + it.wait)
      obtain ⟨ws, hpop, -⟩ := timeoutLoop_popped _ (s := { s with
        status := st, tv := tv, clock := s.clock + it.idle + it.wait,
        t2 := s.clock + it.idle + it.wait,
        mh := timerUpdate s.mh (timerGetTime (s.clock + it.idle))
          (timerGetTime (s.clock + it.idle + it.wait)) }) hup.indexed htl (by simp)
      obtain ⟨q, hq, hholds⟩ := timeoutLoop_inv _ (s := { s with
        status := st, tv := tv, clock := s.clock + it.idle + it.wait,
        t2 := s.clock + it.idle + it.wait,
        mh := timerUpdate s.mh (timerGetTime (s.clock + it.idle))
          (timerGetTime (s.clock + it.idle + it.wait)) }) hup htl rfl
      exact timerProcessActived_tidy hq
        (hpop.tidy ⟨timerUpdate_valid ht.valid ht.normal hnorm1 hnorm2,
          timerUpdate_normal hinv.indexed ht.normal hnorm1 hnorm2, ht.wrappers⟩) hholds hit
    · exact { ht with }
  · exact ht

/-- The state after `timer_init`. -/
theorem State.Fresh.tidy (h : s.Fresh) : Tidy s := by
  refine ⟨⟨?_, ?_⟩, ?_, ?_⟩
  · intro i hi
    simp [h.heap] at hi
  · intro i hi
    simp [h.heap] at hi
  · intro i hi
    simp [h.heap] at hi
  · intro w hw
    simp [h.live] at hw

/-- The calls made before the loop. -/
theorem setup_tidy (cs : List Call) : ∀ {s : State}, Inv s [] → Tidy s →
    (∀ c ∈ cs, c.timeout.Normal) → Tidy (setup s cs) := by
  induction cs with
  | nil =>
    intro s _ ht _
    exact ht
  | cons c cs ih =>
    intro s h ht hcs
    exact ih (call_inv h c).1 (call_tidy h ht (hcs c (by simp)))
      fun c' hc' => hcs c' (by simp [hc'])

/-- The turns of `timer_loop`. -/
theorem timerLoop_tidy (its : List Iteration) : ∀ {s : State}, RunInv s → Tidy s →
    (∀ it ∈ its, it.Normal) → Tidy (timerLoop s its) := by
  induction its with
  | nil =>
    intro s _ ht _
    exact ht
  | cons it its ih =>
    intro s h ht hits
    exact ih (timerLoopTurn_inv h it) (timerLoopTurn_tidy h ht (hits it (by simp)))
      fun it' hit' => hits it' (by simp [hit'])

/-- In every run whose timeouts are normal the heap stays valid, also when the
run reads released memory or crashes. -/
theorem run_tidy (hs : s.Fresh) {cs : List Call} (hcs : ∀ c ∈ cs, c.timeout.Normal)
    {its : List Iteration} (hits : ∀ it ∈ its, it.Normal) :
    Tidy (timerLoop (setup s cs) its) :=
  timerLoop_tidy its (setup_runInv hs cs) (setup_tidy cs hs.inv hs.tidy hcs) hits

end Donkeyji.Mytimer
