/-
Donkeyji.Mytimer.FiringOrderTheorems — the order in which the timers of one
iteration are called.

`timer_process_timeout` takes the timers out of the heap with the smallest
timeout first and puts each in front of the list; `timer_process_actived`
walks the list from its head. So the timer that was due first is called last
(`later_due_called_first`), and the calls are in the order of the deadlines
exactly when all timers that run out together are due at the same time.
-/
import Donkeyji.Mytimer.HeapRunTheorems
import Donkeyji.Mytimer.LifeCycleTheorems

namespace Donkeyji.Mytimer

open LinkedList

/-- The timers whose callbacks were called, newest first. -/
def called : List Event → List Addr
  | [] => []
  | .created _ _ :: log => called log
  | .armed _ _ _ :: log => called log
  | .called w _ _ _ :: log => w :: called log

/-- The timers that an iteration calls, in the order of the calls. -/
def calledIn (s : State) (it : Iteration) : List Addr :=
  let after := called (timerLoopTurn s it).log
  (after.take (after.length - (called s.log).length)).reverse

/-- No timer is called after one that is due later. -/
def InDeadlineOrder (s : State) (it : Iteration) : Prop :=
  (calledIn s it).Pairwise fun w v =>
    utilTimersmaller (remaining s it v) (remaining s it w) = false

/-- The timers that run out in the iteration are due at the same time. -/
def SameDeadline (s : State) (it : Iteration) : Prop :=
  s.status = .running → it.dispatchOk = true → ∀ i < s.mh.n, ∀ j < s.mh.n,
    (remaining s it (s.mh.p i)).RunOut → (remaining s it (s.mh.p j)).RunOut →
      remaining s it (s.mh.p i) = remaining s it (s.mh.p j)

instance (s : State) (it : Iteration) : Decidable (InDeadlineOrder s it) :=
  inferInstanceAs (Decidable ((calledIn s it).Pairwise fun w v =>
    utilTimersmaller (remaining s it v) (remaining s it w) = false))

instance (s : State) (it : Iteration) : Decidable (SameDeadline s it) :=
  inferInstanceAs (Decidable (s.status = .running → it.dispatchOk = true → ∀ i < s.mh.n,
    ∀ j < s.mh.n, (remaining s it (s.mh.p i)).RunOut → (remaining s it (s.mh.p j)).RunOut →
      remaining s it (s.mh.p i) = remaining s it (s.mh.p j)))

variable {s : State} {q : List Addr}

/-! ## The calls in the history -/

/-- `timer_add` calls nothing. -/
theorem called_timerAdd (ok : Bool) (s : State) (t : Addr) (tv : TimeVal) :
    called (timerAdd ok s t tv).log = called s.log := by
  obtain ⟨st, d, hd⟩ := derefAll_eq (some t :: s.mh.members.map some) s
  unfold timerAdd
  rw [hd]
  refine andThen_of (P := fun s' => called s'.log = called s.log) rfl ?_
  intro _
  dsimp only
  cases minHeapPush ok (s.mh.setTimeout t tv) t with
  | none => rfl
  | some mh => rfl

/-- Creating a timer calls nothing. -/
theorem called_call (s : State) (c : Call) : called (call s c).log = called s.log := by
  have hwith : ∀ k, called (callWith k s c).log = called s.log := by
    intro k
    cases callWith_cases s k c with
    | inl heq => rw [heq]
    | inr hnew =>
      obtain ⟨mt, -, heq⟩ := hnew
      rw [heq]
      have hadd := called_timerAdd c.reallocOk (prepared s k c mt) mt c.timeout
      have hprep : called (prepared s k c mt).log = called s.log := rfl
      rw [hprep] at hadd
      exact andThen_of (P := fun s' => called s'.log = called s.log) hadd fun _ => hadd
  unfold call
  cases c.kind with
  | onceCb => exact hwith .onceCb
  | multiCb => exact hwith .multiCb

/-- The calls of the interface that a callback makes call nothing. -/
theorem called_calls (cs : List Call) : ∀ s : State,
    called (cs.foldl (fun s c => s.andThen fun s => call s c) s).log = called s.log := by
  induction cs with
  | nil =>
    intro s
    rfl
  | cons c cs ih =>
    intro s
    rw [List.foldl_cons, ih]
    exact andThen_of (P := fun s' => called s'.log = called s.log) rfl fun _ => called_call s c

/-- A callback is one call. -/
theorem called_userCallback (s : State) (w : Addr) (r : Reaction) :
    called (userCallback s w r).log = w :: called s.log := by
  have hcalls := called_calls r.calls (s.logCalled w)
  exact andThen_of (P := fun s' => called s'.log = w :: called s.log) hcalls fun _ => hcalls

/-- `multi_cb` and `once_cb` make one call. -/
theorem called_timerCallback {w : Addr} (h : Inv s (w :: q)) (hrun : s.status ≠ .crashed)
    (r : Reaction) : called (timerCallback s w r).log = w :: called s.log := by
  have hlive : w ∈ s.live := h.qLive w (by simp)
  have hcb := called_userCallback s w r
  unfold timerCallback
  dsimp only
  rw [h.qArg w (by simp)]
  cases (s.mh.timers w).cb with
  | onceCb =>
    unfold onceCb
    rw [deref_live hlive h.liveBlocks, State.andThen, if_neg hrun]
    refine andThen_of (P := fun s' => called s'.log = w :: called s.log) hcb ?_
    intro _
    obtain ⟨st, d, hd⟩ := derefAll_eq ((userCallback s w r).ml.removeDerefs w) (userCallback s w r)
    rw [hd]
    exact andThen_of (P := fun s' => called s'.log = w :: called s.log) hcb fun _ => hcb
  | multiCb =>
    unfold multiCb
    rw [deref_live hlive h.liveBlocks, State.andThen, if_neg hrun]
    refine andThen_of (P := fun s' => called s'.log = w :: called s.log) hcb ?_
    intro _
    rw [called_timerAdd]
    exact hcb

/-- One turn of `timer_process_actived` makes one call. -/
theorem called_activedTurn {w : Addr} (h : Inv s (w :: q)) (hrun : s.status ≠ .crashed)
    (r : Reaction) : called (activedTurn s w r).log = w :: called s.log := by
  have hcb := called_timerCallback h hrun r
  unfold activedTurn
  rw [deref_live (h.qLive w (by simp)) h.liveBlocks, State.andThen, if_neg hrun]
  refine andThen_of (P := fun s' => called s'.log = w :: called s.log) hcb ?_
  intro _
  obtain ⟨st, d, hd⟩ := derefAll_eq ((timerCallback s w r).tl.removeDerefs w) (timerCallback s w r)
  rw [hd]
  exact andThen_of (P := fun s' => called s'.log = w :: called s.log) hcb fun _ => hcb

/-- The timers of the list are called from its head on, all of them unless
the program crashes. -/
theorem called_activedLoop (fuel : Nat) : ∀ {s : State} {q : List Addr} (rs : List Reaction),
    Inv s q → s.tl.Holds q → q.length ≤ fuel → s.status ≠ .crashed →
    ∃ q₁, q₁ <+: q ∧
      called (activedLoop fuel s s.tl.head rs).log = q₁.reverse ++ called s.log ∧
      ((activedLoop fuel s s.tl.head rs).status ≠ .crashed → q₁ = q) := by
  induction fuel with
  | zero =>
    intro s q rs _ _ hlen _
    have hq : q = [] := List.length_eq_zero_iff.mp (by omega)
    subst hq
    exact ⟨[], List.prefix_refl _, rfl, fun _ => rfl⟩
  | succ fuel ih =>
    intro s q rs h htl hlen hrun
    cases q with
    | nil =>
      rw [chain_nil.mp htl.chain]
      exact ⟨[], List.prefix_refl _, rfl, fun _ => rfl⟩
    | cons w q =>
      rw [(chain_cons.mp htl.chain).1]
      obtain ⟨-, hturn⟩ := activedTurn_inv h htl (rs.headD Reaction.none)
      have hone := called_activedTurn h hrun (rs.headD Reaction.none)
      simp only [activedLoop]
      unfold State.andThen
      split
      · rename_i hc
        refine ⟨[w], ⟨q, rfl⟩, hone, ?_⟩
        intro hne
        exact absurd hc hne
      · rename_i hgo
        obtain ⟨hinv, hholds, hhead⟩ := hturn hgo
        have hlen' : q.length ≤ fuel := by
          simp only [List.length_cons] at hlen
          omega
        obtain ⟨q₁, hpre, hcalled, hall⟩ := ih rs.tail hinv hholds hlen' hgo
        rw [hhead] at hcalled hall
        refine ⟨w :: q₁, (List.prefix_cons_inj w).mpr hpre, ?_, ?_⟩
        · rw [hcalled, hone]
          simp
        · intro hne
          rw [hall hne]

/-- `timer_process_actived` calls the timers of the list from its head on. -/
theorem called_timerProcessActived (h : Inv s q) (htl : s.tl.Holds q)
    (hrun : s.status ≠ .crashed) (rs : List Reaction) :
    ∃ q₁, q₁ <+: q ∧ called (timerProcessActived s rs).log = q₁.reverse ++ called s.log ∧
      ((timerProcessActived s rs).status ≠ .crashed → q₁ = q) := by
  have hlen := htl.len
  unfold timerProcessActived
  split
  · have hq : q = [] := List.length_eq_zero_iff.mp (by omega)
    subst hq
    exact ⟨[], List.prefix_refl _, rfl, fun _ => rfl⟩
  · exact called_activedLoop s.tl.len.toNat rs h htl (by omega) hrun

/-! ## One iteration -/

/-- The new calls in the history. -/
theorem calledIn_eq {it : Iteration} {q₁ : List Addr}
    (h : called (timerLoopTurn s it).log = q₁.reverse ++ called s.log) :
    calledIn s it = q₁ := by
  unfold calledIn
  rw [h]
  simp

/-- What an iteration takes out of the heap and calls. -/
structure Fired (s : State) (it : Iteration) (ws : List Addr) : Prop where
  popped : ∀ w ∈ ws, s.mh.Has w ∧ (remaining s it w).RunOut
  calls : calledIn s it <+: ws.reverse
  all : (timerLoopTurn s it).status ≠ .crashed → calledIn s it = ws.reverse
  sorted : Tidy s → ws.Pairwise fun w v => (remaining s it w).key ≤ (remaining s it v).key
  complete : Tidy s → ∀ w, s.mh.Has w → (remaining s it w).RunOut → w ∈ ws

/-- A turn that calls nothing. -/
theorem calledIn_nil {it : Iteration} (h : (timerLoopTurn s it).log = s.log) :
    calledIn s it = [] := by
  refine calledIn_eq ?_
  rw [h]
  rfl

/-- An iteration that gets to the timeouts. -/
theorem timerLoopTurn_fired (h : RunInv s) {it : Iteration} (hrun : s.status = .running)
    (hok : it.dispatchOk = true) :
    (∃ ws, Fired s it ws) ∨ calledIn s it = [] ∧ (timerLoopTurn s it).status = .crashed := by
  obtain ⟨hinv, htl⟩ := h.2 (by simp [hrun])
  obtain ⟨st, tv, heq⟩ := timerGetNextTimeout_eq s
  by_cases hst : st = .crashed
  · right
    have hturn : timerLoopTurn s it = { s with status := st, tv := tv } := by
      simp [timerLoopTurn, hrun, heq, State.andThen, hst]
    exact ⟨calledIn_nil (by rw [hturn]), by rw [hturn]; exact hst⟩
  · left
    have hturn : timerLoopTurn s it = timerProcessActived (timerProcessTimeout
        (updated { s with status := st } tv it.idle it.wait)) it.reactions := by
      simp [timerLoopTurn, hrun, heq, State.andThen, hst, hok, updated]
    have hup : Inv (updated { s with status := st } tv it.idle it.wait) [] :=
      update_inv hinv it.idle it.wait
    obtain ⟨-, -, htim⟩ := timerUpdate_spec hinv.indexed (timerGetTime (s.clock + it.idle))
      (timerGetTime (s.clock + it.idle + it.wait))
    have hrem : ∀ w, s.mh.Has w →
        ((updated { s with status := st } tv it.idle it.wait).mh.timers w).timeout =
          remaining s it w := by
      intro w hw
      show ((timerUpdate s.mh _ _).timers w).timeout = _
      rw [htim w hw]
      rfl
    have hhas : ∀ w, (updated { s with status := st } tv it.idle it.wait).mh.Has w ↔
        s.mh.Has w := timerUpdate_has hinv.indexed _ _
    obtain ⟨ws, hpop, hrest⟩ := timeoutLoop_popped
      (updated { s with status := st } tv it.idle it.wait).mh.n hup.indexed htl (by simp)
    obtain ⟨q, hinv', hholds⟩ := timeoutLoop_inv
      (updated { s with status := st } tv it.idle it.wait).mh.n hup htl rfl
    have hq : q = ws.reverse := by
      have hchain := hpop.tl.chain
      rw [List.append_nil] at hchain
      exact hholds.chain.unique hchain
    have hgo : (timerProcessTimeout
        (updated { s with status := st } tv it.idle it.wait)).status ≠ .crashed := by
      unfold timerProcessTimeout
      rw [hpop.rest]
      exact hst
    obtain ⟨q₁, hpre, hcalled, hall⟩ :=
      called_timerProcessActived hinv' hholds hgo it.reactions
    have hlog : called (timeoutLoop (updated { s with status := st } tv it.idle it.wait).mh.n
        (updated { s with status := st } tv it.idle it.wait)).log = called s.log := by
      rw [hpop.rest]
      rfl
    rw [hlog] at hcalled
    have hin : calledIn s it = q₁ := by
      refine calledIn_eq ?_
      rw [hturn]
      exact hcalled
    have htidy : Tidy s → (updated { s with status := st } tv it.idle it.wait).mh.Valid := by
      intro ht
      exact timerUpdate_valid ht.valid ht.normal (timerGetTime_normal _) (timerGetTime_normal _)
    refine ⟨ws, ?_, ?_, ?_, ?_, ?_⟩
    · intro w hw
      obtain ⟨hw', hout⟩ := hpop.mem w hw
      rw [hrem w ((hhas w).1 hw')] at hout
      exact ⟨(hhas w).1 hw', hout⟩
    · rw [hin, ← hq]
      exact hpre
    · intro hne
      rw [hturn] at hne
      rw [hin, ← hq]
      exact hall hne
    · intro ht
      refine (hpop.sorted (htidy ht)).imp_of_mem ?_
      intro w v hw hv hle
      rwa [hrem w ((hhas w).1 (hpop.mem w hw).1), hrem v ((hhas v).1 (hpop.mem v hv).1)] at hle
    · intro ht w hw hout
      by_contra hnot
      have hleft := (hpop.has w).2 ⟨(hhas w).2 hw, hnot⟩
      refine hrest (htidy ht) (Nat.le_refl _) w hleft ?_
      rw [hrem w hw]
      exact hout

/-- An iteration that does not get to the timeouts calls nothing. -/
theorem calledIn_idle {it : Iteration} (h : ¬ (s.status = .running ∧ it.dispatchOk = true)) :
    calledIn s it = [] := by
  refine calledIn_nil ?_
  unfold timerLoopTurn
  split
  · rename_i hrun
    obtain ⟨st, tv, heq⟩ := timerGetNextTimeout_eq s
    rw [heq]
    refine andThen_of (P := fun s' => s'.log = s.log) rfl ?_
    intro _
    dsimp only
    rw [if_neg fun hok => h ⟨hrun, hok⟩]
  · rfl

/-- Timers that are due at the same time are called in order, also when the
iteration crashes. -/
theorem inDeadlineOrder_of_same (h : RunInv s) {it : Iteration} (hsame : SameDeadline s it) :
    InDeadlineOrder s it := by
  unfold InDeadlineOrder
  by_cases hgo : s.status = .running ∧ it.dispatchOk = true
  · cases timerLoopTurn_fired h hgo.1 hgo.2 with
    | inl hfired =>
      obtain ⟨ws, hf⟩ := hfired
      have hmem : ∀ w ∈ calledIn s it, s.mh.Has w ∧ (remaining s it w).RunOut :=
        fun w hw => hf.popped w (List.mem_reverse.mp (hf.calls.subset hw))
      refine List.pairwise_of_forall_mem_list ?_
      intro w hw v hv
      obtain ⟨⟨i, hi, rfl⟩, hwout⟩ := hmem w hw
      obtain ⟨⟨j, hj, rfl⟩, hvout⟩ := hmem v hv
      rw [hsame hgo.1 hgo.2 i hi j hj hwout hvout, ← Bool.not_eq_true, utilTimersmaller_iff]
      exact lt_irrefl _
    | inr hnone =>
      rw [hnone.1]
      exact List.Pairwise.nil
  · rw [calledIn_idle hgo]
    exact List.Pairwise.nil

/-- **The timer that is due first is called last.** In every run whose
timeouts are normal, the calls of an iteration are in the order of the
deadlines, the latest one first. -/
theorem later_due_called_first (h : RunInv s) (ht : Tidy s) (it : Iteration) :
    (calledIn s it).Pairwise fun w v => (remaining s it v).key ≤ (remaining s it w).key := by
  by_cases hgo : s.status = .running ∧ it.dispatchOk = true
  · cases timerLoopTurn_fired h hgo.1 hgo.2 with
    | inl hfired =>
      obtain ⟨ws, hf⟩ := hfired
      exact (List.pairwise_reverse.mpr (hf.sorted ht)).sublist hf.calls.sublist
    | inr hnone =>
      rw [hnone.1]
      exact List.Pairwise.nil
  · rw [calledIn_idle hgo]
    exact List.Pairwise.nil

/-- Calls in the order of the deadlines and against it are of timers that are
due at the same time. -/
theorem same_of_inDeadlineOrder (h : RunInv s) (ht : Tidy s) {it : Iteration}
    (hlive : (timerLoopTurn s it).status ≠ .crashed) (horder : InDeadlineOrder s it) :
    SameDeadline s it := by
  intro hrun hok i hi j hj hiout hjout
  cases timerLoopTurn_fired h hrun hok with
  | inr hnone => exact absurd hnone.2 hlive
  | inl hfired =>
    obtain ⟨ws, hf⟩ := hfired
    have hmem : ∀ k < s.mh.n, (remaining s it (s.mh.p k)).RunOut → s.mh.p k ∈ calledIn s it := by
      intro k hk hout
      rw [hf.all hlive, List.mem_reverse]
      exact hf.complete ht _ ⟨k, hk, rfl⟩ hout
    have hkeys : (calledIn s it).Pairwise fun w v =>
        (remaining s it w).key = (remaining s it v).key := by
      refine horder.imp₂ ?_ (later_due_called_first h ht it)
      intro w v hle hge
      rw [← Bool.not_eq_true, utilTimersmaller_iff, not_lt] at hle
      exact le_antisymm hle hge
    have hflip : (calledIn s it).Pairwise (flip fun w v =>
        (remaining s it w).key = (remaining s it v).key) := hkeys.imp Eq.symm
    have hall := List.Pairwise.forall_of_forall_of_flip
      (R := fun w v => (remaining s it w).key = (remaining s it v).key) (fun w _ => rfl)
      hkeys hflip (hmem i hi hiout) (hmem j hj hjout)
    have hpair := toLex.injective hall
    obtain ⟨hsec, husec⟩ := Prod.mk.inj hpair
    cases hri : remaining s it (s.mh.p i) with
    | mk sec usec =>
      cases hrj : remaining s it (s.mh.p j) with
      | mk sec' usec' =>
        rw [hri, hrj] at hsec husec
        exact congrArg₂ TimeVal.mk hsec husec

end Donkeyji.Mytimer
