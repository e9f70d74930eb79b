/-
Donkeyji.Mytimer.LifeCycleTheorems — the life of a timer's wrapper.

`LifeCycle` is what should hold between two iterations of `timer_loop`: the
wrappers in `ml` are the pending ones, each pending timer is in the heap once,
a once timer that fired was called once and is in no container, a multi timer
has been armed once more than it was called, and no released wrapper has been
read.

It holds in every run in which no timer of `once_call` runs out
(`lifeCycle_of_noOnceFires`). The first once timer that fires breaks it:
`once_cb` releases the wrapper and `timer_process_actived` then passes it to
`list_remove`, which reads its link (`once_timer_reads_released`).
-/
import Donkeyji.Lib.Runs
import Donkeyji.Mytimer.TimerTheorems

namespace Donkeyji.Mytimer

open LinkedList Runs

/-! ## What the history says about a wrapper -/

/-- The interface that created the wrapper at this address last. -/
def kindOf : List Event → Addr → Option TimerCb
  | [], _ => none
  | .created mt k :: log, w => if mt = w then some k else kindOf log w
  | .armed _ _ _ :: log, w => kindOf log w
  | .called _ _ _ _ :: log, w => kindOf log w

/-- How often the wrapper's callback was called since it was created. -/
def callsOf : List Event → Addr → Nat
  | [], _ => 0
  | .created mt _ :: log, w => if mt = w then 0 else callsOf log w
  | .armed _ _ _ :: log, w => callsOf log w
  | .called mt _ _ _ :: log, w => if mt = w then callsOf log w + 1 else callsOf log w

/-- How often the wrapper's timer was armed since it was created. -/
def armsOf : List Event → Addr → Nat
  | [], _ => 0
  | .created mt _ :: log, w => if mt = w then 0 else armsOf log w
  | .armed mt _ _ :: log, w => if mt = w then armsOf log w + 1 else armsOf log w
  | .called _ _ _ _ :: log, w => armsOf log w

/-- The wrapper was created and, if by `once_call`, has not fired since. -/
def Pending (log : List Event) (w : Addr) : Prop :=
  kindOf log w = some .multiCb ∨ (kindOf log w = some .onceCb ∧ callsOf log w = 0)

/-- The node is in the list. -/
def NodeList.Contains (l : NodeList) (w : Addr) : Prop := Reach l.next l.head w

/-- The life cycle of the wrappers, as it should be between two iterations. -/
structure LifeCycle (s : State) : Prop where
  ml : ∃ m, s.ml.Holds m ∧ ∀ w, w ∈ m ↔ Pending s.log w
  heap : ∀ w, Pending s.log w → s.mh.members.count w = 1
  once : ∀ w, kindOf s.log w = some .onceCb → 0 < callsOf s.log w →
    callsOf s.log w = 1 ∧ ¬ s.ml.Contains w ∧ ¬ s.tl.Contains w ∧ ¬ s.mh.Has w
  multi : ∀ w, kindOf s.log w = some .multiCb → armsOf s.log w = callsOf s.log w + 1
  noDangling : s.dangling = false
  noCrash : s.status ≠ .crashed

/-- What the iteration leaves of a timeout. -/
def remaining (s : State) (it : Iteration) (w : Addr) : TimeVal :=
  utilTimersub (s.mh.timers w).timeout (utilTimersub
    (timerGetTime (s.clock + it.idle + it.wait)) (timerGetTime (s.clock + it.idle)))

/-- The condition on an iteration: if it gets to the timeouts, no timer in
the heap that was set to call `once_cb` has run out; and no `realloc` fails. -/
structure NoOnceFires (s : State) (it : Iteration) : Prop where
  once : s.status = .running → it.dispatchOk = true → ∀ i < s.mh.n,
    (s.mh.timers (s.mh.p i)).cb = .onceCb →
      utilTimersmaller ⟨0, 0⟩ (remaining s it (s.mh.p i)) = true
  realloc : ∀ r ∈ it.reactions, r.reallocOk = true ∧ ∀ c ∈ r.calls, c.reallocOk = true

instance (s : State) (it : Iteration) : Decidable (NoOnceFires s it) :=
  decidable_of_iff
    ((s.status = .running → it.dispatchOk = true → ∀ i < s.mh.n,
      (s.mh.timers (s.mh.p i)).cb = .onceCb →
        utilTimersmaller ⟨0, 0⟩ (remaining s it (s.mh.p i)) = true) ∧
      ∀ r ∈ it.reactions, r.reallocOk = true ∧ ∀ c ∈ r.calls, c.reallocOk = true)
    ⟨fun h => ⟨h.1, h.2⟩, fun h => ⟨h.once, h.realloc⟩⟩

/-! ## The invariant -/

/-- The invariant of the runs in which no once timer fires; `q` are the
timers that wait for their callbacks and `cur` is the one whose callback is
running, if any. -/
structure Life (s : State) (q : List Addr) (cur : Option Addr) : Prop where
  ml : ∃ m, s.ml.Holds m ∧ ∀ w, w ∈ m ↔ Pending s.log w
  pending : ∀ w, Pending s.log w ↔ s.mh.Has w ∨ w ∈ q
  heapKind : ∀ w, s.mh.Has w → kindOf s.log w = some (s.mh.timers w).cb
  qKind : ∀ w ∈ q, (s.mh.timers w).cb = .multiCb ∧ kindOf s.log w = some .multiCb
  once : ∀ w, kindOf s.log w = some .onceCb → callsOf s.log w = 0
  multi : ∀ w, kindOf s.log w = some .multiCb →
    armsOf s.log w + (if cur = some w then 1 else 0) = callsOf s.log w + 1
  curMem : ∀ w, cur = some w → w ∈ q
  noDangling : s.dangling = false
  noCrash : s.status ≠ .crashed

variable {s : State} {q : List Addr} {cur : Option Addr}

/-- A push whose `realloc` does not fail succeeds. -/
theorem minHeapPush_true (h : MinHeap) (e : Addr) : ∃ h', minHeapPush true h e = some h' := by
  unfold minHeapPush minHeapReserve
  split
  · rename_i hr
    split at hr <;> simp at hr
  · exact ⟨_, rfl⟩

/-- What `timer_add` does when `realloc` does not fail. -/
theorem timerAdd_eq (h : Inv s q) {w : Addr} (hlive : w ∈ s.live) (hw : ¬ s.mh.Has w)
    (hq : w ∉ q) (hrun : s.status ≠ .crashed) (tv : TimeVal) :
    ∃ mh', timerAdd true s w tv = { s with mh := mh', log := .armed w s.clock tv :: s.log } ∧
      (∀ x, mh'.Has x ↔ x = w ∨ s.mh.Has x) ∧
      (∀ x, (mh'.timers x).cb = (s.mh.timers x).cb) := by
  unfold timerAdd
  rw [timerAdd_derefs h hlive]
  unfold State.andThen
  simp only [hrun, if_false]
  obtain ⟨mh', hp⟩ := minHeapPush_true (s.mh.setTimeout w tv) w
  have hc : Core (s.mh.setTimeout w tv) s.live s.blocks s.log s.clock s.t2 q :=
    Core.timer h hw hq { s.mh.timers w with timeout := tv }
  obtain ⟨-, -, hhas, htim, -⟩ := minHeapPush_spec hc.indexed hw hp
  refine ⟨mh', by rw [hp], hhas, ?_⟩
  intro x
  obtain ⟨i, hi⟩ := htim x
  rw [hi]
  by_cases hx : x = w
  · subst hx
    simp [MinHeap.setTimeout]
  · simp [MinHeap.setTimeout, hx]

/-- A new wrapper was not pending. -/
theorem Life.not_pending (h : Inv s q) (l : Life s q cur) {w : Addr} (hw : w ∉ s.live) :
    ¬ Pending s.log w := by
  intro hp
  cases (l.pending w).1 hp with
  | inl hh => exact hw (h.heapLive w hh)
  | inr hq => exact hw (h.qLive w hq)

/-- The history and the kinds after a new wrapper was created and armed. -/
theorem pending_created {log : List Event} {k : TimerCb} {mt : Addr} {a : Nat} {tv : TimeVal}
    (w : Addr) :
    Pending (.armed mt a tv :: .created mt k :: log) w ↔ w = mt ∨ Pending log w := by
  by_cases hw : mt = w
  · subst hw
    cases k with
    | onceCb => simp [Pending, kindOf, callsOf]
    | multiCb => simp [Pending, kindOf]
  · have hw' : w ≠ mt := Ne.symm hw
    simp [Pending, kindOf, callsOf, hw, hw']

/-- A call of `once_call` or `multi_call` keeps the life cycle. -/
theorem callWith_life (h : Inv s q) (l : Life s q cur) (k : TimerCb) (c : Call)
    (hc : c.reallocOk = true) : Life (callWith k s c) q cur := by
  cases callWith_cases s k c with
  | inl heq =>
    rw [heq]
    exact { l with }
  | inr hnew =>
    obtain ⟨mt, hin, heq⟩ := hnew
    obtain ⟨hinv, -, hout, hnq⟩ := prepared_inv h k c hin
    obtain ⟨mh', hadd, hhas, hcb⟩ := timerAdd_eq hinv List.mem_cons_self hout hnq
      (show (prepared s k c mt).status ≠ .crashed from l.noCrash) c.timeout
    have hnp := l.not_pending h hin
    have hnh : ¬ s.mh.Has mt := hout
    have hrun : s.status ≠ .crashed := l.noCrash
    have hstate : callWith k s c = { prepared s k c mt with
        mh := mh'
        log := .armed mt (s.clock + c.delay) c.timeout :: .created mt k :: s.log
        ml := mListInsert s.ml mt } := by
      rw [heq, hc, hadd]
      simp only [State.andThen, prepared, timerSet, hrun, if_false]
    have hcb' : ∀ x, x ≠ mt → (mh'.timers x).cb = (s.mh.timers x).cb := by
      intro x hx
      rw [hcb x]
      simp [prepared, timerSet, hx]
    have hcbnew : (mh'.timers mt).cb = k := by
      rw [hcb mt]
      simp [prepared, timerSet]
    have hcur : ∀ w, cur = some w → w ≠ mt := fun w hw he => hnq (he ▸ l.curMem w hw)
    obtain ⟨m, hm, hmem⟩ := l.ml
    rw [hstate]
    refine ⟨⟨mt :: m, ?_, ?_⟩, ?_, ?_, ?_, ?_, ?_, l.curMem, l.noDangling, l.noCrash⟩
    · exact hm.insert fun hx => hnp ((hmem mt).1 hx)
    · intro w
      rw [pending_created, List.mem_cons, hmem]
    · intro w
      rw [pending_created, l.pending w]
      show _ ↔ mh'.Has w ∨ w ∈ q
      rw [hhas w]
      exact or_assoc.symm
    · intro w hw
      by_cases he : w = mt
      · subst he
        rw [hcbnew]
        simp [kindOf]
      · have hw' : s.mh.Has w := ((hhas w).1 hw).resolve_left he
        rw [hcb' w he]
        simp [kindOf, Ne.symm he, l.heapKind w hw']
    · intro w hw
      have he : w ≠ mt := fun he => hnq (he ▸ hw)
      rw [hcb' w he]
      simp only [kindOf, Ne.symm he, if_false]
      exact l.qKind w hw
    · intro w hw
      by_cases he : mt = w
      · simp [callsOf, he]
      · simp only [kindOf, he, if_false] at hw
        simp only [callsOf, he, if_false]
        exact l.once w hw
    · intro w hw
      by_cases he : mt = w
      · subst he
        have hne : cur ≠ some mt := fun hx => hcur mt hx rfl
        simp [armsOf, callsOf, hne]
      · simp only [kindOf, he, if_false] at hw
        simp only [armsOf, callsOf, he, if_false]
        exact l.multi w hw

/-- A call of the interface keeps the life cycle. -/
theorem call_life (h : Inv s q) (l : Life s q cur) (c : Call) (hc : c.reallocOk = true) :
    Life (call s c) q cur := by
  unfold call
  cases c.kind with
  | onceCb => exact callWith_life h l .onceCb c hc
  | multiCb => exact callWith_life h l .multiCb c hc

/-- The calls of a callback keep the life cycle. -/
theorem calls_life (cs : List Call) : ∀ {s : State}, Inv s q → Life s q cur →
    (∀ c ∈ cs, c.reallocOk = true) →
    Life (cs.foldl (fun s c => s.andThen fun s => call s c) s) q cur := by
  induction cs with
  | nil =>
    intro s _ l _
    exact l
  | cons c cs ih =>
    intro s h l hcs
    have hgo : (s.andThen fun s => call s c) = call s c := by
      simp [State.andThen, l.noCrash]
    rw [List.foldl_cons, hgo]
    exact ih (call_inv h c).1 (call_life h l c (hcs c (by simp)))
      fun c' hc' => hcs c' (by simp [hc'])

@[simp] theorem kindOf_logCalled (s : State) (w x : Addr) :
    kindOf (s.logCalled w).log x = kindOf s.log x := rfl

@[simp] theorem armsOf_logCalled (s : State) (w x : Addr) :
    armsOf (s.logCalled w).log x = armsOf s.log x := rfl

theorem callsOf_logCalled (s : State) (w x : Addr) : callsOf (s.logCalled w).log x =
    if w = x then callsOf s.log x + 1 else callsOf s.log x := rfl

/-- The callback of a waiting multi timer: one call more than armings. -/
theorem userCallback_life (h : Inv s q) (l : Life s q none) {w : Addr} (hw : w ∈ q)
    (r : Reaction) (hr : ∀ c ∈ r.calls, c.reallocOk = true) :
    Life (userCallback s w r) q (some w) := by
  have hkind := (l.qKind w hw).2
  have hpend : ∀ x, Pending (s.logCalled w).log x ↔ Pending s.log x := by
    intro x
    by_cases hx : w = x
    · subst hx
      simp [Pending, hkind]
    · simp [Pending, callsOf_logCalled, hx]
  have hlife : Life (s.logCalled w) q (some w) := by
    obtain ⟨m, hm, hmem⟩ := l.ml
    refine ⟨⟨m, hm, ?_⟩, ?_, l.heapKind, l.qKind, ?_, ?_, ?_, l.noDangling, l.noCrash⟩
    · intro x
      rw [hmem x, hpend x]
    · intro x
      rw [hpend x]
      exact l.pending x
    · intro x hx
      have hne : w ≠ x := by
        intro he
        subst he
        rw [show kindOf s.log w = some .onceCb from hx] at hkind
        cases hkind
      rw [callsOf_logCalled, if_neg hne]
      exact l.once x hx
    · intro x hx
      have := l.multi x hx
      by_cases he : w = x
      · subst he
        simpa [callsOf_logCalled] using this
      · simpa [callsOf_logCalled, he] using this
    · intro x hx
      cases hx
      exact hw
  have hcalls := calls_life r.calls (logCalled_inv h hw) hlife hr
  unfold userCallback
  refine andThen_of (P := fun s' => Life s' q (some w)) hcalls ?_
  intro _
  exact { hcalls with }

/-- The callback of a waiting multi timer, and its re-arming. -/
theorem multiCb_life {w : Addr} (h : Inv s (w :: q)) (l : Life s (w :: q) none) (r : Reaction)
    (hr : r.reallocOk = true ∧ ∀ c ∈ r.calls, c.reallocOk = true) :
    Life (multiCb s w r) q none := by
  have hlive : w ∈ s.live := h.qLive w (by simp)
  have hrun : s.status ≠ .crashed := l.noCrash
  obtain ⟨hinv, hframe⟩ := userCallback_inv h (w := w) (by simp) r
  have hlife := userCallback_life h l (w := w) (by simp) r hr.2
  have hnq : w ∉ q := (List.nodup_cons.mp h.nodup).1
  have hout : ¬ (userCallback s w r).mh.Has w := hinv.qOut w (by simp)
  have hset : Inv (timerSet (userCallback s w r) w .multiCb w) q :=
    hinv.drop.timer hout hnq { (userCallback s w r).mh.timers w with cb := .multiCb, arg := w }
  obtain ⟨mh', hadd, hhas, hcb⟩ := timerAdd_eq hset (hframe.live w hlive) hout hnq
    (show (timerSet (userCallback s w r) w .multiCb w).status ≠ .crashed from hlife.noCrash)
    (s.wrappers w).timeout
  have hstate : multiCb s w r = { userCallback s w r with
      mh := mh'
      log := .armed w (userCallback s w r).clock (s.wrappers w).timeout ::
        (userCallback s w r).log } := by
    unfold multiCb
    rw [deref_live hlive h.liveBlocks]
    simp only [State.andThen, hrun, hlife.noCrash, if_false, hr.1]
    rw [hadd]
    rfl
  have hcb' : ∀ x, x ≠ w → (mh'.timers x).cb = ((userCallback s w r).mh.timers x).cb := by
    intro x hx
    rw [hcb x]
    simp [timerSet, hx]
  have hcbw : (mh'.timers w).cb = .multiCb := by
    rw [hcb w]
    simp [timerSet]
  have hkind := (hlife.qKind w (by simp)).2
  obtain ⟨m, hm, hmem⟩ := hlife.ml
  rw [hstate]
  refine ⟨⟨m, hm, hmem⟩, ?_, ?_, ?_, hlife.once, ?_, ?_, hlife.noDangling, hlife.noCrash⟩
  · intro x
    show Pending (userCallback s w r).log x ↔ mh'.Has x ∨ x ∈ q
    rw [hlife.pending x, hhas x]
    show _ ↔ (x = w ∨ (userCallback s w r).mh.Has x) ∨ x ∈ q
    rw [List.mem_cons, or_left_comm, or_assoc]
  · intro x hx
    show kindOf (userCallback s w r).log x = some (mh'.timers x).cb
    by_cases he : x = w
    · subst he
      rw [hcbw, hkind]
    · rw [hcb' x he]
      exact hlife.heapKind x (((hhas x).1 hx).resolve_left he)
  · intro x hx
    have he : x ≠ w := fun he => hnq (he ▸ hx)
    rw [hcb' x he]
    exact hlife.qKind x (List.mem_cons_of_mem _ hx)
  · intro x hx
    have := hlife.multi x hx
    by_cases he : w = x
    · subst he
      simpa [armsOf, callsOf] using this
    · simpa [armsOf, callsOf, he] using this
  · intro x hx
    cases hx

/-! ## The list of timers to be called -/

/-- Taking the first of the waiting timers off the list follows live
pointers only. -/
theorem removeDerefs_head {w : Addr} {l : NodeList} (hl : l.Holds (w :: q)) (s : State)
    (hlive : ∀ x ∈ w :: q, x ∈ s.live) (hb : ∀ x ∈ s.live, x ∈ s.blocks) :
    s.derefAll (l.removeDerefs w) = s := by
  obtain ⟨hhead, hrest⟩ := chain_cons.mp hl.chain
  have hne : l.len ≠ 0 := by
    rw [hl.len]
    simp
    omega
  cases q with
  | nil =>
    have hnext := chain_nil.mp hrest
    have heq : l.removeDerefs w = [w].map some := by
      simp [NodeList.removeDerefs, hne, hhead, hnext]
    rw [heq]
    exact derefAll_live hlive hb
  | cons n q =>
    have hnext := (chain_cons.mp hrest).1
    have heq : l.removeDerefs w = [w, n].map some := by
      simp [NodeList.removeDerefs, hne, hhead, hnext]
    rw [heq]
    refine derefAll_live ?_ hb
    intro a ha
    exact hlive a (by simpa using Or.imp_right Or.inl (by simpa using ha))

/-- One turn of `timer_process_actived`, for a multi timer. -/
theorem activedTurn_life {w : Addr} (h : Inv s (w :: q)) (l : Life s (w :: q) none)
    (htl : s.tl.Holds (w :: q)) (r : Reaction)
    (hr : r.reallocOk = true ∧ ∀ c ∈ r.calls, c.reallocOk = true) :
    Life (activedTurn s w r) q none ∧ (activedTurn s w r).tv = s.tv := by
  have hlive : w ∈ s.live := h.qLive w (by simp)
  have hcall : timerCallback s w r = multiCb s w r := by
    unfold timerCallback
    dsimp only
    rw [h.qArg w (by simp), (l.qKind w (by simp)).1]
  have hlife := multiCb_life h l r hr
  obtain ⟨-, hframe, hinv⟩ := multiCb_inv h r
  have hinv' := hinv hlife.noCrash
  have hderef : (multiCb s w r).derefAll ((multiCb s w r).tl.removeDerefs w) =
      multiCb s w r := by
    rw [hframe.tl]
    refine removeDerefs_head htl _ ?_ hinv'.liveBlocks
    intro x hx
    exact hframe.live x (h.qLive x hx)
  have heq : activedTurn s w r =
      { multiCb s w r with tl := listRemove (multiCb s w r).tl w } := by
    unfold activedTurn
    rw [deref_live hlive h.liveBlocks]
    simp only [State.andThen, l.noCrash, if_false, hcall, hlife.noCrash, hderef]
  rw [heq]
  exact ⟨{ hlife with }, hframe.tv⟩

/-- The callbacks of all waiting timers. -/
theorem activedLoop_life (fuel : Nat) : ∀ {s : State} {q : List Addr} (rs : List Reaction),
    Inv s q → Life s q none → s.tl.Holds q → q.length ≤ fuel →
    (∀ r ∈ rs, r.reallocOk = true ∧ ∀ c ∈ r.calls, c.reallocOk = true) →
    Life (activedLoop fuel s s.tl.head rs) [] none ∧
      (activedLoop fuel s s.tl.head rs).tv = s.tv := by
  induction fuel with
  | zero =>
    intro s q rs _ l _ hlen _
    have hq : q = [] := List.length_eq_zero_iff.mp (by omega)
    subst hq
    exact ⟨l, rfl⟩
  | succ fuel ih =>
    intro s q rs h l htl hlen hrs
    cases q with
    | nil =>
      rw [chain_nil.mp htl.chain]
      exact ⟨l, rfl⟩
    | cons w q =>
      have hr : (rs.headD Reaction.none).reallocOk = true ∧
          ∀ c ∈ (rs.headD Reaction.none).calls, c.reallocOk = true := by
        cases rs with
        | nil => simp [Reaction.none]
        | cons r rs => exact hrs r (by simp)
      rw [(chain_cons.mp htl.chain).1]
      obtain ⟨hlife, htv⟩ := activedTurn_life h l htl (rs.headD Reaction.none) hr
      obtain ⟨-, hturn⟩ := activedTurn_inv h htl (rs.headD Reaction.none)
      obtain ⟨hinv, hholds, hhead⟩ := hturn hlife.noCrash
      have hlen' : q.length ≤ fuel := by
        simp only [List.length_cons] at hlen
        omega
      have hrs' : ∀ r ∈ rs.tail, r.reallocOk = true ∧ ∀ c ∈ r.calls, c.reallocOk = true :=
        fun r hr => hrs r (List.mem_of_mem_tail hr)
      obtain ⟨hrec, htv'⟩ := ih rs.tail hinv hlife hholds hlen' hrs'
      rw [hhead] at hrec htv'
      simp only [activedLoop, State.andThen, hlife.noCrash, if_false]
      exact ⟨hrec, htv'.trans htv⟩

/-! ## Timeouts -/

/-- A multi timer goes from the heap to the list. -/
theorem timeout_pop_life (h : Inv s q) (l : Life s q none) {ev : Addr}
    (htop : minHeapTop s.mh = some ev) (hcb : (s.mh.timers ev).cb = .multiCb) :
    Life { s with mh := minHeapErase s.mh ev, tl := listInsert s.tl ev } (ev :: q) none := by
  obtain ⟨-, -, hhas, htim⟩ := minHeapErase_top h.indexed htop
  obtain ⟨hn, hp⟩ := minHeapTop_eq_some htop
  have hev : s.mh.Has ev := ⟨0, by omega, hp⟩
  have hcb' : ∀ x, ((minHeapErase s.mh ev).timers x).cb = (s.mh.timers x).cb := by
    intro x
    obtain ⟨i, hi⟩ := htim x
    rw [hi]
  refine ⟨l.ml, ?_, ?_, ?_, l.once, l.multi, ?_, l.noDangling, l.noCrash⟩
  · intro w
    rw [l.pending w]
    show _ ↔ (minHeapErase s.mh ev).Has w ∨ w ∈ ev :: q
    rw [hhas w, List.mem_cons]
    by_cases he : w = ev
    · simp [he, hev]
    · simp [he]
  · intro w hw
    show kindOf s.log w = some ((minHeapErase s.mh ev).timers w).cb
    rw [hcb']
    exact l.heapKind w ((hhas w).1 hw).2
  · intro w hw
    show ((minHeapErase s.mh ev).timers w).cb = .multiCb ∧ kindOf s.log w = some .multiCb
    rw [hcb']
    cases List.mem_cons.mp hw with
    | inl he =>
      subst he
      exact ⟨hcb, by rw [l.heapKind w hev, hcb]⟩
    | inr hw => exact l.qKind w hw
  · intro w hw
    cases hw

/-- No once timer of the heap has run out. -/
def OnceRunning (h : MinHeap) : Prop :=
  ∀ w, h.Has w → (h.timers w).cb = .onceCb →
    utilTimersmaller ⟨0, 0⟩ (h.timers w).timeout = true

/-- `timer_process_timeout` takes multi timers only. -/
theorem timeoutLoop_life (fuel : Nat) : ∀ {s : State} {q : List Addr}, Inv s q →
    Life s q none → s.tl.Holds q → s.clock = s.t2 → OnceRunning s.mh →
    ∃ q', Inv (timeoutLoop fuel s) q' ∧ Life (timeoutLoop fuel s) q' none ∧
      (timeoutLoop fuel s).tl.Holds q' ∧ (timeoutLoop fuel s).tv = s.tv := by
  induction fuel with
  | zero =>
    intro s q h l htl _ _
    exact ⟨q, h, l, htl, rfl⟩
  | succ fuel ih =>
    intro s q h l htl hclock honce
    simp only [timeoutLoop]
    cases htop : minHeapTop s.mh with
    | none => exact ⟨q, h, l, htl, rfl⟩
    | some ev =>
      dsimp only
      split
      · exact ⟨q, h, l, htl, rfl⟩
      · rename_i hout
        obtain ⟨hn, hp⟩ := minHeapTop_eq_some htop
        have hev : s.mh.Has ev := ⟨0, by omega, hp⟩
        have hcb : (s.mh.timers ev).cb = .multiCb := by
          cases hk : (s.mh.timers ev).cb with
          | multiCb => rfl
          | onceCb => exact absurd (honce ev hev hk) hout
        obtain ⟨hinv, hholds⟩ := timeout_pop h htl hclock htop (by simpa using hout)
        have hlife := timeout_pop_life h l htop hcb
        obtain ⟨-, -, hhas, htim⟩ := minHeapErase_top h.indexed htop
        have honce' : OnceRunning (minHeapErase s.mh ev) := by
          intro w hw
          obtain ⟨i, hi⟩ := htim w
          rw [hi]
          exact honce w ((hhas w).1 hw).2
        exact ih hinv hlife hholds hclock honce'

/-! ## Runs -/

/-- The invariant between two iterations of a run in which no once timer
fires; `*tv` is NULL only when there is no timer. -/
structure Between (s : State) : Prop where
  inv : Inv s []
  tl : s.tl.Holds []
  life : Life s [] none
  tv : s.tv = none → s.mh.n = 0

/-- Looking up the next timeout does not crash. -/
theorem Between.next (b : Between s) : ∃ tv, timerGetNextTimeout s = { s with tv := tv } ∧
    (tv = none → s.mh.n = 0) := by
  unfold timerGetNextTimeout
  cases htop : minHeapTop s.mh with
  | none => exact ⟨none, rfl, fun _ => minHeapTop_eq_none htop⟩
  | some t =>
    obtain ⟨hn, -⟩ := minHeapTop_eq_some htop
    cases htv : s.tv with
    | none => exact absurd (b.tv htv) hn
    | some tv => exact ⟨_, rfl, by simp⟩

/-- The state after the second clock reading and the update of the timeouts. -/
def updated (s : State) (tv : Option TimeVal) (idle wait : Nat) : State :=
  { s with
    tv := tv
    clock := s.clock + idle + wait
    t2 := s.clock + idle + wait
    mh := timerUpdate s.mh (timerGetTime (s.clock + idle))
      (timerGetTime (s.clock + idle + wait)) }

/-- The update of the timeouts keeps the timers of the heap. -/
theorem updated_has (h : Inv s []) (tv : Option TimeVal) (idle wait : Nat) (w : Addr) :
    (updated s tv idle wait).mh.Has w ↔ s.mh.Has w := by
  obtain ⟨hp, hn, -⟩ := timerUpdate_spec h.indexed (timerGetTime (s.clock + idle))
    (timerGetTime (s.clock + idle + wait))
  unfold MinHeap.Has updated
  rw [hp, hn]

/-- The update of the timeouts keeps the life cycle. -/
theorem updated_life (h : Inv s []) (l : Life s [] none) (tv : Option TimeVal)
    (idle wait : Nat) : Life (updated s tv idle wait) [] none := by
  obtain ⟨-, -, htim⟩ := timerUpdate_spec h.indexed (timerGetTime (s.clock + idle))
    (timerGetTime (s.clock + idle + wait))
  refine ⟨l.ml, ?_, ?_, by simp, l.once, l.multi, l.curMem, l.noDangling, l.noCrash⟩
  · intro w
    rw [updated_has h]
    exact l.pending w
  · intro w hw
    have hw' := (updated_has h tv idle wait w).1 hw
    show kindOf s.log w = some ((timerUpdate s.mh _ _).timers w).cb
    rw [htim w hw']
    exact l.heapKind w hw'

/-- `timer_process_actived` when all waiting timers are multi timers. -/
theorem timerProcessActived_life (h : Inv s q) (l : Life s q none) (htl : s.tl.Holds q)
    {rs : List Reaction} (hrs : ∀ r ∈ rs, r.reallocOk = true ∧ ∀ c ∈ r.calls, c.reallocOk = true) :
    Life (timerProcessActived s rs) [] none ∧ (timerProcessActived s rs).tv = s.tv := by
  unfold timerProcessActived
  have hlen := htl.len
  split
  · have hq : q = [] := List.length_eq_zero_iff.mp (by omega)
    subst hq
    exact ⟨l, rfl⟩
  · exact activedLoop_life s.tl.len.toNat rs h l htl (by omega) hrs

/-- Nothing happens when there is no timer. -/
theorem process_empty (hn : s.mh.n = 0) (htl : s.tl.Holds []) (rs : List Reaction) :
    timerProcessActived (timerProcessTimeout s) rs = s := by
  have hlen := htl.len
  unfold timerProcessTimeout
  rw [hn, timeoutLoop]
  unfold timerProcessActived
  rw [if_pos (by simpa using hlen)]

/-- An iteration in which no once timer fires keeps the life cycle. -/
theorem timerLoopTurn_between (b : Between s) {it : Iteration} (hgood : NoOnceFires s it) :
    Between (timerLoopTurn s it) := by
  unfold timerLoopTurn
  split
  · rename_i hrun
    obtain ⟨tv, heq, htvn⟩ := b.next
    rw [heq]
    simp only [State.andThen, b.life.noCrash, if_false]
    split
    · rename_i hok
      show Between (timerProcessActived
        (timerProcessTimeout (updated s tv it.idle it.wait)) it.reactions)
      have hup : Inv (updated s tv it.idle it.wait) [] := update_inv b.inv it.idle it.wait
      obtain ⟨-, hn, htim⟩ :=
        timerUpdate_spec b.inv.indexed (timerGetTime (s.clock + it.idle))
          (timerGetTime (s.clock + it.idle + it.wait))
      have honce : OnceRunning (updated s tv it.idle it.wait).mh := by
        intro w hw
        have hw' := (updated_has b.inv tv it.idle it.wait w).1 hw
        show ((timerUpdate s.mh _ _).timers w).cb = _ →
          utilTimersmaller _ ((timerUpdate s.mh _ _).timers w).timeout = true
        rw [htim w hw']
        obtain ⟨i, hi, rfl⟩ := hw'
        exact hgood.once hrun hok i hi
      obtain ⟨q, hinv, hl, hholds, htv⟩ := timeoutLoop_life (updated s tv it.idle it.wait).mh.n
        hup (updated_life b.inv b.life tv it.idle it.wait) b.tl rfl honce
      obtain ⟨hlife, htv'⟩ := timerProcessActived_life hinv hl hholds hgood.realloc
      obtain ⟨hinv', htl'⟩ := (timerProcessActived_inv hinv hholds it.reactions).2 hlife.noCrash
      refine ⟨hinv', htl', hlife, ?_⟩
      intro hnone
      have hz : (updated s tv it.idle it.wait).mh.n = 0 := by
        show (timerUpdate s.mh _ _).n = 0
        rw [hn]
        exact htvn (((htv'.trans htv).symm.trans hnone))
      rw [process_empty hz b.tl]
      exact hz
    · exact ⟨Core.wait (Core.wait b.inv it.idle) it.wait, b.tl,
        { b.life with noCrash := by simp }, htvn⟩
  · exact b

/-- Between two iterations of such a run the life cycle is as it should be. -/
theorem Between.lifeCycle (b : Between s) : LifeCycle s := by
  have hhas : ∀ w, Pending s.log w ↔ s.mh.Has w := by
    intro w
    simpa using b.life.pending w
  refine ⟨b.life.ml, ?_, ?_, ?_, b.life.noDangling, b.life.noCrash⟩
  · intro w hw
    have hnodup : s.mh.members.Nodup := by
      refine List.Nodup.map_on ?_ List.nodup_range
      intro i hi j hj hij
      exact b.inv.indexed.inj (List.mem_range.mp hi) (List.mem_range.mp hj) hij
    exact List.count_eq_one_of_mem hnodup (mem_members.mpr ((hhas w).1 hw))
  · intro w hk hc
    have := b.life.once w hk
    omega
  · intro w hk
    simpa using b.life.multi w hk

/-- The calls made before the loop keep the life cycle. -/
theorem setup_life (cs : List Call) : ∀ {s : State}, Inv s [] → Life s [] none →
    (∀ c ∈ cs, c.reallocOk = true) → Life (setup s cs) [] none := by
  induction cs with
  | nil =>
    intro s _ l _
    exact l
  | cons c cs ih =>
    intro s h l hcs
    exact ih (call_inv h c).1 (call_life h l c (hcs c (by simp)))
      fun c' hc' => hcs c' (by simp [hc'])

/-- The state after `timer_init` and the calls made before the loop. -/
theorem setup_between (hs : s.Fresh) (cs : List Call)
    (hcs : ∀ c ∈ cs, c.reallocOk = true) : Between (setup s cs) := by
  have hlife : Life s [] none := by
    have hempty : ∀ w, ¬ s.mh.Has w := by
      intro w hw
      obtain ⟨i, hi, -⟩ := hw
      rw [hs.heap] at hi
      omega
    refine ⟨⟨[], ⟨chain_nil.mpr hs.mlHead, hs.mlLen⟩, ?_⟩, ?_, ?_, by simp, ?_, ?_, by simp,
      hs.dangling, ?_⟩
    · intro w
      simp [hs.log, Pending, kindOf]
    · intro w
      simp [hs.log, Pending, kindOf, hempty w]
    · intro w hw
      exact absurd hw (hempty w)
    · intro w hw
      simp [hs.log, kindOf] at hw
    · intro w hw
      simp [hs.log, kindOf] at hw
    · rw [hs.running]
      simp
  have hsetup := setup_life cs hs.inv hlife hcs
  obtain ⟨hinv, htl⟩ := (setup_runInv hs cs).2 hsetup.noCrash
  obtain ⟨-, hframe⟩ := setup_inv cs hs.inv
  refine ⟨hinv, htl, hsetup, ?_⟩
  intro htv
  have hsome := hs.tv
  rw [hframe.tv] at htv
  rw [htv] at hsome
  simp at hsome

/-- A step of a run: one iteration of `timer_loop`. -/
def turn (s : State) (it : Iteration) : Option State := some (timerLoopTurn s it)

end Donkeyji.Mytimer
