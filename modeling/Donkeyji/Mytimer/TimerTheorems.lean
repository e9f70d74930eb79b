/-
Donkeyji.Mytimer.TimerTheorems — what every run of the timer loop keeps, and
that timers never fire early.

`Core` is the invariant. Beside the running program it follows the timers
that have been taken out of the heap and still wait for their callbacks; the
list of these is a parameter. A timer of the heap has been armed at some
reading of the clock for some timeout, and what is left of that timeout plus
the time since then makes up the whole of it. The invariant holds in crashed
states as well, so nothing is assumed about the released memory that
`timer_process_actived` may have read.

`never_early` reads the result off the history: the timeout for which a
timer was last armed has passed at the clock reading of the iteration that
calls its callback.
-/
import Donkeyji.Lib.Chain
import Donkeyji.Mytimer.MinHeapTheorems
import Donkeyji.Mytimer.NodeListTheorems
import Donkeyji.Mytimer.Timer

namespace Donkeyji.Mytimer

open LinkedList

/-! ## Time values -/

/-- The microseconds of a time value. -/
def TimeVal.micros (t : TimeVal) : Int := t.tvSec * 1000000 + t.tvUsec

/-- The microseconds part is in range. -/
def TimeVal.Normal (t : TimeVal) : Prop := 0 ≤ t.tvUsec ∧ t.tvUsec ≤ 999999

/-- The difference of two normal time values is normal. -/
theorem utilTimersub_normal {a b : TimeVal} (ha : a.Normal) (hb : b.Normal) :
    (utilTimersub a b).Normal := by
  obtain ⟨ha1, ha2⟩ := ha
  obtain ⟨hb1, hb2⟩ := hb
  unfold utilTimersub TimeVal.Normal
  dsimp only
  split <;> dsimp only <;> omega

/-- `util_timersub` subtracts, also when it borrows a second. -/
@[simp] theorem micros_utilTimersub (a b : TimeVal) :
    (utilTimersub a b).micros = a.micros - b.micros := by
  unfold utilTimersub TimeVal.micros
  dsimp only
  split <;> dsimp only <;> omega

@[simp] theorem micros_timerGetTime (t : Nat) : (timerGetTime t).micros = t := by
  unfold timerGetTime TimeVal.micros
  dsimp only
  omega

theorem timerGetTime_normal (t : Nat) : (timerGetTime t).Normal := by
  unfold timerGetTime TimeVal.Normal
  dsimp only
  omega

/-- The interval between two readings is normal. -/
theorem delta_normal (t1 t2 : Nat) :
    (utilTimersub (timerGetTime t2) (timerGetTime t1)).Normal :=
  utilTimersub_normal (timerGetTime_normal t2) (timerGetTime_normal t1)

/-- A normal timeout that is not greater than zero has run out. -/
theorem micros_nonpos {t : TimeVal} (ht : t.Normal)
    (h : utilTimersmaller ⟨0, 0⟩ t = false) : t.micros ≤ 0 := by
  obtain ⟨h1, h2⟩ := ht
  unfold utilTimersmaller at h
  unfold TimeVal.micros
  dsimp only at h
  split at h
  · simp only [decide_eq_false_iff_not] at h
    omega
  · simp only [decide_eq_false_iff_not] at h
    omega

/-! ## The history -/

/-- The clock reading and the timeout of the last time the wrapper's timer
was armed. -/
def lastArmed : List Event → Addr → Option (Nat × TimeVal)
  | [], _ => none
  | .created mt _ :: log, w => if mt = w then none else lastArmed log w
  | .armed mt a tv :: log, w => if mt = w then some (a, tv) else lastArmed log w
  | .called _ _ _ _ :: log, w => lastArmed log w

/-- The timer's callback is called at the reading `t2` only when the timeout
it was last armed for has passed. -/
def OnTime (older : List Event) (w : Addr) (t2 : Nat) : Prop :=
  ∃ a tv, lastArmed older w = some (a, tv) ∧
    (tv.Normal → 0 ≤ tv.tvSec → tv.micros ≤ (t2 : Int) - a)

/-- No callback of the history was called early. -/
def NeverEarly (log : List Event) : Prop :=
  ∀ w cb arg t2 older, (.called w cb arg t2 :: older) <:+ log → OnTime older w t2

/-- An event that is not a call cannot be early. -/
theorem NeverEarly.cons {log : List Event} {e : Event} (h : NeverEarly log)
    (he : ∀ w cb arg t2, e = .called w cb arg t2 → OnTime log w t2) :
    NeverEarly (e :: log) := by
  intro w cb arg t2 older hs
  cases List.suffix_cons_iff.mp hs with
  | inl heq =>
    obtain ⟨h1, h2⟩ := List.cons.inj heq
    subst h2
    exact he w cb arg t2 h1.symm
  | inr hs => exact h w cb arg t2 older hs

/-! ## The invariant -/

/-- What the timer's remaining timeout says about the time it was armed. -/
def Running (mh : MinHeap) (log : List Event) (clock : Nat) (w : Addr) : Prop :=
  ∃ a tv, lastArmed log w = some (a, tv) ∧ (tv.Normal →
    (mh.timers w).timeout.Normal ∧ tv.micros ≤ (mh.timers w).timeout.micros + ((clock : Int) - a))

/-- The invariant; `q` are the timers whose callbacks are still to be called. -/
structure Core (mh : MinHeap) (live blocks : List Addr) (log : List Event) (clock t2 : Nat)
    (q : List Addr) : Prop where
  indexed : mh.Indexed
  heapLive : ∀ w, mh.Has w → w ∈ live
  heapArg : ∀ w, mh.Has w → (mh.timers w).arg = w
  heapTime : ∀ w, mh.Has w → Running mh log clock w
  liveBlocks : ∀ w ∈ live, w ∈ blocks
  nodup : q.Nodup
  qLive : ∀ w ∈ q, w ∈ live
  qOut : ∀ w ∈ q, ¬ mh.Has w
  qArg : ∀ w ∈ q, (mh.timers w).arg = w
  qTime : ∀ w ∈ q, OnTime log w t2
  early : NeverEarly log

/-- The invariant of a state. -/
def Inv (s : State) (q : List Addr) : Prop :=
  Core s.mh s.live s.blocks s.log s.clock s.t2 q

variable {s : State} {mh : MinHeap} {live blocks : List Addr} {log : List Event}
  {clock t2 : Nat} {q : List Addr}

/-- Time passes. -/
theorem Core.wait (h : Core mh live blocks log clock t2 q) (d : Nat) :
    Core mh live blocks log (clock + d) t2 q where
  indexed := h.indexed
  heapLive := h.heapLive
  heapArg := h.heapArg
  heapTime := by
    intro w hw
    obtain ⟨a, tv, hlast, ht⟩ := h.heapTime w hw
    refine ⟨a, tv, hlast, ?_⟩
    intro htv
    obtain ⟨h1, h2⟩ := ht htv
    refine ⟨h1, ?_⟩
    push_cast
    omega
  liveBlocks := h.liveBlocks
  nodup := h.nodup
  qLive := h.qLive
  qOut := h.qOut
  qArg := h.qArg
  qTime := h.qTime
  early := h.early

/-- An event about a timer that is neither in the heap nor waiting leaves
the others as they are. -/
theorem Core.event (h : Core mh live blocks log clock t2 q) {e : Event}
    (hheap : ∀ w, mh.Has w → lastArmed (e :: log) w = lastArmed log w)
    (hq : ∀ w ∈ q, lastArmed (e :: log) w = lastArmed log w)
    (he : ∀ w cb arg t2, e = .called w cb arg t2 → OnTime log w t2) :
    Core mh live blocks (e :: log) clock t2 q where
  indexed := h.indexed
  heapLive := h.heapLive
  heapArg := h.heapArg
  heapTime := by
    intro w hw
    unfold Running
    rw [hheap w hw]
    exact h.heapTime w hw
  liveBlocks := h.liveBlocks
  nodup := h.nodup
  qLive := h.qLive
  qOut := h.qOut
  qArg := h.qArg
  qTime := by
    intro w hw
    unfold OnTime
    rw [hq w hw]
    exact h.qTime w hw
  early := h.early.cons he

/-- The fields of a timer that is neither in the heap nor waiting change. -/
theorem Core.timer (h : Core mh live blocks log clock t2 q) {w : Addr} (hw : ¬ mh.Has w)
    (hq : w ∉ q) (t : Timer) :
    Core { mh with timers := Function.update mh.timers w t } live blocks log clock t2 q := by
  have hne : ∀ x, mh.Has x → x ≠ w := fun x hx he => hw (he ▸ hx)
  have hneq : ∀ x ∈ q, x ≠ w := fun x hx he => hq (he ▸ hx)
  refine ⟨?_, h.heapLive, ?_, ?_, h.liveBlocks, h.nodup, h.qLive, h.qOut, ?_, h.qTime, h.early⟩
  · intro i hi
    show (Function.update mh.timers w t (mh.p i)).minHeapIdx = i
    rw [Function.update_of_ne (hne _ ⟨i, hi, rfl⟩)]
    exact h.indexed i hi
  · intro x hx
    show (Function.update mh.timers w t x).arg = x
    rw [Function.update_of_ne (hne x hx)]
    exact h.heapArg x hx
  · intro x hx
    have ht : (Function.update mh.timers w t) x = mh.timers x := Function.update_of_ne (hne x hx) _ _
    unfold Running
    dsimp only
    rw [ht]
    exact h.heapTime x hx
  · intro x hx
    show (Function.update mh.timers w t x).arg = x
    rw [Function.update_of_ne (hneq x hx)]
    exact h.qArg x hx

/-- A timer that is neither in the heap nor waiting is pushed, and the event
that it is armed for its timeout is recorded. -/
theorem Core.push (h : Core mh live blocks log clock t2 q) {ok : Bool} {w : Addr}
    {mh' : MinHeap} (hlive : w ∈ live) (hw : ¬ mh.Has w) (hq : w ∉ q)
    (harg : (mh.timers w).arg = w) (hpush : minHeapPush ok mh w = some mh') :
    Core mh' live blocks (.armed w clock (mh.timers w).timeout :: log) clock t2 q := by
  obtain ⟨-, hidx, hhas, htim, -⟩ := minHeapPush_spec h.indexed hw hpush
  have harg' : ∀ x, (mh'.timers x).arg = (mh.timers x).arg := by
    intro x
    obtain ⟨i, hi⟩ := htim x
    rw [hi]
  have htv : ∀ x, (mh'.timers x).timeout = (mh.timers x).timeout := by
    intro x
    obtain ⟨i, hi⟩ := htim x
    rw [hi]
  have hother : ∀ x, x ≠ w →
      lastArmed (.armed w clock (mh.timers w).timeout :: log) x = lastArmed log x := by
    intro x hx
    simp [lastArmed, Ne.symm hx]
  refine ⟨hidx, ?_, ?_, ?_, h.liveBlocks, h.nodup, h.qLive, ?_, ?_, ?_, ?_⟩
  · intro x hx
    cases (hhas x).1 hx with
    | inl he => exact he ▸ hlive
    | inr hx => exact h.heapLive x hx
  · intro x hx
    rw [harg']
    cases (hhas x).1 hx with
    | inl he => exact he ▸ harg
    | inr hx => exact h.heapArg x hx
  · intro x hx
    unfold Running
    rw [htv]
    by_cases he : x = w
    · subst he
      refine ⟨clock, (mh.timers x).timeout, by simp [lastArmed], ?_⟩
      intro hn
      exact ⟨hn, by omega⟩
    · rw [hother x he]
      cases (hhas x).1 hx with
      | inl h' => exact absurd h' he
      | inr hx => exact h.heapTime x hx
  · intro x hx hx'
    cases (hhas x).1 hx' with
    | inl he => exact hq (he ▸ hx)
    | inr hx' => exact h.qOut x hx hx'
  · intro x hx
    rw [harg']
    exact h.qArg x hx
  · intro x hx
    have he : x ≠ w := fun he => hq (he ▸ hx)
    unfold OnTime
    rw [hother x he]
    exact h.qTime x hx
  · apply h.early.cons
    intro w' cb arg t2' he
    cases he

/-! ## Following pointers -/

/-- Following pointers changes nothing but the status and the record of
released memory read. -/
theorem derefAll_eq (xs : List (Option Addr)) : ∀ s : State, ∃ st d,
    s.derefAll xs = { s with status := st, dangling := d } := by
  induction xs with
  | nil =>
    intro s
    exact ⟨s.status, s.dangling, rfl⟩
  | cons x xs ih =>
    intro s
    have hx : ∃ st d, s.deref x = { s with status := st, dangling := d } := by
      cases x with
      | none => exact ⟨.crashed, s.dangling, rfl⟩
      | some a =>
        simp only [State.deref]
        split
        · exact ⟨.crashed, s.dangling, rfl⟩
        · split
          · exact ⟨s.status, true, rfl⟩
          · exact ⟨s.status, s.dangling, rfl⟩
    obtain ⟨st, d, hx⟩ := hx
    obtain ⟨st', d', ih⟩ := ih (s.deref x)
    refine ⟨st', d', ?_⟩
    show (s.deref x).derefAll xs = _
    rw [ih, hx]

/-- Live memory can be followed. -/
theorem deref_live {a : Addr} (ha : a ∈ s.live) (hb : ∀ w ∈ s.live, w ∈ s.blocks) :
    s.deref (some a) = s := by
  simp [State.deref, ha, hb a ha]

/-- Several pointers into live memory can be followed. -/
theorem derefAll_live {xs : List Addr} (hx : ∀ a ∈ xs, a ∈ s.live)
    (hb : ∀ w ∈ s.live, w ∈ s.blocks) : s.derefAll (xs.map some) = s := by
  induction xs with
  | nil => rfl
  | cons a xs ih =>
    show (s.deref (some a)).derefAll (xs.map some) = s
    rw [deref_live (hx a (by simp)) hb]
    exact ih fun b hb' => hx b (by simp [hb'])

theorem mem_members {h : MinHeap} {w : Addr} : w ∈ h.members ↔ h.Has w := by
  simp [MinHeap.members, MinHeap.Has]

/-- What does not change while callbacks run: the list of timers to be
called, the readings, and that memory stays allocated. -/
structure Frame (s s' : State) : Prop where
  tl : s'.tl = s.tl
  t2 : s'.t2 = s.t2
  tv : s'.tv = s.tv
  live : ∀ w ∈ s.live, w ∈ s'.live
  blocks : ∀ w ∈ s.blocks, w ∈ s'.blocks
  status : s'.status = s.status
  dangling : s'.dangling = s.dangling

/-- A step that touches none of these. -/
theorem Frame.same (s : State) {s' : State} (htl : s'.tl = s.tl) (ht2 : s'.t2 = s.t2)
    (htv : s'.tv = s.tv) (hlive : s'.live = s.live) (hblocks : s'.blocks = s.blocks)
    (hst : s'.status = s.status) (hd : s'.dangling = s.dangling) : Frame s s' :=
  ⟨htl, ht2, htv, fun _ hw => hlive ▸ hw, fun _ hw => hblocks ▸ hw, hst, hd⟩

theorem Frame.refl (s : State) : Frame s s := Frame.same s rfl rfl rfl rfl rfl rfl rfl

theorem Frame.trans {s s' s'' : State} (h : Frame s s') (h' : Frame s' s'') : Frame s s'' where
  tl := h'.tl.trans h.tl
  t2 := h'.t2.trans h.t2
  tv := h'.tv.trans h.tv
  live := fun w hw => h'.live w (h.live w hw)
  blocks := fun w hw => h'.blocks w (h.blocks w hw)
  status := h'.status.trans h.status
  dangling := h'.dangling.trans h.dangling

/-- A step guarded by `andThen` keeps what the step keeps. -/
theorem andThen_of {P : State → Prop} {f : State → State} (hs : P s)
    (hf : s.status ≠ .crashed → P (f s)) : P (s.andThen f) := by
  unfold State.andThen
  split
  · exact hs
  · rename_i hc
    exact hf hc

/-! ## Creating and arming timers -/

/-- `timer_add` follows live pointers only. -/
theorem timerAdd_derefs (h : Inv s q) {w : Addr} (hlive : w ∈ s.live) :
    s.derefAll (some w :: s.mh.members.map some) = s := by
  have hall : ∀ a ∈ w :: s.mh.members, a ∈ s.live := by
    intro a ha
    cases List.mem_cons.mp ha with
    | inl he => exact he ▸ hlive
    | inr ha => exact h.heapLive a (mem_members.mp ha)
  exact derefAll_live hall h.liveBlocks

/-- `timer_add` of a timer that is neither in the heap nor waiting. -/
theorem timerAdd_inv (h : Inv s q) {w : Addr} (hlive : w ∈ s.live) (hw : ¬ s.mh.Has w)
    (hq : w ∉ q) (harg : (s.mh.timers w).arg = w) (ok : Bool) (tv : TimeVal) :
    Inv (timerAdd ok s w tv) q ∧ Frame s (timerAdd ok s w tv) := by
  unfold timerAdd
  rw [timerAdd_derefs h hlive]
  unfold State.andThen
  split
  · exact ⟨h, Frame.refl s⟩
  · have hc : Core (s.mh.setTimeout w tv) s.live s.blocks s.log s.clock s.t2 q :=
      Core.timer h hw hq { s.mh.timers w with timeout := tv }
    dsimp only
    cases hp : minHeapPush ok (s.mh.setTimeout w tv) w with
    | none => exact ⟨hc, Frame.same s rfl rfl rfl rfl rfl rfl rfl⟩
    | some mh' =>
      have hpush := hc.push hlive hw hq (by simpa [MinHeap.setTimeout] using harg) hp
      have htv : ((s.mh.setTimeout w tv).timers w).timeout = tv := by simp [MinHeap.setTimeout]
      rw [htv] at hpush
      exact ⟨hpush, Frame.same s rfl rfl rfl rfl rfl rfl rfl⟩

/-- The state in which `once_call` or `multi_call` adds its timer: the new
wrapper `mt` is filled in. -/
def prepared (s : State) (k : TimerCb) (c : Call) (mt : Addr) : State :=
  timerSet { s with
    clock := s.clock + c.delay
    live := mt :: s.live
    blocks := mt :: s.blocks
    wrappers := Function.update s.wrappers mt ⟨c.func, c.arg, c.timeout⟩
    log := .created mt k :: s.log } mt k mt

/-- `once_call` and `multi_call` return without a new wrapper, or add one. -/
theorem callWith_cases (s : State) (k : TimerCb) (c : Call) :
    callWith k s c = { s with clock := s.clock + c.delay } ∨
    ∃ mt, mt ∉ s.live ∧ callWith k s c =
      (timerAdd c.reallocOk (prepared s k c mt) mt c.timeout).andThen fun s =>
        { s with ml := mListInsert s.ml mt } := by
  unfold callWith
  cases c.addr with
  | none => exact Or.inl rfl
  | some mt =>
    by_cases hin : mt ∈ s.live
    · left
      simp only [timerWrapperNew, hin, if_true]
    · simp only [timerWrapperNew, hin, if_false]
      exact Or.inr ⟨mt, hin, rfl⟩

/-- The new block is live and its timer is nowhere. -/
theorem prepared_inv (h : Inv s q) (k : TimerCb) (c : Call) {mt : Addr} (hin : mt ∉ s.live) :
    Inv (prepared s k c mt) q ∧ Frame s (prepared s k c mt) ∧
      ¬ (prepared s k c mt).mh.Has mt ∧ mt ∉ q := by
  have hout : ¬ s.mh.Has mt := fun hw => hin (h.heapLive mt hw)
  have hnq : mt ∉ q := fun hw => hin (h.qLive mt hw)
  have hwait : Core s.mh s.live s.blocks s.log (s.clock + c.delay) s.t2 q := Core.wait h c.delay
  have hnew : Core s.mh (mt :: s.live) (mt :: s.blocks) s.log (s.clock + c.delay) s.t2 q :=
    { hwait with
      heapLive := fun w hw => List.mem_cons_of_mem _ (h.heapLive w hw)
      liveBlocks := by
        intro w hw
        cases List.mem_cons.mp hw with
        | inl he => exact he ▸ List.mem_cons_self
        | inr hw => exact List.mem_cons_of_mem _ (h.liveBlocks w hw)
      qLive := fun w hw => List.mem_cons_of_mem _ (h.qLive w hw) }
  have hlog : Core s.mh (mt :: s.live) (mt :: s.blocks) (.created mt k :: s.log)
      (s.clock + c.delay) s.t2 q := by
    refine hnew.event ?_ ?_ ?_
    · intro w hw
      have hne : mt ≠ w := fun he => hout (he ▸ hw)
      simp [lastArmed, hne]
    · intro w hw
      have hne : mt ≠ w := fun he => hnq (he ▸ hw)
      simp [lastArmed, hne]
    · intro w cb arg t2 he
      cases he
  have hframe : Frame s (prepared s k c mt) :=
    ⟨rfl, rfl, rfl, fun _ hw => List.mem_cons_of_mem _ hw,
      fun _ hw => List.mem_cons_of_mem _ hw, rfl, rfl⟩
  exact ⟨hlog.timer hout hnq { s.mh.timers mt with cb := k, arg := mt }, hframe, hout, hnq⟩

/-- A call of `once_call` or `multi_call` keeps the invariant. -/
theorem callWith_inv (h : Inv s q) (k : TimerCb) (c : Call) :
    Inv (callWith k s c) q ∧ Frame s (callWith k s c) := by
  cases callWith_cases s k c with
  | inl heq =>
    rw [heq]
    exact ⟨Core.wait h c.delay, Frame.same s rfl rfl rfl rfl rfl rfl rfl⟩
  | inr hnew =>
    obtain ⟨mt, hin, heq⟩ := hnew
    rw [heq]
    obtain ⟨hinv, hframe, hout, hnq⟩ := prepared_inv h k c hin
    have hadd := timerAdd_inv hinv List.mem_cons_self hout hnq
      (by simp [prepared, timerSet]) c.reallocOk c.timeout
    have hall := And.intro hadd.1 (hframe.trans hadd.2)
    refine andThen_of (P := fun s' => Inv s' q ∧ Frame s s') hall ?_
    intro _
    exact ⟨hall.1, ⟨hall.2.tl, hall.2.t2, hall.2.tv, hall.2.live, hall.2.blocks,
      hall.2.status, hall.2.dangling⟩⟩

/-- A call of the interface keeps the invariant. -/
theorem call_inv (h : Inv s q) (c : Call) : Inv (call s c) q ∧ Frame s (call s c) := by
  unfold call
  cases c.kind with
  | onceCb => exact callWith_inv h .onceCb c
  | multiCb => exact callWith_inv h .multiCb c

/-- The calls of a callback keep the invariant. -/
theorem calls_inv (cs : List Call) : ∀ {s : State}, Inv s q →
    Inv (cs.foldl (fun s c => s.andThen fun s => call s c) s) q ∧
      Frame s (cs.foldl (fun s c => s.andThen fun s => call s c) s) := by
  induction cs with
  | nil =>
    intro s h
    exact ⟨h, Frame.refl s⟩
  | cons c cs ih =>
    intro s h
    have hc : Inv (s.andThen fun s => call s c) q ∧ Frame s (s.andThen fun s => call s c) :=
      andThen_of (P := fun s' => Inv s' q ∧ Frame s s') ⟨h, Frame.refl s⟩
        fun _ => call_inv h c
    obtain ⟨hinv, hframe⟩ := ih hc.1
    exact ⟨hinv, hc.2.trans hframe⟩

/-! ## Callbacks -/

/-- The state in which a callback starts. -/
def State.logCalled (s : State) (w : Addr) : State :=
  { s with log := .called w (s.wrappers w).cb (s.wrappers w).arg s.t2 :: s.log }

/-- A waiting timer may be called. -/
theorem logCalled_inv (h : Inv s q) {w : Addr} (hw : w ∈ q) : Inv (s.logCalled w) q := by
  refine Core.event h (fun _ _ => rfl) (fun _ _ => rfl) ?_
  intro w' cb arg t2 he
  cases he
  exact h.qTime w hw

/-- The callback of a waiting timer keeps the invariant. -/
theorem userCallback_inv (h : Inv s q) {w : Addr} (hw : w ∈ q) (r : Reaction) :
    Inv (userCallback s w r) q ∧ Frame s (userCallback s w r) := by
  obtain ⟨hinv, hf⟩ := calls_inv r.calls (logCalled_inv h hw)
  have hsame : Frame s (s.logCalled w) := Frame.same s rfl rfl rfl rfl rfl rfl rfl
  have hframe := hsame.trans hf
  exact andThen_of (P := fun s' => Inv s' q ∧ Frame s s') ⟨hinv, hframe⟩ fun _ =>
    ⟨Core.wait hinv r.delay, Frame.trans hframe (Frame.same _ rfl rfl rfl rfl rfl rfl rfl)⟩

/-- A waiting timer no longer waits. -/
theorem Core.drop {w : Addr} (h : Core mh live blocks log clock t2 (w :: q)) :
    Core mh live blocks log clock t2 q :=
  { h with
    nodup := (List.nodup_cons.mp h.nodup).2
    qLive := fun x hx => h.qLive x (List.mem_cons_of_mem _ hx)
    qOut := fun x hx => h.qOut x (List.mem_cons_of_mem _ hx)
    qArg := fun x hx => h.qArg x (List.mem_cons_of_mem _ hx)
    qTime := fun x hx => h.qTime x (List.mem_cons_of_mem _ hx) }

/-- `multi_cb` calls the callback of the timer and arms the timer again. -/
theorem multiCb_inv {w : Addr} (h : Inv s (w :: q)) (r : Reaction) :
    (∃ q', Inv (multiCb s w r) q') ∧ Frame s (multiCb s w r) ∧
      ((multiCb s w r).status ≠ .crashed → Inv (multiCb s w r) q) := by
  have hlive : w ∈ s.live := h.qLive w (by simp)
  unfold multiCb
  rw [deref_live hlive h.liveBlocks]
  unfold State.andThen
  split
  · rename_i hc
    exact ⟨⟨_, h⟩, Frame.refl s, fun hne => absurd hc hne⟩
  · obtain ⟨hinv, hframe⟩ := userCallback_inv h (w := w) (by simp) r
    dsimp only
    split
    · rename_i hc
      exact ⟨⟨_, hinv⟩, hframe, fun hne => absurd hc hne⟩
    · have hnq : w ∉ q := (List.nodup_cons.mp h.nodup).1
      have hout : ¬ (userCallback s w r).mh.Has w := hinv.qOut w (by simp)
      have hset := hinv.drop.timer hout hnq
        { (userCallback s w r).mh.timers w with cb := .multiCb, arg := w }
      have hadd := timerAdd_inv (s := timerSet (userCallback s w r) w .multiCb w) hset
        (hframe.live w hlive) hout hnq (by simp [timerSet]) r.reallocOk (s.wrappers w).timeout
      have hf : Frame s (timerSet (userCallback s w r) w .multiCb w) :=
        hframe.trans (Frame.same _ rfl rfl rfl rfl rfl rfl rfl)
      exact ⟨⟨_, hadd.1⟩, hf.trans hadd.2, fun _ => hadd.1⟩

/-- What a callback leaves to the loop that called it. -/
structure CallbackFrame (s s' : State) : Prop where
  tl : s'.tl = s.tl
  t2 : s'.t2 = s.t2
  blocks : ∀ w ∈ s.blocks, w ∈ s'.blocks

/-- `once_cb` calls the callback of the timer and releases the wrapper. -/
theorem onceCb_inv {w : Addr} (h : Inv s (w :: q)) (r : Reaction) :
    (∃ q', Inv (onceCb s w r) q') ∧ CallbackFrame s (onceCb s w r) ∧
      ((onceCb s w r).status ≠ .crashed → Inv (onceCb s w r) q) := by
  have hlive : w ∈ s.live := h.qLive w (by simp)
  unfold onceCb
  rw [deref_live hlive h.liveBlocks]
  unfold State.andThen
  split
  · rename_i hc
    exact ⟨⟨_, h⟩, ⟨rfl, rfl, fun _ hb => hb⟩, fun hne => absurd hc hne⟩
  · obtain ⟨hinv, hframe⟩ := userCallback_inv h (w := w) (by simp) r
    dsimp only
    split
    · rename_i hc
      exact ⟨⟨_, hinv⟩, ⟨hframe.tl, hframe.t2, hframe.blocks⟩, fun hne => absurd hc hne⟩
    · obtain ⟨st, d, hd⟩ := derefAll_eq ((userCallback s w r).ml.removeDerefs w)
        (userCallback s w r)
      rw [hd]
      dsimp only
      split
      · rename_i hc
        exact ⟨⟨_, hinv⟩, ⟨hframe.tl, hframe.t2, hframe.blocks⟩, fun hne => absurd hc hne⟩
      · -- neither the heap nor a waiting timer needs the released block
        have hnq : w ∉ q := (List.nodup_cons.mp h.nodup).1
        have hout : ¬ (userCallback s w r).mh.Has w := hinv.qOut w (by simp)
        have hfree : Core (userCallback s w r).mh
            ((userCallback s w r).live.filter (· ≠ w)) (userCallback s w r).blocks
            (userCallback s w r).log (userCallback s w r).clock (userCallback s w r).t2 q :=
          { hinv.drop with
            heapLive := by
              intro x hx
              have hne : x ≠ w := fun he => hout (he ▸ hx)
              simp [hinv.heapLive x hx, hne]
            liveBlocks := fun x hx => hinv.liveBlocks x (List.mem_filter.mp hx).1
            qLive := by
              intro x hx
              have hne : x ≠ w := fun he => hnq (he ▸ hx)
              simp [hinv.drop.qLive x hx, hne] }
        exact ⟨⟨_, hfree⟩, ⟨hframe.tl, hframe.t2, hframe.blocks⟩, fun _ => hfree⟩

/-- The callback of a waiting timer, of either kind. -/
theorem timerCallback_inv {w : Addr} (h : Inv s (w :: q)) (r : Reaction) :
    (∃ q', Inv (timerCallback s w r) q') ∧ CallbackFrame s (timerCallback s w r) ∧
      ((timerCallback s w r).status ≠ .crashed → Inv (timerCallback s w r) q) := by
  unfold timerCallback
  dsimp only
  rw [h.qArg w (by simp)]
  cases (s.mh.timers w).cb with
  | onceCb => exact onceCb_inv h r
  | multiCb =>
    obtain ⟨hq, hf, hinv⟩ := multiCb_inv h r
    exact ⟨hq, ⟨hf.tl, hf.t2, hf.blocks⟩, hinv⟩

/-! ## The list of timers to be called -/

/-- One turn of `timer_process_actived` calls the first waiting timer and
takes it off the list. -/
theorem activedTurn_inv {w : Addr} (h : Inv s (w :: q)) (htl : s.tl.Holds (w :: q))
    (r : Reaction) :
    (∃ q', Inv (activedTurn s w r) q') ∧ ((activedTurn s w r).status ≠ .crashed →
      Inv (activedTurn s w r) q ∧ (activedTurn s w r).tl.Holds q ∧
        (activedTurn s w r).tl.head = s.tl.next w) := by
  have hlive : w ∈ s.live := h.qLive w (by simp)
  unfold activedTurn
  rw [deref_live hlive h.liveBlocks]
  unfold State.andThen
  split
  · rename_i hc
    exact ⟨⟨_, h⟩, fun hne => absurd hc hne⟩
  · obtain ⟨hq, hframe, hinv⟩ := timerCallback_inv h r
    dsimp only
    split
    · rename_i hc
      exact ⟨hq, fun hne => absurd hc hne⟩
    · rename_i hrun
      obtain ⟨st, d, hd⟩ := derefAll_eq ((timerCallback s w r).tl.removeDerefs w)
        (timerCallback s w r)
      rw [hd]
      dsimp only
      split
      · rename_i hc
        exact ⟨⟨_, hinv hrun⟩, fun hne => absurd hc hne⟩
      · rw [hframe.tl]
        have hrem : (s.tl.remove w).Holds q := htl.remove_head
        have hnext : Chain s.tl.next (s.tl.next w) q := (chain_cons.mp htl.chain).2
        refine ⟨⟨_, hinv hrun⟩, fun _ => ⟨hinv hrun, hrem, ?_⟩⟩
        obtain ⟨hhead, -⟩ := chain_cons.mp htl.chain
        have hlen := htl.len
        have hne : s.tl.len ≠ 0 := by
          simp only [List.length_cons] at hlen
          omega
        show (s.tl.remove w).head = s.tl.next w
        unfold NodeList.remove NodeList.setPrevOfNext
        simp only [hne, hhead, if_false, if_true]
        cases s.tl.next w with
        | none => rfl
        | some n => rfl

/-- The invariant between two turns of the loop. After a crash only the
history counts. -/
def RunInv (s : State) : Prop :=
  (∃ q, Inv s q) ∧ (s.status ≠ .crashed → Inv s [] ∧ s.tl.Holds [])

/-- `timer_process_actived` calls every waiting timer. -/
theorem activedLoop_inv (fuel : Nat) : ∀ {s : State} {q : List Addr} (rs : List Reaction),
    Inv s q → s.tl.Holds q → q.length ≤ fuel →
    RunInv (activedLoop fuel s s.tl.head rs) := by
  induction fuel with
  | zero =>
    intro s q rs h htl hlen
    have hq : q = [] := List.length_eq_zero_iff.mp (by omega)
    subst hq
    exact ⟨⟨_, h⟩, fun _ => ⟨h, htl⟩⟩
  | succ fuel ih =>
    intro s q rs h htl hlen
    cases q with
    | nil =>
      rw [chain_nil.mp htl.chain]
      exact ⟨⟨_, h⟩, fun _ => ⟨h, htl⟩⟩
    | cons w q =>
      rw [(chain_cons.mp htl.chain).1]
      obtain ⟨hq, hturn⟩ := activedTurn_inv h htl (rs.headD Reaction.none)
      simp only [activedLoop]
      unfold State.andThen
      split
      · rename_i hc
        exact ⟨hq, fun hne => absurd hc hne⟩
      · rename_i hrun
        obtain ⟨hinv, hholds, hhead⟩ := hturn hrun
        have hlen' : q.length ≤ fuel := by
          simp only [List.length_cons] at hlen
          omega
        have := ih rs.tail hinv hholds hlen'
        rw [hhead] at this
        exact this

/-- `timer_process_actived` keeps the invariant. -/
theorem timerProcessActived_inv (h : Inv s q) (htl : s.tl.Holds q) (rs : List Reaction) :
    RunInv (timerProcessActived s rs) := by
  unfold timerProcessActived
  have hlen := htl.len
  split
  · rename_i h0
    have hq : q = [] := List.length_eq_zero_iff.mp (by omega)
    subst hq
    exact ⟨⟨_, h⟩, fun _ => ⟨h, htl⟩⟩
  · exact activedLoop_inv s.tl.len.toNat rs h htl (by omega)

/-! ## Timeouts -/

/-- A timer at the top of the heap that has run out goes to the list. -/
theorem timeout_pop (h : Inv s q) (htl : s.tl.Holds q) (hclock : s.clock = s.t2) {ev : Addr}
    (htop : minHeapTop s.mh = some ev)
    (hout : utilTimersmaller ⟨0, 0⟩ (s.mh.timers ev).timeout = false) :
    Inv { s with mh := minHeapErase s.mh ev, tl := listInsert s.tl ev } (ev :: q) ∧
      (listInsert s.tl ev).Holds (ev :: q) := by
  obtain ⟨-, hidx, hhas, htim⟩ := minHeapErase_top h.indexed htop
  obtain ⟨hn, hp⟩ := minHeapTop_eq_some htop
  have hev : s.mh.Has ev := ⟨0, by omega, hp⟩
  have hnq : ev ∉ q := fun hq => h.qOut ev hq hev
  have harg : ∀ x, ((minHeapErase s.mh ev).timers x).arg = (s.mh.timers x).arg := by
    intro x
    obtain ⟨i, hi⟩ := htim x
    rw [hi]
  have htv : ∀ x, ((minHeapErase s.mh ev).timers x).timeout = (s.mh.timers x).timeout := by
    intro x
    obtain ⟨i, hi⟩ := htim x
    rw [hi]
  refine ⟨⟨hidx, ?_, ?_, ?_, h.liveBlocks, List.nodup_cons.mpr ⟨hnq, h.nodup⟩, ?_, ?_, ?_, ?_,
    h.early⟩, htl.insert hnq⟩
  · intro w hw
    exact h.heapLive w ((hhas w).1 hw).2
  · intro w hw
    show ((minHeapErase s.mh ev).timers w).arg = w
    rw [harg]
    exact h.heapArg w ((hhas w).1 hw).2
  · intro w hw
    unfold Running
    dsimp only
    rw [htv]
    exact h.heapTime w ((hhas w).1 hw).2
  · intro w hw
    cases List.mem_cons.mp hw with
    | inl he => exact he ▸ h.heapLive ev hev
    | inr hw => exact h.qLive w hw
  · intro w hw hw'
    obtain ⟨hne, hw'⟩ := (hhas w).1 hw'
    cases List.mem_cons.mp hw with
    | inl he => exact hne he
    | inr hw => exact h.qOut w hw hw'
  · intro w hw
    show ((minHeapErase s.mh ev).timers w).arg = w
    rw [harg]
    cases List.mem_cons.mp hw with
    | inl he => exact he ▸ h.heapArg ev hev
    | inr hw => exact h.qArg w hw
  · intro w hw
    cases List.mem_cons.mp hw with
    | inl he =>
      subst he
      obtain ⟨a, tv, hlast, ht⟩ := h.heapTime w hev
      refine ⟨a, tv, hlast, ?_⟩
      intro hnorm _
      obtain ⟨hn', hle⟩ := ht hnorm
      have hz := micros_nonpos hn' hout
      show tv.micros ≤ (s.t2 : Int) - a
      omega
    | inr hw => exact h.qTime w hw

/-- `timer_process_timeout` keeps the invariant. -/
theorem timeoutLoop_inv (fuel : Nat) : ∀ {s : State} {q : List Addr}, Inv s q → s.tl.Holds q →
    s.clock = s.t2 → ∃ q', Inv (timeoutLoop fuel s) q' ∧ (timeoutLoop fuel s).tl.Holds q' := by
  induction fuel with
  | zero =>
    intro s q h htl _
    exact ⟨q, h, htl⟩
  | succ fuel ih =>
    intro s q h htl hclock
    simp only [timeoutLoop]
    cases htop : minHeapTop s.mh with
    | none => exact ⟨q, h, htl⟩
    | some ev =>
      dsimp only
      split
      · exact ⟨q, h, htl⟩
      · rename_i hout
        obtain ⟨hinv, hholds⟩ := timeout_pop h htl hclock htop (by simpa using hout)
        exact ih hinv hholds hclock

/-- `timer_update` subtracts the interval from every timer of the heap. -/
theorem updateCells_eq (h : MinHeap) (hidx : h.Indexed) (d : TimeVal) : ∀ k ≤ h.n,
    ((List.range k).foldl (updateCell d) h).p = h.p ∧
    ((List.range k).foldl (updateCell d) h).n = h.n ∧
    ((List.range k).foldl (updateCell d) h).a = h.a ∧
    (∀ i < k, ((List.range k).foldl (updateCell d) h).timers (h.p i) =
      { h.timers (h.p i) with timeout := utilTimersub (h.timers (h.p i)).timeout d }) ∧
    (∀ x, (∀ i < k, h.p i ≠ x) →
      ((List.range k).foldl (updateCell d) h).timers x = h.timers x) := by
  intro k
  induction k with
  | zero =>
    intro _
    exact ⟨rfl, rfl, rfl, fun i hi => absurd hi (Nat.not_lt_zero i), fun _ _ => rfl⟩
  | succ k ih =>
    intro hk
    obtain ⟨hp, hn, ha, hin, hout⟩ := ih (by omega)
    rw [List.range_succ, List.foldl_append, List.foldl_cons, List.foldl_nil]
    -- the cell `k` holds a timer of none of the cells before it
    have hfresh : ∀ i < k, h.p i ≠ h.p k := by
      intro i hi he
      have := hidx.inj (by omega) (by omega) he
      omega
    refine ⟨hp, hn, ha, ?_, ?_⟩
    · intro i hi
      simp only [updateCell, MinHeap.setTimeout, hp]
      by_cases hik : i = k
      · subst hik
        rw [Function.update_self, hout _ hfresh]
      · rw [Function.update_of_ne (hfresh i (by omega))]
        exact hin i (by omega)
    · intro x hx
      simp only [updateCell, MinHeap.setTimeout, hp]
      rw [Function.update_of_ne (Ne.symm (hx k (by omega)))]
      exact hout x fun i hi => hx i (by omega)

/-- `timer_update`, timer by timer. -/
theorem timerUpdate_spec {h : MinHeap} (hidx : h.Indexed) (a b : TimeVal) :
    (timerUpdate h a b).p = h.p ∧ (timerUpdate h a b).n = h.n ∧
    ∀ w, h.Has w → (timerUpdate h a b).timers w =
      { h.timers w with timeout := utilTimersub (h.timers w).timeout (utilTimersub b a) } := by
  obtain ⟨hp, hn, -, hin, -⟩ := updateCells_eq h hidx (utilTimersub b a) h.n (Nat.le_refl _)
  refine ⟨hp, hn, ?_⟩
  intro w hw
  obtain ⟨i, hi, rfl⟩ := hw
  exact hin i hi

/-- The interval of the dispatch is subtracted while at least as much time
has passed. -/
theorem update_inv (h : Inv s []) (idle wait : Nat) :
    Core (timerUpdate s.mh (timerGetTime (s.clock + idle))
      (timerGetTime (s.clock + idle + wait))) s.live s.blocks s.log (s.clock + idle + wait)
      (s.clock + idle + wait) [] := by
  obtain ⟨hp, hn, htim⟩ :=
    timerUpdate_spec h.indexed (timerGetTime (s.clock + idle))
      (timerGetTime (s.clock + idle + wait))
  have hhas : ∀ w, (timerUpdate s.mh (timerGetTime (s.clock + idle))
      (timerGetTime (s.clock + idle + wait))).Has w ↔ s.mh.Has w := by
    intro w
    unfold MinHeap.Has
    rw [hp, hn]
  refine ⟨?_, ?_, ?_, ?_, h.liveBlocks, List.nodup_nil, by simp, by simp, by simp, by simp,
    h.early⟩
  · intro i hi
    rw [hn] at hi
    rw [hp, htim _ ⟨i, hi, rfl⟩]
    exact h.indexed i hi
  · intro w hw
    exact h.heapLive w ((hhas w).1 hw)
  · intro w hw
    have hw' := (hhas w).1 hw
    rw [htim w hw']
    exact h.heapArg w hw'
  · intro w hw
    have hw' := (hhas w).1 hw
    obtain ⟨a, tv, hlast, ht⟩ := h.heapTime w hw'
    refine ⟨a, tv, hlast, ?_⟩
    intro hnorm
    obtain ⟨hn', hle⟩ := ht hnorm
    rw [htim w hw']
    refine ⟨utilTimersub_normal hn' (delta_normal _ _), ?_⟩
    dsimp only
    rw [micros_utilTimersub, micros_utilTimersub, micros_timerGetTime, micros_timerGetTime]
    push_cast
    omega

/-! ## Runs -/

/-- Looking up the next timeout changes no timer. -/
theorem timerGetNextTimeout_eq (s : State) : ∃ st tv,
    timerGetNextTimeout s = { s with status := st, tv := tv } := by
  unfold timerGetNextTimeout
  cases minHeapTop s.mh with
  | none => exact ⟨s.status, none, rfl⟩
  | some t =>
    cases htv : s.tv with
    | none => exact ⟨.crashed, none, by simp [← htv]⟩
    | some tv => exact ⟨s.status, _, rfl⟩

/-- One turn of `timer_loop` keeps the invariant. -/
theorem timerLoopTurn_inv (h : RunInv s) (it : Iteration) : RunInv (timerLoopTurn s it) := by
  unfold timerLoopTurn
  split
  · rename_i hrun
    obtain ⟨hinv, htl⟩ := h.2 (by simp [hrun])
    obtain ⟨st, tv, heq⟩ := timerGetNextTimeout_eq s
    rw [heq]
    refine andThen_of (P := RunInv) ⟨⟨_, hinv⟩, fun _ => ⟨hinv, htl⟩⟩ ?_
    intro _
    dsimp only
    split
    · have hup := update_inv hinv it.idle it.wait
      obtain ⟨q, hq, hholds⟩ := timeoutLoop_inv _ (s := { s with
        status := st, tv := tv, clock := s.clock + it.idle + it.wait,
        t2 := s.clock + it.idle + it.wait,
        mh := timerUpdate s.mh (timerGetTime (s.clock + it.idle))
          (timerGetTime (s.clock + it.idle + it.wait)) }) hup htl rfl
      exact timerProcessActived_inv hq hholds it.reactions
    · have hw : Inv { s with
          status := .returned, tv := tv, clock := s.clock + it.idle + it.wait } [] :=
        Core.wait (Core.wait hinv it.idle) it.wait
      exact ⟨⟨_, hw⟩, fun _ => ⟨hw, htl⟩⟩
  · exact h

/-- The state after `timer_init`. -/
theorem State.Fresh.inv (h : s.Fresh) : Inv s [] := by
  have hempty : ∀ w, ¬ s.mh.Has w := by
    intro w hw
    obtain ⟨i, hi, -⟩ := hw
    rw [h.heap] at hi
    omega
  refine ⟨?_, fun w hw => absurd hw (hempty w), fun w hw => absurd hw (hempty w),
    fun w hw => absurd hw (hempty w), ?_, List.nodup_nil, by simp, by simp, by simp, by simp, ?_⟩
  · intro i hi
    rw [h.heap] at hi
    omega
  · intro w hw
    rw [h.live] at hw
    simp at hw
  · intro w cb arg t2 older hs
    rw [h.log] at hs
    simp at hs

/-- The calls made before the loop keep the invariant. -/
theorem setup_inv (cs : List Call) : ∀ {s : State}, Inv s [] →
    Inv (setup s cs) [] ∧ Frame s (setup s cs) := by
  induction cs with
  | nil =>
    intro s h
    exact ⟨h, Frame.refl s⟩
  | cons c cs ih =>
    intro s h
    obtain ⟨hinv, hframe⟩ := call_inv h c
    obtain ⟨hinv', hframe'⟩ := ih hinv
    exact ⟨hinv', hframe.trans hframe'⟩

/-- The state after the calls made before the loop. -/
theorem setup_runInv (hs : s.Fresh) (cs : List Call) : RunInv (setup s cs) := by
  obtain ⟨hinv, hframe⟩ := setup_inv cs hs.inv
  refine ⟨⟨_, hinv⟩, fun _ => ⟨hinv, ?_, ?_⟩⟩
  · rw [hframe.tl]
    exact chain_nil.mpr hs.tlHead
  · rw [hframe.tl]
    exact hs.tlLen

/-- Every run keeps the invariant. -/
theorem timerLoop_inv (its : List Iteration) : ∀ {s : State}, RunInv s →
    RunInv (timerLoop s its) := by
  induction its with
  | nil =>
    intro s h
    exact h
  | cons it its ih =>
    intro s h
    exact ih (timerLoopTurn_inv h it)

end Donkeyji.Mytimer
