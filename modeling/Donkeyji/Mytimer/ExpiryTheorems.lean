/-
Donkeyji.Mytimer.ExpiryTheorems — which timers run out in an iteration.

`timer_update` subtracts one interval from every timeout, in place. Normal
time values are compared by their microseconds, so this keeps the order and
the heap stays valid without a sift (`timerUpdate_valid`).
`timer_process_timeout` then takes the top out while it has run out: `Popped`
says what it has taken, from any heap whose back-indices are right, and what
follows when the heap is in order besides.
-/
import Donkeyji.Mytimer.HeapOrderTheorems
import Donkeyji.Mytimer.TimerTheorems

namespace Donkeyji.Mytimer

open LinkedList

instance (t : TimeVal) : Decidable t.Normal :=
  inferInstanceAs (Decidable (0 ≤ t.tvUsec ∧ t.tvUsec ≤ 999999))

/-! ## The order of time values -/

/-- Normal time values are in the order of their microseconds. -/
theorem key_le_iff {t u : TimeVal} (ht : t.Normal) (hu : u.Normal) :
    t.key ≤ u.key ↔ t.micros ≤ u.micros := by
  obtain ⟨ht1, ht2⟩ := ht
  obtain ⟨hu1, hu2⟩ := hu
  unfold TimeVal.key TimeVal.micros
  rw [Prod.Lex.toLex_le_toLex]
  dsimp only
  omega

/-- The timeout is not greater than zero. -/
def TimeVal.RunOut (t : TimeVal) : Prop := utilTimersmaller ⟨0, 0⟩ t = false

instance (t : TimeVal) : Decidable t.RunOut :=
  inferInstanceAs (Decidable (utilTimersmaller ⟨0, 0⟩ t = false))

theorem runOut_iff_key (t : TimeVal) : t.RunOut ↔ t.key ≤ TimeVal.key ⟨0, 0⟩ := by
  unfold TimeVal.RunOut
  rw [← Bool.not_eq_true, utilTimersmaller_iff, not_lt]

theorem runOut_iff {t : TimeVal} (ht : t.Normal) : t.RunOut ↔ t.micros ≤ 0 := by
  have hzero : TimeVal.Normal ⟨0, 0⟩ := by decide
  rw [runOut_iff_key, key_le_iff ht hzero]
  rfl

/-- Subtracting the same interval keeps the order. -/
theorem utilTimersub_mono {t u d : TimeVal} (ht : t.Normal) (hu : u.Normal) (hd : d.Normal)
    (h : t.key ≤ u.key) : (utilTimersub t d).key ≤ (utilTimersub u d).key := by
  rw [key_le_iff (utilTimersub_normal ht hd) (utilTimersub_normal hu hd)]
  rw [key_le_iff ht hu] at h
  simp only [micros_utilTimersub]
  omega

/-! ## timer_update -/

/-- The timeouts of the timers in the heap are normal. -/
def MinHeap.Normal (h : MinHeap) : Prop := ∀ i < h.n, (h.timers (h.p i)).timeout.Normal

instance (h : MinHeap) : Decidable h.Normal :=
  inferInstanceAs (Decidable (∀ i < h.n, (h.timers (h.p i)).timeout.Normal))

theorem MinHeap.Normal.has {h : MinHeap} (hn : h.Normal) {w : Addr} (hw : h.Has w) :
    (h.timers w).timeout.Normal := by
  obtain ⟨i, hi, rfl⟩ := hw
  exact hn i hi

/-- The update keeps the timers of the heap. -/
theorem timerUpdate_has {h : MinHeap} (hidx : h.Indexed) (a b : TimeVal) (w : Addr) :
    (timerUpdate h a b).Has w ↔ h.Has w := by
  obtain ⟨hp, hn, -⟩ := timerUpdate_spec hidx a b
  unfold MinHeap.Has
  rw [hp, hn]

/-- The update keeps the back-indices. -/
theorem timerUpdate_indexed {h : MinHeap} (hidx : h.Indexed) (a b : TimeVal) :
    (timerUpdate h a b).Indexed := by
  obtain ⟨hp, hn, htim⟩ := timerUpdate_spec hidx a b
  intro i hi
  rw [hn] at hi
  rw [hp, htim _ ⟨i, hi, rfl⟩]
  exact hidx i hi

/-- The update keeps the timeouts normal. -/
theorem timerUpdate_normal {h : MinHeap} (hidx : h.Indexed) (hnorm : h.Normal) {a b : TimeVal}
    (ha : a.Normal) (hb : b.Normal) : (timerUpdate h a b).Normal := by
  obtain ⟨hp, hn, htim⟩ := timerUpdate_spec hidx a b
  intro i hi
  rw [hn] at hi
  rw [hp, htim _ ⟨i, hi, rfl⟩]
  exact utilTimersub_normal (hnorm i hi) (utilTimersub_normal hb ha)

/-- The update keeps the order of the heap. -/
theorem timerUpdate_valid {h : MinHeap} (hv : h.Valid) (hnorm : h.Normal) {a b : TimeVal}
    (ha : a.Normal) (hb : b.Normal) : (timerUpdate h a b).Valid := by
  obtain ⟨hp, hn, htim⟩ := timerUpdate_spec hv.indexed a b
  refine ⟨timerUpdate_indexed hv.indexed a b, ?_⟩
  rw [MinHeap.ordered_iff, hn]
  refine (h.ordered_iff.mp hv.ordered).map ?_
  intro i hi j hj hij
  unfold MinHeap.keys
  rw [hp, htim _ ⟨i, hi, rfl⟩, htim _ ⟨j, hj, rfl⟩]
  exact utilTimersub_mono (hnorm i hi) (hnorm j hj) (utilTimersub_normal hb ha) hij

/-! ## timer_process_timeout -/

/-- The timers `ws` have been taken out of the heap in this order and put in
front of the list `q`. -/
structure Popped (s s' : State) (q ws : List Addr) : Prop where
  rest : s' = { s with mh := s'.mh, tl := s'.tl }
  tl : s'.tl.Holds (ws.reverse ++ q)
  nodup : ws.Nodup
  mem : ∀ w ∈ ws, s.mh.Has w ∧ (s.mh.timers w).timeout.RunOut
  has : ∀ w, s'.mh.Has w ↔ s.mh.Has w ∧ w ∉ ws
  timers : ∀ w, ∃ i, s'.mh.timers w = { s.mh.timers w with minHeapIdx := i }
  indexed : s'.mh.Indexed
  valid : s.mh.Valid → s'.mh.Valid
  sorted : s.mh.Valid →
    ws.Pairwise fun w v => (s.mh.timers w).timeout.key ≤ (s.mh.timers v).timeout.key

/-- Nothing is taken. -/
theorem Popped.none {s : State} {q : List Addr} (hidx : s.mh.Indexed) (htl : s.tl.Holds q) :
    Popped s s q [] where
  rest := rfl
  tl := htl
  nodup := List.nodup_nil
  mem := by simp
  has := by simp
  timers := fun w => ⟨(s.mh.timers w).minHeapIdx, rfl⟩
  indexed := hidx
  valid := id
  sorted := fun _ => List.Pairwise.nil

/-- The state after the top has been taken. -/
def State.pop (s : State) (ev : Addr) : State :=
  { s with mh := minHeapErase s.mh ev, tl := listInsert s.tl ev }

/-- The top is taken first. -/
theorem Popped.cons {s s' : State} {q ws : List Addr} {ev : Addr} (hidx : s.mh.Indexed)
    (htop : minHeapTop s.mh = some ev) (hout : (s.mh.timers ev).timeout.RunOut)
    (h : Popped (s.pop ev) s' (ev :: q) ws) : Popped s s' q (ev :: ws) := by
  obtain ⟨-, -, hhas, htim⟩ := minHeapErase_top hidx htop
  obtain ⟨hn, hp⟩ := minHeapTop_eq_some htop
  have hev : s.mh.Has ev := ⟨0, by omega, hp⟩
  have htv : ∀ x, ((s.pop ev).mh.timers x).timeout = (s.mh.timers x).timeout := by
    intro x
    obtain ⟨i, hi⟩ := htim x
    rw [State.pop, hi]
  have hmem : ∀ w ∈ ws, w ≠ ev ∧ s.mh.Has w := fun w hw => (hhas w).1 (h.mem w hw).1
  refine ⟨h.rest, ?_, ?_, ?_, ?_, ?_, h.indexed, ?_, ?_⟩
  · have htl := h.tl
    rwa [show ws.reverse ++ ev :: q = (ev :: ws).reverse ++ q by simp] at htl
  · exact List.nodup_cons.mpr ⟨fun hw => (hmem ev hw).1 rfl, h.nodup⟩
  · intro w hw
    cases List.mem_cons.mp hw with
    | inl he => exact he ▸ ⟨hev, hout⟩
    | inr hw =>
      have hrun := (h.mem w hw).2
      rw [htv] at hrun
      exact ⟨(hmem w hw).2, hrun⟩
  · intro w
    rw [h.has w, List.mem_cons]
    show (minHeapErase s.mh ev).Has w ∧ w ∉ ws ↔ _
    rw [hhas w]
    tauto
  · intro w
    obtain ⟨i, hi⟩ := h.timers w
    obtain ⟨j, hj⟩ := htim w
    exact ⟨i, by rw [hi, State.pop, hj]⟩
  · intro hv
    exact h.valid (minHeapErase_valid hv htop)
  · intro hv
    refine List.pairwise_cons.mpr ⟨?_, ?_⟩
    · intro w hw
      exact minHeapTop_least hv htop w (hmem w hw).2
    · refine (h.sorted (minHeapErase_valid hv htop)).imp ?_
      intro w v hle
      rwa [htv, htv] at hle

/-- `timer_process_timeout` takes timers that have run out, and of a valid
heap all of them. -/
theorem timeoutLoop_popped (fuel : Nat) : ∀ {s : State} {q : List Addr}, s.mh.Indexed →
    s.tl.Holds q → (∀ w ∈ q, ¬ s.mh.Has w) → ∃ ws, Popped s (timeoutLoop fuel s) q ws ∧
      (s.mh.Valid → s.mh.n ≤ fuel →
        ∀ w, (timeoutLoop fuel s).mh.Has w → ¬ (s.mh.timers w).timeout.RunOut) := by
  induction fuel with
  | zero =>
    intro s q hidx htl _
    refine ⟨[], Popped.none hidx htl, ?_⟩
    intro _ hn w hw
    obtain ⟨i, hi, -⟩ := hw
    exact absurd (show i < s.mh.n from hi) (by omega)
  | succ fuel ih =>
    intro s q hidx htl hq
    simp only [timeoutLoop]
    cases htop : minHeapTop s.mh with
    | none =>
      refine ⟨[], Popped.none hidx htl, ?_⟩
      intro _ _ w hw
      obtain ⟨i, hi, -⟩ := hw
      have hn := minHeapTop_eq_none htop
      exact absurd (show i < s.mh.n from hi) (by omega)
    | some ev =>
      dsimp only
      split
      · rename_i hsmall
        refine ⟨[], Popped.none hidx htl, ?_⟩
        -- what is not at the top has no smaller timeout
        intro hv _ w hw hrun
        rw [runOut_iff_key] at hrun
        have hlt := (utilTimersmaller_iff _ _).1 hsmall
        exact absurd (hlt.trans_le (minHeapTop_least hv htop w hw)) (not_lt.mpr hrun)
      · rename_i hout
        have hrun : (s.mh.timers ev).timeout.RunOut := by simpa [TimeVal.RunOut] using hout
        obtain ⟨hn, hp⟩ := minHeapTop_eq_some htop
        have hev : s.mh.Has ev := ⟨0, by omega, hp⟩
        obtain ⟨hn', hidx', hhas, htim⟩ := minHeapErase_top hidx htop
        have hq' : ∀ w ∈ ev :: q, ¬ (minHeapErase s.mh ev).Has w := by
          intro w hw hw'
          obtain ⟨hne, hw'⟩ := (hhas w).1 hw'
          cases List.mem_cons.mp hw with
          | inl he => exact hne he
          | inr hw => exact hq w hw hw'
        have hins : (listInsert s.tl ev).Holds (ev :: q) :=
          htl.insert fun hin => hq ev hin hev
        obtain ⟨ws, hpop, hrest⟩ := ih (s := s.pop ev) (q := ev :: q) hidx' hins hq'
        refine ⟨ev :: ws, hpop.cons hidx htop hrun, ?_⟩
        intro hv hfuel w hw
        have hleft := hrest (minHeapErase_valid hv htop)
          (by show (minHeapErase s.mh ev).n ≤ fuel; omega) w hw
        obtain ⟨i, hi⟩ := htim w
        rwa [State.pop, hi] at hleft

/-- `timer_process_timeout` of a valid heap. -/
theorem timerProcessTimeout_spec {s : State} (hv : s.mh.Valid) (htl : s.tl.Holds []) :
    ∃ ws, Popped s (timerProcessTimeout s) [] ws ∧
      ∀ w, w ∈ ws ↔ s.mh.Has w ∧ (s.mh.timers w).timeout.RunOut := by
  obtain ⟨ws, hpop, hrest⟩ := timeoutLoop_popped s.mh.n hv.indexed htl (by simp)
  refine ⟨ws, hpop, ?_⟩
  intro w
  refine ⟨hpop.mem w, ?_⟩
  intro h
  by_contra hw
  exact hrest hv (Nat.le_refl _) w ((hpop.has w).2 ⟨h.1, hw⟩) h.2

/-- Two timers, for half a second and for two seconds. -/
def twoTimers : State :=
  setup zeroMemory [⟨.onceCb, ⟨2, 0⟩, 7, 8, 0, some 100, true⟩,
    ⟨.multiCb, ⟨0, 500000⟩, 9, 10, 0, some 200, true⟩]

end Donkeyji.Mytimer
