/-
Donkeyji.Mytimer.HeapOrderTheorems — the sifts of the min-heap keep the
timeouts in order.

The order is that of `BinHeap`, over the timeouts compared by seconds and
then by microseconds; `evutil_timercmp` and `util_timersmaller` are this
comparison. What the sifts do to the timers and their back-indices is in
`MinHeapTheorems` and needs no order.
-/
import Mathlib.Data.Prod.Lex
import Donkeyji.Lib.HeapOrder
import Donkeyji.Mytimer.MinHeapTheorems
import Donkeyji.Mytimer.Timer

namespace Donkeyji.Mytimer

open BinHeap

/-- A time value, compared by seconds and then by microseconds. -/
def TimeVal.key (t : TimeVal) : Int ×ₗ Int := toLex (t.tvSec, t.tvUsec)

/-- The timeouts of the timers in the cells. -/
def MinHeap.keys (s : MinHeap) (i : Nat) : Int ×ₗ Int := (s.timers (s.p i)).timeout.key

/-- No timer of the heap has a smaller timeout than the one above it. -/
def MinHeap.Ordered (s : MinHeap) : Prop :=
  ∀ i < s.n, 0 < i →
    minHeapElemGreater (s.timers (s.p ((i - 1) / 2))) (s.timers (s.p i)) = false

instance (s : MinHeap) : Decidable s.Ordered :=
  inferInstanceAs (Decidable (∀ i < s.n, 0 < i →
    minHeapElemGreater (s.timers (s.p ((i - 1) / 2))) (s.timers (s.p i)) = false))

instance (s : MinHeap) : Decidable s.Indexed :=
  inferInstanceAs (Decidable (∀ i < s.n, (s.timers (s.p i)).minHeapIdx = i))

/-- A heap of timers that is in order and knows where they are. -/
structure MinHeap.Valid (s : MinHeap) : Prop where
  indexed : s.Indexed
  ordered : s.Ordered

theorem evutilTimerGreater_iff (a b : TimeVal) :
    evutilTimerGreater a b = true ↔ b.key < a.key := by
  unfold evutilTimerGreater TimeVal.key
  rw [Prod.Lex.toLex_lt_toLex]
  by_cases h : a.tvSec = b.tvSec
  · simp [h]
  · simp [h, Ne.symm h]

theorem utilTimersmaller_iff (a b : TimeVal) :
    utilTimersmaller a b = true ↔ a.key < b.key := by
  unfold utilTimersmaller TimeVal.key
  rw [Prod.Lex.toLex_lt_toLex]
  by_cases h : a.tvSec = b.tvSec <;> simp [h]

theorem minHeapElemGreater_iff (a b : Timer) :
    minHeapElemGreater a b = true ↔ b.timeout.key < a.timeout.key :=
  evutilTimerGreater_iff _ _

theorem minHeapElemGreater_eq_false (a b : Timer) :
    minHeapElemGreater a b = false ↔ a.timeout.key ≤ b.timeout.key := by
  rw [← Bool.not_eq_true, minHeapElemGreater_iff, not_lt]

/-- The heap order is that of a binary heap. -/
theorem MinHeap.ordered_iff (s : MinHeap) : s.Ordered ↔ BinHeap.Ordered s.keys s.n := by
  unfold MinHeap.Ordered BinHeap.Ordered MinHeap.keys parent
  simp only [minHeapElemGreater_eq_false]

/-- A store moves no timeout. -/
@[simp] theorem store_timeout (s : MinHeap) (i : Nat) (t w : Addr) :
    ((s.store i t).timers w).timeout = (s.timers w).timeout := by
  rw [store_timers]
  by_cases hw : w = t
  · simp [hw]
  · simp [hw]

/-- A store puts the timeout of the timer into the cell. -/
theorem store_keys (s : MinHeap) (i : Nat) (t : Addr) :
    (s.store i t).keys = Function.update s.keys i (s.timers t).timeout.key := by
  funext j
  unfold MinHeap.keys
  rw [store_timeout, store_p]
  by_cases hj : j = i
  · simp [hj]
  · simp [hj]

@[simp] theorem setIdx_keys (s : MinHeap) (t : Addr) (i : Nat) :
    (s.setIdx t i).keys = s.keys := by
  funext j
  unfold MinHeap.keys MinHeap.setIdx
  by_cases hj : s.p j = t
  · simp [hj]
  · simp [hj]

/-! ## The sifts -/

/-- `min_heap_shift_up_` puts `e` where it belongs, on its way to the top. -/
theorem shiftUpLoop_ordered {e : Addr} : ∀ (fuel : Nat) {s : MinHeap} {hole : Nat},
    hole ≤ fuel → hole < s.n → UpOrder s.keys s.n hole (s.timers e).timeout.key →
    BinHeap.Ordered (shiftUpLoop e fuel s hole).keys s.n := by
  intro fuel
  induction fuel with
  | zero =>
    intro s hole hfuel hlt h
    simp only [shiftUpLoop, store_keys]
    exact h.fill fun hpos => absurd hpos (by omega)
  | succ fuel ih =>
    intro s hole hfuel hlt h
    simp only [shiftUpLoop]
    split
    · rename_i hc
      obtain ⟨hne, hgreater⟩ := hc
      have hx := (minHeapElemGreater_iff _ _).1 hgreater
      have hup := h.up hlt (by omega) hx
      have hstored := @ih (s.store hole (s.p ((hole - 1) / 2))) ((hole - 1) / 2)
        (by omega) (by rw [store_n]; omega)
      rw [store_keys, store_n, store_timeout] at hstored
      exact hstored hup
    · rename_i hc
      rw [store_keys]
      refine h.fill ?_
      intro hpos
      have hgreater : minHeapElemGreater (s.timers (s.p ((hole - 1) / 2))) (s.timers e) = false := by
        simpa [Nat.ne_of_gt hpos] using hc
      exact (minHeapElemGreater_eq_false _ _).1 hgreater

/-- The child that is compared is the least of those below the hole. -/
theorem smallerChild_least {s : MinHeap} {hole : Nat} (h : 2 * (hole + 1) ≤ s.n) :
    IsChild (smallerChild s (2 * (hole + 1))) hole ∧
      ∀ c < s.n, IsChild c hole → s.keys (smallerChild s (2 * (hole + 1))) ≤ s.keys c := by
  unfold smallerChild
  split
  · rename_i hc
    refine ⟨isChild_iff.mpr (by omega), ?_⟩
    intro c hcn hchild
    rcases isChild_iff.mp hchild with rfl | rfl
    · exact le_refl _
    · cases hc with
      | inl hn => omega
      | inr hgreater => exact ((minHeapElemGreater_iff _ _).1 hgreater).le
  · rename_i hc
    refine ⟨isChild_iff.mpr (by omega), ?_⟩
    intro c hcn hchild
    rcases isChild_iff.mp hchild with rfl | rfl
    · have hgreater := (not_or.mp hc).2
      rw [Bool.not_eq_true, minHeapElemGreater_eq_false] at hgreater
      exact hgreater
    · exact le_refl _

/-- `min_heap_shift_down_` puts `e` where it belongs, on the way of the least
children. -/
theorem shiftDownLoop_ordered {e : Addr} : ∀ (fuel : Nat) {s : MinHeap} {hole : Nat},
    s.n ≤ fuel + hole → hole < s.n → Loose s.keys s.n hole →
    BinHeap.Ordered (shiftDownLoop e fuel s hole).keys s.n := by
  intro fuel
  induction fuel with
  | zero =>
    intro s hole hfuel hlt _
    omega
  | succ fuel ih =>
    intro s hole hfuel hlt h
    simp only [shiftDownLoop]
    split
    · rename_i hc
      obtain ⟨hlow, hj⟩ := smallerChild_bounds hc
      obtain ⟨hchild, hleast⟩ := smallerChild_least hc
      split
      · have hdown := h.down hj hchild hleast
        have hstored := @ih (s.store hole (s.p (smallerChild s (2 * (hole + 1)))))
          (smallerChild s (2 * (hole + 1))) (by rw [store_n]; omega) hj
        rw [store_keys, store_n] at hstored
        exact hstored hdown
      · rename_i hgreater
        rw [Bool.not_eq_true, minHeapElemGreater_eq_false] at hgreater
        have hup : UpOrder s.keys s.n hole (s.timers e).timeout.key :=
          h.stop fun c hcn hcc => hgreater.trans (hleast c hcn hcc)
        exact shiftUpLoop_ordered hole (Nat.le_refl _) hlt hup
    · rename_i hc
      have hup : UpOrder s.keys s.n hole (s.timers e).timeout.key := by
        refine h.stop ?_
        intro c hcn hcc
        rcases isChild_iff.mp hcc with rfl | rfl <;> omega
      exact shiftUpLoop_ordered hole (Nat.le_refl _) hlt hup

/-! ## Push and erase -/

/-- A push keeps the heap valid. -/
theorem minHeapPush_valid {ok : Bool} {s s' : MinHeap} {e : Addr} (hs : s.Valid)
    (he : ¬ s.Has e) (h : minHeapPush ok s e = some s') : s'.Valid := by
  obtain ⟨hn, hidx, -⟩ := minHeapPush_spec hs.indexed he h
  refine ⟨hidx, ?_⟩
  rw [MinHeap.ordered_iff, hn]
  unfold minHeapPush at h
  cases hr : minHeapReserve ok s (s.n + 1) with
  | none => simp [hr] at h
  | some r =>
    obtain ⟨a, rfl⟩ := minHeapReserve_eq hr
    simp only [hr, Option.some.injEq] at h
    have hup : UpOrder s.keys (s.n + 1) s.n (s.timers e).timeout.key :=
      (s.ordered_iff.mp hs.ordered).upOrder _
    rw [← h]
    exact shiftUpLoop_ordered (s := { s with n := s.n + 1, a := a }) s.n (Nat.le_refl _)
      (Nat.lt_succ_self _) hup

/-- The last timer of a heap in order is not above its parent. -/
theorem MinHeap.Ordered.last {s : MinHeap} (hs : s.Ordered) : s.LastInOrder := by
  intro h1
  have hle := hs (s.n - 1) (by omega) (by omega)
  have hpar : (s.n - 1 - 1) / 2 = (s.n - 2) / 2 := by omega
  rwa [hpar] at hle

/-- Taking the timer of any cell out keeps the heap valid. -/
theorem removeAt_valid {s : MinHeap} (hs : s.Valid) {i : Nat} (hi : i < s.n) :
    (s.removeAt i).Valid := by
  have r := removeAt_removed hs.indexed hs.ordered.last hi
  refine ⟨r.indexed, ?_⟩
  rw [MinHeap.ordered_iff, r.n_eq]
  have hord := s.ordered_iff.mp hs.ordered
  unfold MinHeap.removeAt
  rw [setIdx_keys]
  by_cases hl : i = s.n - 1
  · subst hl
    rw [minHeapShiftDown_last (by omega) hs.ordered.last, store_keys]
    intro j hj hpos
    have hup := parent_lt hpos
    rw [Function.update_of_ne (by omega), Function.update_of_ne (by omega)]
    exact hord j (by omega) hpos
  · exact shiftDownLoop_ordered (s := { s with n := s.n - 1 }) (s.n - 1) (by simp)
      (show i < s.n - 1 by omega) (hord.dropLast hi)

/-- Erasing the top keeps the heap valid. -/
theorem minHeapErase_valid {s : MinHeap} {t : Addr} (hs : s.Valid)
    (h : minHeapTop s = some t) : (minHeapErase s t).Valid := by
  obtain ⟨hn, rfl⟩ := minHeapTop_eq_some h
  rw [minHeapErase_eq hs.indexed (by omega) (by decide)]
  exact removeAt_valid hs (by omega)

/-- The top of a valid heap has the least timeout. -/
theorem minHeapTop_least {s : MinHeap} {t : Addr} (hs : s.Valid) (h : minHeapTop s = some t) :
    ∀ w, s.Has w → (s.timers t).timeout.key ≤ (s.timers w).timeout.key := by
  obtain ⟨-, rfl⟩ := minHeapTop_eq_some h
  intro w hw
  obtain ⟨i, hi, rfl⟩ := hw
  exact (s.ordered_iff.mp hs.ordered).first_le i hi

end Donkeyji.Mytimer
