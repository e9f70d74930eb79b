/-
Donkeyji.Mytimer.MinHeapTheorems — what the sift loops, push and erase do
to the timers a heap holds and to their back-indices.

Both sifts carry a hole: a cell whose content is not counted, while the
timer `e` to be placed is in hand. One move fills the hole from another
cell and makes that cell the hole (`Hole.move`), and the last step puts
`e` in it (`Hole.fill`). What a sift has done from any hole is one record,
`Filled`, so that the loops are one induction each.

Nothing here needs the order of the timeouts: a heap that is out of order
still holds the same timers after a sift.
-/
import Mathlib.Logic.Function.Basic
import Donkeyji.Mytimer.MinHeap

namespace Donkeyji.Mytimer

/-- Every timer in the heap knows its cell. -/
def MinHeap.Indexed (s : MinHeap) : Prop :=
  ∀ i < s.n, (s.timers (s.p i)).minHeapIdx = i

/-- The heap holds a pointer to the timer. -/
def MinHeap.Has (s : MinHeap) (w : Addr) : Prop :=
  ∃ i < s.n, s.p i = w

/-- A cell other than the hole holds a pointer to the timer. -/
def MinHeap.HasOff (s : MinHeap) (hole : Nat) (w : Addr) : Prop :=
  ∃ i < s.n, i ≠ hole ∧ s.p i = w

/-- The cells other than the hole are indexed and none of them holds `e`. -/
structure Hole (s : MinHeap) (hole : Nat) (e : Addr) : Prop where
  lt : hole < s.n
  indexed : ∀ i < s.n, i ≠ hole → (s.timers (s.p i)).minHeapIdx = i
  absent : ¬ s.HasOff hole e

/-- The heap `s'` is `s` with `e` put in the hole and the cells permuted. -/
structure Filled (s : MinHeap) (hole : Nat) (e : Addr) (s' : MinHeap) : Prop where
  n_eq : s'.n = s.n
  a_eq : s'.a = s.a
  indexed : s'.Indexed
  has : ∀ w, s'.Has w ↔ w = e ∨ s.HasOff hole w
  timers : ∀ w, ∃ i, s'.timers w = { s.timers w with minHeapIdx := i }
  frame : ∀ w, ¬ s'.Has w → s'.timers w = s.timers w

@[simp] theorem setIdx_p (s : MinHeap) (t : Addr) (i : Nat) : (s.setIdx t i).p = s.p := rfl

@[simp] theorem setIdx_n (s : MinHeap) (t : Addr) (i : Nat) : (s.setIdx t i).n = s.n := rfl

@[simp] theorem setIdx_a (s : MinHeap) (t : Addr) (i : Nat) : (s.setIdx t i).a = s.a := rfl

@[simp] theorem store_n (s : MinHeap) (i : Nat) (t : Addr) : (s.store i t).n = s.n := rfl

@[simp] theorem store_a (s : MinHeap) (i : Nat) (t : Addr) : (s.store i t).a = s.a := rfl

@[simp] theorem store_p (s : MinHeap) (i : Nat) (t : Addr) :
    (s.store i t).p = Function.update s.p i t := rfl

/-- A store changes the index of the stored timer only. -/
theorem store_timers (s : MinHeap) (i : Nat) (t : Addr) :
    (s.store i t).timers =
      Function.update s.timers t { s.timers t with minHeapIdx := i } := rfl

/-- Two cells of an indexed heap hold different timers. -/
theorem MinHeap.Indexed.inj {s : MinHeap} (h : s.Indexed) {i j : Nat} (hi : i < s.n)
    (hj : j < s.n) (hp : s.p i = s.p j) : i = j := by
  have a := h i hi
  have b := h j hj
  rw [hp] at a
  omega

/-- Two cells off the hole hold different timers. -/
theorem Hole.inj {s : MinHeap} {hole : Nat} {e : Addr} (h : Hole s hole e) {i j : Nat}
    (hi : i < s.n) (hih : i ≠ hole) (hj : j < s.n) (hjh : j ≠ hole)
    (hp : s.p i = s.p j) : i = j := by
  have a := h.indexed i hi hih
  have b := h.indexed j hj hjh
  rw [hp] at a
  omega

/-- The cell `j` is copied into the hole and becomes the hole: the cells
off the hole hold the same timers as before. -/
theorem hasOff_move {s : MinHeap} {hole j : Nat} (hlt : hole < s.n) (hj : j < s.n)
    (hne : j ≠ hole) (w : Addr) :
    (s.store hole (s.p j)).HasOff j w ↔ s.HasOff hole w := by
  constructor
  · intro h
    obtain ⟨i, hi, hij, hp⟩ := h
    by_cases hih : i = hole
    · subst hih
      exact ⟨j, hj, hne, by simpa using hp⟩
    · exact ⟨i, hi, hih, by simpa [hih] using hp⟩
  · intro h
    obtain ⟨i, hi, hih, hp⟩ := h
    by_cases hij : i = j
    · subst hij
      exact ⟨hole, hlt, Ne.symm hne, by simpa using hp⟩
    · exact ⟨i, hi, hij, by simpa [hih] using hp⟩

/-- One move of a sift. -/
theorem Hole.move {s : MinHeap} {hole j : Nat} {e : Addr} (h : Hole s hole e) (hj : j < s.n)
    (hne : j ≠ hole) : Hole (s.store hole (s.p j)) j e where
  lt := hj
  indexed := by
    intro i hi hij
    rw [store_timers, store_p]
    by_cases hih : i = hole
    · subst hih
      simp
    · have hp : s.p i ≠ s.p j := fun hp => hij (h.inj hi hih hj hne hp)
      rw [Function.update_of_ne hih, Function.update_of_ne hp]
      exact h.indexed i hi hih
  absent := by
    rw [hasOff_move h.lt hj hne]
    exact h.absent

/-- The last step of a sift. -/
theorem Hole.fill {s : MinHeap} {hole : Nat} {e : Addr} (h : Hole s hole e) :
    Filled s hole e (s.store hole e) where
  n_eq := rfl
  a_eq := rfl
  indexed := by
    intro i hi
    rw [store_timers, store_p]
    by_cases hih : i = hole
    · subst hih
      simp
    · have hp : s.p i ≠ e := fun hp => h.absent ⟨i, hi, hih, hp⟩
      rw [Function.update_of_ne hih, Function.update_of_ne hp]
      exact h.indexed i hi hih
  has := by
    intro w
    constructor
    · intro hw
      obtain ⟨i, hi, hp⟩ := hw
      by_cases hih : i = hole
      · subst hih
        exact Or.inl (by simpa using hp.symm)
      · exact Or.inr ⟨i, hi, hih, by simpa [hih] using hp⟩
    · intro hw
      cases hw with
      | inl hw => exact ⟨hole, h.lt, by simp [hw]⟩
      | inr hw =>
        obtain ⟨i, hi, hih, hp⟩ := hw
        exact ⟨i, hi, by simpa [hih] using hp⟩
  timers := by
    intro w
    rw [store_timers]
    by_cases hw : w = e
    · subst hw
      exact ⟨hole, by simp⟩
    · exact ⟨(s.timers w).minHeapIdx, by simp [hw]⟩
  frame := by
    intro w hw
    have hne : w ≠ e := by
      intro he
      exact hw ⟨hole, h.lt, by simp [he]⟩
    rw [store_timers, Function.update_of_ne hne]

/-- A sift that goes on after a move is a sift from the hole before it. -/
theorem Filled.of_move {s s' : MinHeap} {hole j : Nat} {e : Addr} (hlt : hole < s.n)
    (hj : j < s.n) (hne : j ≠ hole) (h : Filled (s.store hole (s.p j)) j e s') :
    Filled s hole e s' where
  n_eq := h.n_eq
  a_eq := h.a_eq
  indexed := h.indexed
  has := by
    intro w
    rw [h.has, hasOff_move hlt hj hne]
  timers := by
    intro w
    obtain ⟨i, hi⟩ := h.timers w
    rw [hi, store_timers]
    by_cases hw : w = s.p j
    · subst hw
      exact ⟨i, by simp⟩
    · exact ⟨i, by simp [hw]⟩
  frame := by
    intro w hw
    have hp : w ≠ s.p j := by
      intro he
      apply hw
      rw [h.has, hasOff_move hlt hj hne]
      exact Or.inr ⟨j, hj, hne, he.symm⟩
    rw [h.frame w hw, store_timers, Function.update_of_ne hp]

/-! ## The sift loops -/

/-- The loop of `min_heap_shift_up_` fills the hole. -/
theorem shiftUpLoop_filled {e : Addr} : ∀ (fuel : Nat) {s : MinHeap} {hole : Nat},
    Hole s hole e → Filled s hole e (shiftUpLoop e fuel s hole) := by
  intro fuel
  induction fuel with
  | zero =>
    intro s hole h
    exact h.fill
  | succ fuel ih =>
    intro s hole h
    simp only [shiftUpLoop]
    split
    · rename_i hc
      have hlt := h.lt
      have hj : (hole - 1) / 2 < s.n := by omega
      have hne : (hole - 1) / 2 ≠ hole := by omega
      exact Filled.of_move hlt hj hne (ih (h.move hj hne))
    · exact h.fill

/-- `min_heap_shift_up_` fills the hole. -/
theorem minHeapShiftUp_filled {s : MinHeap} {hole : Nat} {e : Addr} (h : Hole s hole e) :
    Filled s hole e (minHeapShiftUp s hole e) :=
  shiftUpLoop_filled hole h

/-- The child that is compared lies below the hole and in the heap. -/
theorem smallerChild_bounds {s : MinHeap} {hole : Nat} (h : 2 * (hole + 1) ≤ s.n) :
    hole < smallerChild s (2 * (hole + 1)) ∧ smallerChild s (2 * (hole + 1)) < s.n := by
  unfold smallerChild
  split
  · omega
  · rename_i hc
    have hn : 2 * (hole + 1) ≠ s.n := fun hn => hc (Or.inl hn)
    omega

/-- The loop of `min_heap_shift_down_` fills the hole. -/
theorem shiftDownLoop_filled {e : Addr} : ∀ (fuel : Nat) {s : MinHeap} {hole : Nat},
    Hole s hole e → Filled s hole e (shiftDownLoop e fuel s hole) := by
  intro fuel
  induction fuel with
  | zero =>
    intro s hole h
    exact minHeapShiftUp_filled h
  | succ fuel ih =>
    intro s hole h
    simp only [shiftDownLoop]
    split
    · rename_i hc
      obtain ⟨hlow, hj⟩ := smallerChild_bounds hc
      split
      · have hne : smallerChild s (2 * (hole + 1)) ≠ hole := by omega
        exact Filled.of_move h.lt hj hne (ih (h.move hj hne))
      · exact minHeapShiftUp_filled h
    · exact minHeapShiftUp_filled h

/-- `min_heap_shift_down_` fills the hole. -/
theorem minHeapShiftDown_filled {s : MinHeap} {hole : Nat} {e : Addr} (h : Hole s hole e) :
    Filled s hole e (minHeapShiftDown s hole e) :=
  shiftDownLoop_filled s.n h

/-! ## Push and erase -/

/-- `min_heap_reserve` changes the capacity only. -/
theorem minHeapReserve_eq {ok : Bool} {s s' : MinHeap} {n : Nat}
    (h : minHeapReserve ok s n = some s') : ∃ a, s' = { s with a := a } := by
  unfold minHeapReserve at h
  split at h
  · cases ok with
    | false => simp at h
    | true => exact ⟨_, by simpa using h.symm⟩
  · exact ⟨s.a, by simpa using h.symm⟩

/-- A push that succeeds adds the timer. -/
theorem minHeapPush_spec {ok : Bool} {s s' : MinHeap} {e : Addr} (hs : s.Indexed)
    (he : ¬ s.Has e) (h : minHeapPush ok s e = some s') :
    s'.n = s.n + 1 ∧ s'.Indexed ∧ (∀ w, s'.Has w ↔ w = e ∨ s.Has w) ∧
      (∀ w, ∃ i, s'.timers w = { s.timers w with minHeapIdx := i }) ∧
      (∀ w, ¬ s'.Has w → s'.timers w = s.timers w) := by
  unfold minHeapPush at h
  cases hr : minHeapReserve ok s (s.n + 1) with
  | none => simp [hr] at h
  | some r =>
    obtain ⟨a, rfl⟩ := minHeapReserve_eq hr
    simp only [hr, Option.some.injEq] at h
    have off : ∀ w, MinHeap.HasOff { s with n := s.n + 1, a := a } s.n w ↔ s.Has w := by
      intro w
      constructor
      · intro hw
        obtain ⟨i, hi, hne, hp⟩ := hw
        have hi' : i < s.n + 1 := hi
        exact ⟨i, by omega, hp⟩
      · intro hw
        obtain ⟨i, hi, hp⟩ := hw
        exact ⟨i, Nat.lt_succ_of_lt hi, by omega, hp⟩
    have hole : Hole { s with n := s.n + 1, a := a } s.n e := by
      refine ⟨Nat.lt_succ_self s.n, ?_, ?_⟩
      · intro i hi hne
        have hi' : i < s.n + 1 := hi
        exact hs i (by omega)
      · rw [off]
        exact he
    have f := minHeapShiftUp_filled hole
    rw [h] at f
    refine ⟨f.n_eq, f.indexed, ?_, f.timers, f.frame⟩
    intro w
    rw [f.has, off]

/-- The top of an indexed heap is in cell 0. -/
theorem minHeapTop_eq_some {s : MinHeap} {t : Addr} (h : minHeapTop s = some t) :
    s.n ≠ 0 ∧ s.p 0 = t := by
  unfold minHeapTop at h
  split at h
  · rename_i hn
    exact ⟨hn, by simpa using h⟩
  · simp at h

/-- The heap is empty when it has no top. -/
theorem minHeapTop_eq_none {s : MinHeap} (h : minHeapTop s = none) : s.n = 0 := by
  unfold minHeapTop at h
  split at h
  · simp at h
  · rename_i hn
    simpa using hn

/-! ## Removal

Pop and erase take the timer of some cell out: the last timer is sifted from
that cell, in a heap that has one cell less. When the last cell is the one to
be removed, the hole lies outside the heap, and the sift puts its timer back
where it was. -/

/-- A timer is taken out of the heap, and nothing else changes. -/
structure Removed (s : MinHeap) (t : Addr) (s' : MinHeap) : Prop where
  n_eq : s'.n = s.n - 1
  a_eq : s'.a = s.a
  indexed : s'.Indexed
  has : ∀ w, s'.Has w ↔ w ≠ t ∧ s.Has w
  timers : ∀ w, ∃ i, s'.timers w = { s.timers w with minHeapIdx := i }
  idx : (s'.timers t).minHeapIdx = noIdx
  frame : ∀ w, ¬ s.Has w → s'.timers w = s.timers w

/-- The timer of cell `i` is taken out. -/
def MinHeap.removeAt (s : MinHeap) (i : Nat) : MinHeap :=
  (minHeapShiftDown { s with n := s.n - 1 } i (s.p (s.n - 1))).setIdx (s.p i) noIdx

/-- The last timer is not above its parent, if it has one. -/
def MinHeap.LastInOrder (s : MinHeap) : Prop :=
  1 < s.n → minHeapElemGreater (s.timers (s.p ((s.n - 2) / 2))) (s.timers (s.p (s.n - 1))) = false

/-- A timer that is not below the one above the hole is put into the hole. -/
theorem minHeapShiftUp_stay {s : MinHeap} {hole : Nat} {e : Addr}
    (h : hole ≠ 0 → minHeapElemGreater (s.timers (s.p ((hole - 1) / 2))) (s.timers e) = false) :
    minHeapShiftUp s hole e = s.store hole e := by
  unfold minHeapShiftUp
  cases hole with
  | zero => rfl
  | succ hole =>
    have hle := h (Nat.succ_ne_zero hole)
    simp only [shiftUpLoop, hle]
    simp

/-- The sift of the last timer from its own cell leaves it there. -/
theorem minHeapShiftDown_last {s : MinHeap} (hn : s.n ≠ 0) (hlast : s.LastInOrder) :
    minHeapShiftDown { s with n := s.n - 1 } (s.n - 1) (s.p (s.n - 1)) =
      { s with n := s.n - 1 }.store (s.n - 1) (s.p (s.n - 1)) := by
  have hup : minHeapShiftUp { s with n := s.n - 1 } (s.n - 1) (s.p (s.n - 1)) =
      { s with n := s.n - 1 }.store (s.n - 1) (s.p (s.n - 1)) := by
    refine minHeapShiftUp_stay ?_
    intro h1
    have hpar : (s.n - 1 - 1) / 2 = (s.n - 2) / 2 := by omega
    rw [hpar]
    exact hlast (by omega)
  unfold minHeapShiftDown
  cases hm : s.n - 1 with
  | zero =>
    rw [hm] at hup
    exact hup
  | succ m =>
    rw [hm] at hup
    have hchild : ¬ 2 * (m + 1 + 1) ≤ m + 1 := by omega
    simp only [shiftDownLoop, hchild, if_false]
    exact hup

/-- The last timer is taken out. -/
theorem removeAt_last {s : MinHeap} (hs : s.Indexed) (hn : s.n ≠ 0) (hlast : s.LastInOrder) :
    Removed s (s.p (s.n - 1)) (s.removeAt (s.n - 1)) := by
  unfold MinHeap.removeAt
  rw [minHeapShiftDown_last hn hlast]
  have hp : Function.update s.p (s.n - 1) (s.p (s.n - 1)) = s.p := Function.update_eq_self _ _
  have hother : ∀ i < s.n - 1, s.p i ≠ s.p (s.n - 1) := by
    intro i hi he
    have := hs.inj (by omega) (by omega) he
    omega
  have htimers : ∀ w, w ≠ s.p (s.n - 1) →
      (({ s with n := s.n - 1 }.store (s.n - 1) (s.p (s.n - 1))).setIdx (s.p (s.n - 1))
        noIdx).timers w = s.timers w := by
    intro w hw
    simp [MinHeap.setIdx, MinHeap.store, hw]
  refine ⟨rfl, rfl, ?_, ?_, ?_, ?_, ?_⟩
  · intro i hi
    have hi' : i < s.n - 1 := hi
    rw [setIdx_p, store_p, hp, htimers _ (hother i hi')]
    exact hs i (by omega)
  · intro w
    constructor
    · intro hw
      obtain ⟨i, hi, hpi⟩ := hw
      have hi' : i < s.n - 1 := hi
      rw [setIdx_p, store_p, hp] at hpi
      subst hpi
      exact ⟨hother i hi', i, by omega, rfl⟩
    · intro hw
      obtain ⟨hne, i, hi, hpi⟩ := hw
      subst hpi
      have hi' : i ≠ s.n - 1 := fun he => hne (congrArg s.p he)
      refine ⟨i, show i < s.n - 1 by omega, ?_⟩
      rw [setIdx_p, store_p, hp]
  · intro w
    by_cases hw : w = s.p (s.n - 1)
    · subst hw
      exact ⟨noIdx, by simp [MinHeap.setIdx, MinHeap.store]⟩
    · exact ⟨(s.timers w).minHeapIdx, by rw [htimers w hw]⟩
  · simp [MinHeap.setIdx]
  · intro w hw
    exact htimers w fun he => hw ⟨s.n - 1, by omega, he.symm⟩

/-- A timer other than the last one is taken out. -/
theorem removeAt_inner {s : MinHeap} (hs : s.Indexed) {i : Nat} (hi : i < s.n - 1) :
    Removed s (s.p i) (s.removeAt i) := by
  have hne : s.p (s.n - 1) ≠ s.p i := by
    intro hp
    have := hs.inj (by omega) (by omega) hp
    omega
  have off : ∀ w, MinHeap.HasOff { s with n := s.n - 1 } i w ↔
      ∃ j < s.n - 1, j ≠ i ∧ s.p j = w := fun w => Iff.rfl
  have hole : Hole { s with n := s.n - 1 } i (s.p (s.n - 1)) := by
    refine ⟨hi, ?_, ?_⟩
    · intro j hj hji
      have hj' : j < s.n - 1 := hj
      exact hs j (by omega)
    · rw [off]
      intro hw
      obtain ⟨j, hj, hji, hp⟩ := hw
      have := hs.inj (by omega) (by omega) hp
      omega
  have f := minHeapShiftDown_filled hole
  have has : ∀ w, (minHeapShiftDown { s with n := s.n - 1 } i (s.p (s.n - 1))).Has w ↔
      w ≠ s.p i ∧ s.Has w := by
    intro w
    rw [f.has, off]
    constructor
    · intro hw
      cases hw with
      | inl hw => exact ⟨hw ▸ hne, s.n - 1, by omega, hw.symm⟩
      | inr hw =>
        obtain ⟨j, hj, hji, hp⟩ := hw
        refine ⟨?_, j, by omega, hp⟩
        intro he
        exact hji (hs.inj (by omega) (by omega) (hp.trans he))
    · intro hw
      obtain ⟨hne, j, hj, hp⟩ := hw
      by_cases hlast : j = s.n - 1
      · exact Or.inl (hlast ▸ hp).symm
      · refine Or.inr ⟨j, by omega, ?_, hp⟩
        intro hji
        exact hne (hji ▸ hp).symm
  unfold MinHeap.removeAt
  refine ⟨f.n_eq, f.a_eq, ?_, has, ?_, ?_, ?_⟩
  · intro j hj
    have hj' : j < (minHeapShiftDown { s with n := s.n - 1 } i (s.p (s.n - 1))).n := hj
    have hne : (minHeapShiftDown { s with n := s.n - 1 } i (s.p (s.n - 1))).p j ≠ s.p i :=
      ((has _).1 ⟨j, hj', rfl⟩).1
    have hj2 := f.indexed j hj'
    simpa [MinHeap.setIdx, hne] using hj2
  · intro w
    obtain ⟨j, hj⟩ := f.timers w
    by_cases hw : w = s.p i
    · subst hw
      exact ⟨noIdx, by simp [MinHeap.setIdx, hj]⟩
    · exact ⟨j, by simp [MinHeap.setIdx, hw, hj]⟩
  · simp [MinHeap.setIdx]
  · intro w hw
    have hwi : w ≠ s.p i := fun he => hw ⟨i, by omega, he.symm⟩
    have hnot : ¬ (minHeapShiftDown { s with n := s.n - 1 } i (s.p (s.n - 1))).Has w :=
      fun h => hw ((has w).1 h).2
    simpa [MinHeap.setIdx, hwi] using f.frame w hnot

/-- The timer of any cell is taken out. -/
theorem removeAt_removed {s : MinHeap} (hs : s.Indexed) (hlast : s.LastInOrder) {i : Nat}
    (hi : i < s.n) : Removed s (s.p i) (s.removeAt i) := by
  by_cases hl : i = s.n - 1
  · subst hl
    exact removeAt_last hs (by omega) hlast
  · exact removeAt_inner hs (by omega)

/-- The first timer is taken out; the order does not matter. -/
theorem removeAt_first {s : MinHeap} (hs : s.Indexed) (hn : s.n ≠ 0) :
    Removed s (s.p 0) (s.removeAt 0) := by
  by_cases h1 : s.n = 1
  · have hlast : s.LastInOrder := by
      intro h
      omega
    exact removeAt_removed hs hlast (by omega)
  · exact removeAt_inner hs (by omega)

/-- Erasing the timer of a cell takes it out. -/
theorem minHeapErase_eq {s : MinHeap} (hs : s.Indexed) {i : Nat} (hi : i < s.n)
    (hidx : i ≠ noIdx) : minHeapErase s (s.p i) = s.removeAt i := by
  unfold minHeapErase
  rw [hs i hi, if_pos hidx.symm]
  rfl

/-- Pop takes the first timer out. -/
theorem minHeapPop_eq {s : MinHeap} (hn : s.n ≠ 0) :
    minHeapPop s = (some (s.p 0), s.removeAt 0) := by
  unfold minHeapPop
  rw [if_pos hn]
  rfl

/-- Erasing the top takes it, and no other timer, out of the heap. -/
theorem minHeapErase_top {s : MinHeap} {t : Addr} (hs : s.Indexed)
    (h : minHeapTop s = some t) :
    (minHeapErase s t).n = s.n - 1 ∧ (minHeapErase s t).Indexed ∧
      (∀ w, (minHeapErase s t).Has w ↔ w ≠ t ∧ s.Has w) ∧
      (∀ w, ∃ i, (minHeapErase s t).timers w = { s.timers w with minHeapIdx := i }) := by
  obtain ⟨hn, rfl⟩ := minHeapTop_eq_some h
  rw [minHeapErase_eq hs (by omega) (by decide)]
  have r := removeAt_first hs hn
  exact ⟨r.n_eq, r.indexed, r.has, r.timers⟩

end Donkeyji.Mytimer
