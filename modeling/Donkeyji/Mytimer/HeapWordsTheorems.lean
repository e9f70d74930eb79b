/-
Donkeyji.Mytimer.HeapWordsTheorems — the operations of the min-heap in every
run that starts from `min_heap_ctor`.

While the heap holds fewer than 2^31 timers no index wraps and no access
leaves the block, so the functions of `HeapWords` are those of `MinHeap`
(`minHeapShiftDownWords_eq` and the equations after it). `Held` is the
invariant; what an operation has done is `HeapOp.Did`.

With 2^31 timers in the heap, erasing the last one computes the index 0 for
its right child, and 2^32 - 1 for its left one.
-/
import Donkeyji.Lib.Runs
import Donkeyji.Mytimer.HeapOrderTheorems
import Donkeyji.Mytimer.HeapWords

namespace Donkeyji.Mytimer

open Runs

variable {s s' : MinHeap} {e : Addr}

/-! ## Indices that do not wrap -/

theorem toUnsigned_eq {x : Nat} (h : x < 4294967296) : toUnsigned x = x := Nat.mod_eq_of_lt h

theorem unsignedPred_eq {x : Nat} (hpos : 0 < x) (h : x ≤ 4294967296) :
    unsignedPred x = x - 1 := by
  unfold unsignedPred toUnsigned
  omega

theorem cell_eq {i : Nat} (h : i < s.a) : s.cell i = some (s.p i) := if_pos h

theorem storeCell_eq {i : Nat} {t : Addr} (h : i < s.a) : s.storeCell i t = some (s.store i t) :=
  if_pos h

/-- The loop of `min_heap_shift_up_` stays in the block. -/
theorem shiftUpWords_eq : ∀ (fuel : Nat) {s : MinHeap} {hole : Nat},
    hole < s.a → hole < 4294967296 →
    shiftUpWords e fuel s hole = some (shiftUpLoop e fuel s hole) := by
  intro fuel
  induction fuel with
  | zero =>
    intro s hole ha _
    exact storeCell_eq ha
  | succ fuel ih =>
    intro s hole ha hw
    unfold shiftUpWords shiftUpLoop
    by_cases h0 : hole = 0
    · subst h0
      simp [storeCell_eq ha]
    · have hpred : unsignedPred hole = hole - 1 := unsignedPred_eq (by omega) (by omega)
      have hpar : (hole - 1) / 2 < s.a := by omega
      have hrest : shiftUpWords e fuel (s.store hole (s.p ((hole - 1) / 2))) ((hole - 1) / 2) =
          some (shiftUpLoop e fuel (s.store hole (s.p ((hole - 1) / 2))) ((hole - 1) / 2)) :=
        ih (by rw [store_a]; exact hpar) (by omega)
      simp only [h0, hpred, ne_eq, not_false_eq_true, if_true, true_and, cell_eq hpar,
        storeCell_eq ha, Option.bind_some, hrest]
      split <;> rfl

/-- `min_heap_shift_up_` stays in the block. -/
theorem minHeapShiftUpWords_eq {hole : Nat} (ha : hole < s.a) (hw : hole < 4294967296) :
    minHeapShiftUpWords s hole e = some (minHeapShiftUp s hole e) :=
  shiftUpWords_eq hole ha hw

/-- The children that are compared are in the block. -/
theorem smallerChildWords_eq {minChild : Nat} (hpos : 0 < minChild) (hn : minChild ≤ s.n)
    (ha : s.n ≤ s.a) (hw : s.n < 4294967296) :
    smallerChildWords s minChild = some (smallerChild s minChild) := by
  unfold smallerChildWords smallerChild
  rw [unsignedPred_eq hpos (by omega)]
  by_cases hlast : minChild = s.n
  · simp [hlast]
  · rw [cell_eq (show minChild < s.a by omega), cell_eq (show minChild - 1 < s.a by omega)]
    simp only [hlast, false_or, if_false, Option.bind_some, Option.map_some]

/-- The loop of `min_heap_shift_down_` stays in the block and is done in time. -/
theorem shiftDownWords_eq : ∀ (fuel : Nat) {s : MinHeap} {hole : Nat},
    s.n ≤ fuel + hole → hole ≤ s.n → s.n < s.a → s.n < 2147483647 →
    shiftDownWords e (fuel + 1) s hole = some (shiftDownLoop e fuel s hole) := by
  intro fuel
  induction fuel with
  | zero =>
    intro s hole hfuel hn ha hw
    have hchild : toUnsigned (2 * (hole + 1)) = 2 * (hole + 1) := toUnsigned_eq (by omega)
    have hdone : ¬ 2 * (hole + 1) ≤ s.n := by omega
    unfold shiftDownWords shiftDownLoop
    simp only [hchild, hdone, if_false]
    exact minHeapShiftUpWords_eq (by omega) (by omega)
  | succ fuel ih =>
    intro s hole hfuel hn ha hw
    have hchild : toUnsigned (2 * (hole + 1)) = 2 * (hole + 1) := toUnsigned_eq (by omega)
    have hup : minHeapShiftUpWords s hole e = some (minHeapShiftUp s hole e) :=
      minHeapShiftUpWords_eq (by omega) (by omega)
    unfold shiftDownWords shiftDownLoop
    simp only [hchild, hup]
    split
    · rename_i hc
      obtain ⟨hlow, hlt⟩ := smallerChild_bounds hc
      have hrest : shiftDownWords e (fuel + 1)
          (s.store hole (s.p (smallerChild s (2 * (hole + 1))))) (smallerChild s (2 * (hole + 1))) =
          some (shiftDownLoop e fuel (s.store hole (s.p (smallerChild s (2 * (hole + 1)))))
            (smallerChild s (2 * (hole + 1)))) := by
        refine ih ?_ ?_ ?_ ?_
        · rw [store_n]
          omega
        · rw [store_n]
          omega
        · rw [store_n, store_a]
          exact ha
        · rw [store_n]
          exact hw
      rw [smallerChildWords_eq (by omega) hc (by omega) (by omega), Option.bind_some,
        cell_eq (show smallerChild s (2 * (hole + 1)) < s.a by omega), Option.bind_some,
        storeCell_eq (show hole < s.a by omega), Option.bind_some, hrest]
      split <;> rfl
    · rfl

/-- `min_heap_shift_down_` stays in the block. -/
theorem minHeapShiftDownWords_eq {hole : Nat} (hn : hole ≤ s.n) (ha : s.n < s.a)
    (hw : s.n < 2147483647) :
    minHeapShiftDownWords s hole e = some (minHeapShiftDown s hole e) :=
  shiftDownWords_eq s.n (by omega) hn ha hw

/-! ## Push, pop and erase -/

/-- `min_heap_reserve` fails exactly if `realloc` is called and fails. -/
theorem minHeapReserve_eq_none {ok : Bool} {n : Nat} :
    minHeapReserve ok s n = none ↔ ok = false ∧ s.a < n := by
  unfold minHeapReserve
  split <;> cases ok <;> simp_all

/-- `min_heap_reserve` makes room. -/
theorem minHeapReserve_room {ok : Bool} {n : Nat} (h : minHeapReserve ok s n = some s') :
    ∃ a, s' = { s with a := a } ∧ n ≤ a := by
  unfold minHeapReserve at h
  split at h
  · cases ok with
    | false => cases h
    | true =>
      refine ⟨_, (Option.some.inj h).symm, ?_⟩
      generalize (if s.a ≠ 0 then s.a * 2 else 8) = a
      split <;> omega
  · exact ⟨s.a, (Option.some.inj h).symm, by omega⟩

/-- The number of cells does not wrap when it is doubled. -/
theorem minHeapReserveWords_eq {ok : Bool} (ha : s.n ≤ s.a) (hw : s.n < 2147483647) :
    minHeapReserveWords ok s (s.n + 1) =
      match minHeapReserve ok s (s.n + 1) with
      | none => (-1, s)
      | some s => (0, s) := by
  unfold minHeapReserveWords minHeapReserve
  by_cases hc : s.a < s.n + 1
  · have hdouble : toUnsigned (s.a * 2) = s.a * 2 := toUnsigned_eq (by omega)
    simp only [hc, if_true, hdouble]
    cases ok <;> rfl
  · simp [hc]

/-- The sift moves timers within the block. -/
theorem shiftUpLoop_a : ∀ (fuel : Nat) {s : MinHeap} {hole : Nat},
    (shiftUpLoop e fuel s hole).a = s.a := by
  intro fuel
  induction fuel with
  | zero =>
    intro s hole
    rfl
  | succ fuel ih =>
    intro s hole
    simp only [shiftUpLoop]
    split
    · rw [ih, store_a]
    · rfl

/-- `min_heap_push` returns -1 and changes nothing, or pushes. -/
theorem minHeapPushWords_eq {ok : Bool} (ha : s.n ≤ s.a) (hw : s.n < 2147483647) :
    minHeapPushWords ok s e =
      match minHeapPush ok s e with
      | none => some (-1, s)
      | some s => some (0, s) := by
  unfold minHeapPushWords minHeapPush
  rw [toUnsigned_eq (by omega), minHeapReserveWords_eq ha hw]
  cases hr : minHeapReserve ok s (s.n + 1) with
  | none => simp
  | some r =>
    obtain ⟨a, rfl, hroom⟩ := minHeapReserve_room hr
    have hup := @minHeapShiftUpWords_eq { s with n := s.n + 1, a := a } e s.n
      (show s.n < a by omega) (by omega)
    simp [toUnsigned_eq (show s.n + 1 < 4294967296 by omega), hup]

/-- `min_heap_push` returns -1 exactly if `realloc` is called and fails. -/
theorem minHeapPush_eq_none {ok : Bool} :
    minHeapPush ok s e = none ↔ ok = false ∧ s.a < s.n + 1 := by
  rw [← minHeapReserve_eq_none]
  unfold minHeapPush
  cases minHeapReserve ok s (s.n + 1) <;> simp

/-- A push leaves the cells in the block. -/
theorem minHeapPush_room {ok : Bool} (h : minHeapPush ok s e = some s') : s.n + 1 ≤ s'.a := by
  unfold minHeapPush at h
  cases hr : minHeapReserve ok s (s.n + 1) with
  | none => simp [hr] at h
  | some r =>
    obtain ⟨a, rfl, hroom⟩ := minHeapReserve_room hr
    simp only [hr, Option.some.injEq] at h
    rw [← h]
    unfold minHeapShiftUp
    rw [shiftUpLoop_a]
    exact hroom

/-- `min_heap_pop` stays in the block. -/
theorem minHeapPopWords_eq (ha : s.n ≤ s.a) (hw : s.n < 2147483648) :
    minHeapPopWords s = some (minHeapPop s) := by
  unfold minHeapPopWords minHeapPop
  by_cases hn : s.n ≠ 0
  · have hdown := @minHeapShiftDownWords_eq { s with n := s.n - 1 } (s.p (s.n - 1)) 0
      (Nat.zero_le _) (show s.n - 1 < s.a by omega) (show s.n - 1 < 2147483647 by omega)
    rw [if_pos hn, if_pos hn, unsignedPred_eq (by omega) (by omega),
      cell_eq (show 0 < s.a by omega), cell_eq (show s.n - 1 < s.a by omega)]
    simp [hdown]
  · rw [if_neg hn, if_neg hn]

/-- `min_heap_erase` of a timer in the heap stays in the block. -/
theorem minHeapEraseWords_eq (hs : s.Indexed) (ha : s.n ≤ s.a) (hw : s.n < 2147483648) {i : Nat}
    (hi : i < s.n) : minHeapEraseWords s (s.p i) = some (0, s.removeAt i) := by
  have hidx : noIdx ≠ i := by
    unfold noIdx
    omega
  have hdown := @minHeapShiftDownWords_eq { s with n := s.n - 1 } (s.p (s.n - 1)) i
    (show i ≤ s.n - 1 by omega) (show s.n - 1 < s.a by omega)
    (show s.n - 1 < 2147483647 by omega)
  unfold minHeapEraseWords MinHeap.removeAt
  rw [hs i hi, if_pos hidx, unsignedPred_eq (by omega) (by omega),
    cell_eq (show s.n - 1 < s.a by omega)]
  simp [hdown]

/-! ## What an operation does -/

/-- The timers in the heap. -/
def MinHeap.contents (s : MinHeap) : Multiset Addr := (Multiset.range s.n).map s.p

/-- The heap is as it should be between two operations. -/
structure MinHeap.Sound (s : MinHeap) : Prop where
  count : s.contents.toFinset.card = s.n
  ordered : s.Ordered
  indexed : s.Indexed

/-- What an operation on `s` returns and leaves. -/
def HeapOp.Did (s : MinHeap) (r : HeapRet) (s' : MinHeap) : HeapOp → Prop
  | .push ok e =>
    if ok = false ∧ s.a < s.n + 1 then r = .int (-1) ∧ s' = s
    else r = .int 0 ∧ s'.contents = e ::ₘ s.contents
  | .pop =>
    if s.n = 0 then r = .timer none ∧ s' = s
    else ∃ e, r = .timer (some e) ∧ s.contents = e ::ₘ s'.contents ∧
      (s'.timers e).minHeapIdx = noIdx ∧
      ∀ w ∈ s.contents, minHeapElemGreater (s.timers e) (s.timers w) = false
  | .erase e =>
    r = .int 0 ∧ s.contents = e ::ₘ s'.contents ∧ (s'.timers e).minHeapIdx = noIdx

/-- The operation has a result, which is right; of a timer it changes the index at most. -/
def HeapRight (s : MinHeap) (op : HeapOp) : Prop :=
  ∃ r s', heapCall s op = some (r, s') ∧ s'.Sound ∧ op.Did s r s' ∧
    ∀ w, ∃ i, s'.timers w = { s.timers w with minHeapIdx := i }

/-- A timer is pushed that is not in the heap, or erased that is in it. -/
def HeapAdmits (s : MinHeap) : HeapOp → Prop
  | .push _ e => ¬ s.Has e
  | .pop => True
  | .erase e => s.Has e

/-- The heap stays below 2^31 timers. -/
def HeapSmall (s : MinHeap) : HeapOp → Prop
  | .push _ _ => s.n < 2147483647
  | _ => True

instance (s : MinHeap) (w : Addr) : Decidable (s.Has w) :=
  inferInstanceAs (Decidable (∃ i < s.n, s.p i = w))

instance (s : MinHeap) (op : HeapOp) : Decidable (HeapAdmits s op) :=
  match op with
  | .push _ e => inferInstanceAs (Decidable (¬ s.Has e))
  | .pop => inferInstanceAs (Decidable True)
  | .erase e => inferInstanceAs (Decidable (s.Has e))

instance (s : MinHeap) (op : HeapOp) : Decidable (HeapSmall s op) :=
  match op with
  | .push _ _ => inferInstanceAs (Decidable (s.n < 2147483647))
  | .pop => inferInstanceAs (Decidable True)
  | .erase _ => inferInstanceAs (Decidable True)

/-- The invariant: the heap is valid, small, and in its block. -/
structure Held (s : MinHeap) : Prop extends s.Valid where
  room : s.n ≤ s.a
  small : s.n < 2147483648

theorem mem_contents {w : Addr} : w ∈ s.contents ↔ s.Has w := by
  simp [MinHeap.contents, MinHeap.Has]

/-- An indexed heap holds no timer twice. -/
theorem MinHeap.Indexed.nodup (hs : s.Indexed) : s.contents.Nodup := by
  refine Multiset.Nodup.map_on ?_ (Multiset.nodup_range s.n)
  intro i hi j hj hp
  exact hs.inj (Multiset.mem_range.mp hi) (Multiset.mem_range.mp hj) hp

theorem MinHeap.Valid.sound (hs : s.Valid) : s.Sound where
  count := by
    rw [Multiset.toFinset_card_of_nodup hs.indexed.nodup]
    simp [MinHeap.contents]
  ordered := hs.ordered
  indexed := hs.indexed

/-- The contents with one timer more. -/
theorem contents_cons (hs : s.Indexed) (hs' : s'.Indexed) (he : ¬ s.Has e)
    (hhas : ∀ w, s'.Has w ↔ w = e ∨ s.Has w) : s'.contents = e ::ₘ s.contents := by
  have hnodup : (e ::ₘ s.contents).Nodup :=
    Multiset.nodup_cons.mpr ⟨fun h => he (mem_contents.mp h), hs.nodup⟩
  rw [Multiset.Nodup.ext hs'.nodup hnodup]
  intro w
  rw [Multiset.mem_cons, mem_contents, mem_contents, hhas]

/-- The contents with one timer less. -/
theorem Removed.contents_cons {t : Addr} (hs : s.Indexed) (ht : s.Has t)
    (r : Removed s t s') : s.contents = t ::ₘ s'.contents := by
  have hout : ¬ s'.Has t := fun h => ((r.has t).mp h).1 rfl
  refine Mytimer.contents_cons r.indexed hs hout ?_
  intro w
  rw [r.has]
  by_cases hw : w = t
  · subst hw
    simp [ht]
  · simp [hw]

/-- Taking a timer out keeps the invariant. -/
theorem Held.removeAt (h : Held s) {i : Nat} (hi : i < s.n) : Held (s.removeAt i) := by
  have r := removeAt_removed h.indexed h.ordered.last hi
  have hroom := h.room
  have hsmall := h.small
  refine ⟨removeAt_valid h.toValid hi, ?_, ?_⟩
  · rw [r.n_eq, r.a_eq]
    omega
  · rw [r.n_eq]
    omega

/-- `min_heap_push` of a timer that is not in the heap. -/
theorem push_right {ok : Bool} (h : Held s) (he : ¬ s.Has e) (hw : s.n < 2147483647) :
    ∃ r s', heapCall s (.push ok e) = some (r, s') ∧ Held s' ∧ (HeapOp.push ok e).Did s r s' ∧
      ∀ w, ∃ i, s'.timers w = { s.timers w with minHeapIdx := i } := by
  simp only [heapCall, minHeapPushWords_eq h.room hw, HeapOp.Did]
  cases hp : minHeapPush ok s e with
  | none =>
    refine ⟨.int (-1), s, rfl, h, ?_, fun w => ⟨(s.timers w).minHeapIdx, rfl⟩⟩
    rw [if_pos (minHeapPush_eq_none.mp hp)]
    exact ⟨rfl, rfl⟩
  | some s' =>
    obtain ⟨hn, hidx, hhas, htimers, -⟩ := minHeapPush_spec h.indexed he hp
    have hcall : ¬ (ok = false ∧ s.a < s.n + 1) := by
      intro hc
      rw [minHeapPush_eq_none.mpr hc] at hp
      cases hp
    have hroom := minHeapPush_room hp
    refine ⟨.int 0, s', rfl, ⟨minHeapPush_valid h.toValid he hp, by omega, by omega⟩, ?_, htimers⟩
    rw [if_neg hcall]
    exact ⟨rfl, contents_cons h.indexed hidx he hhas⟩

/-- `min_heap_pop`. -/
theorem pop_right (h : Held s) :
    ∃ r s', heapCall s .pop = some (r, s') ∧ Held s' ∧ HeapOp.pop.Did s r s' ∧
      ∀ w, ∃ i, s'.timers w = { s.timers w with minHeapIdx := i } := by
  simp only [heapCall, minHeapPopWords_eq h.room h.small, HeapOp.Did]
  by_cases hn : s.n = 0
  · refine ⟨.timer none, s, ?_, h, ?_, fun w => ⟨(s.timers w).minHeapIdx, rfl⟩⟩
    · simp [minHeapPop, hn]
    · rw [if_pos hn]
      exact ⟨rfl, rfl⟩
  · have hpos : 0 < s.n := by omega
    have r := removeAt_first h.indexed hn
    refine ⟨.timer (some (s.p 0)), s.removeAt 0, ?_, h.removeAt hpos, ?_, r.timers⟩
    · rw [minHeapPop_eq hn]
      rfl
    · rw [if_neg hn]
      refine ⟨s.p 0, rfl, r.contents_cons h.indexed ⟨0, hpos, rfl⟩, r.idx, ?_⟩
      intro w hw
      rw [minHeapElemGreater_eq_false]
      exact minHeapTop_least h.toValid (if_pos hn) w (mem_contents.mp hw)

/-- `min_heap_erase` of a timer that is in the heap. -/
theorem erase_right (h : Held s) (he : s.Has e) :
    ∃ r s', heapCall s (.erase e) = some (r, s') ∧ Held s' ∧ (HeapOp.erase e).Did s r s' ∧
      ∀ w, ∃ i, s'.timers w = { s.timers w with minHeapIdx := i } := by
  obtain ⟨i, hi, rfl⟩ := he
  have r := removeAt_removed h.indexed h.ordered.last hi
  simp only [heapCall, minHeapEraseWords_eq h.indexed h.room h.small hi, HeapOp.Did]
  exact ⟨.int 0, s.removeAt i, rfl, h.removeAt hi,
    ⟨rfl, r.contents_cons h.indexed ⟨i, hi, rfl⟩, r.idx⟩, r.timers⟩

/-- One operation. -/
theorem heapCall_spec (h : Held s) {op : HeapOp} (hadm : HeapAdmits s op) (hsmall : HeapSmall s op) :
    ∃ r s', heapCall s op = some (r, s') ∧ Held s' ∧ op.Did s r s' ∧
      ∀ w, ∃ i, s'.timers w = { s.timers w with minHeapIdx := i } := by
  cases op with
  | push ok e => exact push_right h hadm hsmall
  | pop => exact pop_right h
  | erase e => exact erase_right h hadm

theorem held_ctor (s : MinHeap) : Held (minHeapCtor s) where
  indexed := fun i hi => absurd hi (Nat.not_lt_zero i)
  ordered := fun i hi => absurd hi (Nat.not_lt_zero i)
  room := Nat.le_refl 0
  small := Nat.zero_lt_succ _

/-- In every run from `min_heap_ctor` that keeps the heap below 2^31 timers, every operation does
what it is for. -/
theorem heapRun_right (s : MinHeap) (ops : List HeapOp)
    (h : AllSteps heapStep (fun s op => HeapAdmits s op ∧ HeapSmall s op) (minHeapCtor s) ops) :
    AllSteps heapStep HeapRight (minHeapCtor s) ops := by
  refine allSteps_of_inv ?_ ?_ (held_ctor s) h
  · intro s op hs hop
    obtain ⟨r, s', hcall, hheld, hdid, htimers⟩ := heapCall_spec hs hop.1 hop.2
    exact ⟨r, s', hcall, hheld.toValid.sound, hdid, htimers⟩
  · intro s op s' hs hop hstep
    obtain ⟨r, s1, hcall, hheld, -⟩ := heapCall_spec hs hop.1 hop.2
    rw [heapStep, hcall] at hstep
    cases hstep
    exact hheld

/-- Timers that were in no heap before, with the same timeout. -/
def blankHeap : MinHeap :=
  { p := fun _ => 0, n := 0, a := 0, timers := fun _ => ⟨noIdx, ⟨0, 0⟩, .onceCb, 0⟩ }

/-- Three timers, of which one is erased and one is popped; the last push fails. -/
theorem heapRun_right_three :
    AllSteps heapStep HeapRight (minHeapCtor blankHeap)
      [.push true 5, .push true 6, .push true 7, .erase 5, .pop, .push true 5, .push false 8] :=
  heapRun_right blankHeap _ (by decide +kernel)

/-! ## 2^31 timers -/

/-- The heap after the timers from 0 to `k - 1` were pushed. -/
structure PushedUpTo (s : MinHeap) (k : Nat) : Prop where
  n_eq : s.n = k
  room : k ≤ s.a
  word : s.a < 4294967296
  cells : ∀ i < k, s.p i = i
  index : ∀ i < k, (s.timers i).minHeapIdx = i
  timeouts : ∀ w, (s.timers w).timeout = ⟨0, 0⟩

/-- Timers with one timeout stay where they are put. -/
theorem PushedUpTo.push {k : Nat} (h : PushedUpTo s k) (hk : k < 4294967295) :
    ∃ s', heapStep s (.push true k) = some s' ∧ PushedUpTo s' (k + 1) := by
  have hn := h.n_eq
  have hroom := h.room
  have hword := h.word
  obtain ⟨a, hreserve, ha, haw⟩ : ∃ a, minHeapReserveWords true s (s.n + 1) = (0, { s with a := a }) ∧
      k + 1 ≤ a ∧ a < 4294967296 := by
    unfold minHeapReserveWords
    by_cases hc : s.a < s.n + 1
    · have hmod : toUnsigned (s.a * 2) < 4294967296 := Nat.mod_lt _ (by decide)
      have hdouble : (if s.a ≠ 0 then toUnsigned (s.a * 2) else 8) < 4294967296 := by
        split
        · exact hmod
        · decide
      simp only [hc, if_true]
      generalize (if s.a ≠ 0 then toUnsigned (s.a * 2) else 8) = a at hdouble
      refine ⟨_, rfl, ?_, ?_⟩
      · split <;> omega
      · split <;> omega
    · rw [if_neg hc]
      exact ⟨s.a, rfl, by omega, hword⟩
  have hup := @minHeapShiftUpWords_eq { s with n := s.n + 1, a := a } k s.n
    (show s.n < a by omega) (by omega)
  have hstay := @minHeapShiftUp_stay { s with n := s.n + 1, a := a } s.n k
    (fun _ => by simp [minHeapElemGreater, h.timeouts, evutilTimerGreater])
  have hpush : heapStep s (.push true k) = some ({ s with n := s.n + 1, a := a }.store s.n k) := by
    simp [heapStep, heapCall, minHeapPushWords, toUnsigned_eq (show s.n + 1 < 4294967296 by omega),
      hreserve, hup, hstay]
  refine ⟨_, hpush, ⟨?_, ha, haw, ?_, ?_, ?_⟩⟩
  · show s.n + 1 = k + 1
    rw [hn]
  · intro i hi
    rw [store_p, hn]
    by_cases hik : i = k
    · simp [hik]
    · rw [Function.update_of_ne hik]
      exact h.cells i (by omega)
  · intro i hi
    rw [store_timers, hn]
    by_cases hik : i = k
    · simp [hik]
    · rw [Function.update_of_ne hik]
      exact h.index i (by omega)
  · intro w
    rw [store_timers]
    by_cases hw : w = k
    · subst hw
      simpa using h.timeouts w
    · rw [Function.update_of_ne hw]
      exact h.timeouts w

/-- The pushes of the timers from 0 to `k - 1`. -/
theorem run_pushes (k : Nat) (hk : k ≤ 4294967295) :
    AllSteps heapStep HeapAdmits (minHeapCtor blankHeap) ((List.range k).map (HeapOp.push true)) ∧
      ∃ s, run heapStep (minHeapCtor blankHeap) ((List.range k).map (HeapOp.push true)) = some s ∧
        PushedUpTo s k := by
  induction k with
  | zero =>
    refine ⟨trivial, _, rfl, ⟨rfl, Nat.le_refl 0, by decide, ?_, ?_, fun _ => rfl⟩⟩
    · exact fun i hi => absurd hi (Nat.not_lt_zero i)
    · exact fun i hi => absurd hi (Nat.not_lt_zero i)
  | succ k ih =>
    obtain ⟨hadm, s, hrun, hs⟩ := ih (by omega)
    obtain ⟨s', hstep, hs'⟩ := hs.push (by omega)
    have hout : ¬ s.Has k := by
      rintro ⟨i, hi, hp⟩
      rw [hs.n_eq] at hi
      rw [hs.cells i hi] at hp
      exact absurd hp (Nat.ne_of_lt hi)
    rw [List.range_succ, List.map_append]
    refine ⟨?_, s', ?_, hs'⟩
    · rw [allSteps_append]
      refine ⟨hadm, ?_⟩
      intro t ht
      rw [hrun] at ht
      cases ht
      exact ⟨hout, fun _ _ => trivial⟩
    · rw [run_append, hrun]
      simp [run, hstep]

/-- The left child of the last of 2^31 cells is outside the block. -/
theorem erase_last_none (h : PushedUpTo s 2147483648) :
    heapCall s (.erase 2147483647) = none := by
  have hroom := h.room
  have hword := h.word
  have hidx : (s.timers 2147483647).minHeapIdx = 2147483647 := h.index _ (by decide)
  have hne : noIdx ≠ 2147483647 := by decide
  have hlast : unsignedPred s.n = 2147483647 := by
    rw [h.n_eq]
    decide
  have hchild : toUnsigned (2 * (2147483647 + 1)) = 0 := by decide
  have hleft : MinHeap.cell { s with n := 2147483647 } (unsignedPred 0) = none := by
    have hpred : unsignedPred 0 = 4294967295 := by decide
    rw [hpred]
    exact if_neg (show ¬ 4294967295 < s.a by omega)
  have hnone : smallerChildWords { s with n := 2147483647 } 0 = none := by
    unfold smallerChildWords
    rw [if_neg (show ¬ 0 = 2147483647 by decide), hleft]
    cases MinHeap.cell { s with n := 2147483647 } 0 <;> rfl
  have hdown : ∀ last, minHeapShiftDownWords { s with n := 2147483647 } 2147483647 last = none := by
    intro last
    unfold minHeapShiftDownWords shiftDownWords
    simp only [hchild, Nat.zero_le, if_true, hnone, Option.bind_none]
  simp only [heapCall, minHeapEraseWords, hidx, hlast, hne, ne_eq, not_false_eq_true, if_true, hdown,
    Option.map_none]
  cases s.cell 2147483647 <;> rfl

/-- Without the bound a run can leave the block: 2^31 timers are pushed, and the last one erased. -/
theorem heapRun_not_right :
    ¬ ∀ (s : MinHeap) (ops : List HeapOp), AllSteps heapStep HeapAdmits (minHeapCtor s) ops →
      AllSteps heapStep HeapRight (minHeapCtor s) ops := by
  intro hall
  obtain ⟨k, hk⟩ : ∃ k, k = 2147483647 := ⟨_, rfl⟩
  obtain ⟨hadm, s, hrun, hs⟩ := run_pushes (k + 1) (by omega)
  have hin : s.Has k := ⟨k, by rw [hs.n_eq]; omega, hs.cells k (by omega)⟩
  have hright := hall blankHeap ((List.range (k + 1)).map (HeapOp.push true) ++ [.erase k]) ?_
  · obtain ⟨r, s', hcall, -⟩ := ((allSteps_append.mp hright).2 s hrun).1
    subst hk
    rw [erase_last_none hs] at hcall
    cases hcall
  · rw [allSteps_append]
    refine ⟨hadm, ?_⟩
    intro t ht
    rw [hrun] at ht
    cases ht
    exact ⟨hin, fun _ _ => trivial⟩

end Donkeyji.Mytimer
