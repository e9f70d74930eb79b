/-
Donkeyji.Mytimer.MinHeap — the min-heap of timers (src/mytimer/min_heap.c).

The heap is the array `p` of `n` pointers to timers in a block of `a`
cells, together with the memory of the timers those pointers lead to:
the heap code writes a timer's `min_heap_idx` whenever it moves the
pointer, and reads its `timeout` to compare. A pointer is a number and
NULL is 0. The counters `n` and `a` are natural numbers: they count
pointers that are in memory, so `unsigned` does not wrap before the
memory is exhausted.

Both sift loops are recursions on a fuel that the index of the hole, or
the number of cells, is always enough for.
-/
import Mathlib.Logic.Function.Basic

namespace Donkeyji.Mytimer

/-- The address of a timer (and of the wrapper whose first field it is). -/
abbrev Addr := Nat

/-- `struct timeval`. -/
structure TimeVal where
  tvSec : Int
  tvUsec : Int
deriving DecidableEq, Repr

/-- The two functions that a wrapper's timer is set to call. -/
inductive TimerCb where
  | onceCb
  | multiCb
deriving DecidableEq, Repr

/-- The fields of `struct timer` other than its list links. -/
structure Timer where
  minHeapIdx : Nat
  timeout : TimeVal
  cb : TimerCb
  arg : Addr
deriving DecidableEq, Repr

/-- `(unsigned)-1`, the index of a timer that is in no heap. -/
def noIdx : Nat := 4294967295

/-- `min_heap_t` and the timers it points to. -/
structure MinHeap where
  p : Nat → Addr
  n : Nat
  a : Nat
  timers : Addr → Timer

/-- `evutil_timercmp(tvp, uvp, >)`. -/
def evutilTimerGreater (tvp uvp : TimeVal) : Bool :=
  if tvp.tvSec = uvp.tvSec then tvp.tvUsec > uvp.tvUsec else tvp.tvSec > uvp.tvSec

/-- `min_heap_elem_greater`. -/
def minHeapElemGreater (a b : Timer) : Bool :=
  evutilTimerGreater a.timeout b.timeout

/-- `min_heap_ctor`: no block and no timers. -/
def minHeapCtor (s : MinHeap) : MinHeap := { s with n := 0, a := 0 }

/-- `min_heap_top`: NULL when the heap is empty. -/
def minHeapTop (s : MinHeap) : Option Addr :=
  if s.n ≠ 0 then some (s.p 0) else none

/-- `t->min_heap_idx = i`. -/
def MinHeap.setIdx (s : MinHeap) (t : Addr) (i : Nat) : MinHeap :=
  { s with timers := Function.update s.timers t { s.timers t with minHeapIdx := i } }

/-- `(s->p[i] = t)->min_heap_idx = i`. -/
def MinHeap.store (s : MinHeap) (i : Nat) (t : Addr) : MinHeap :=
  { s with p := Function.update s.p i t }.setIdx t i

/-- The loop of `min_heap_shift_up_`. -/
def shiftUpLoop (e : Addr) : Nat → MinHeap → Nat → MinHeap
  | 0, s, holeIndex => s.store holeIndex e
  | fuel + 1, s, holeIndex =>
    let parent := (holeIndex - 1) / 2
    if holeIndex ≠ 0 ∧ minHeapElemGreater (s.timers (s.p parent)) (s.timers e) then
      shiftUpLoop e fuel (s.store holeIndex (s.p parent)) parent
    else
      s.store holeIndex e

/-- `min_heap_shift_up_`. -/
def minHeapShiftUp (s : MinHeap) (holeIndex : Nat) (e : Addr) : MinHeap :=
  shiftUpLoop e holeIndex s holeIndex

/-- The child that `min_heap_shift_down_` compares `e` with: the right one
at `minChild`, or the left one when there is no right one or the right one
is greater. -/
def smallerChild (s : MinHeap) (minChild : Nat) : Nat :=
  if minChild = s.n ∨
      minHeapElemGreater (s.timers (s.p minChild)) (s.timers (s.p (minChild - 1))) then
    minChild - 1
  else
    minChild

/-- The loop of `min_heap_shift_down_`. -/
def shiftDownLoop (e : Addr) : Nat → MinHeap → Nat → MinHeap
  | 0, s, holeIndex => minHeapShiftUp s holeIndex e
  | fuel + 1, s, holeIndex =>
    let minChild := 2 * (holeIndex + 1)
    if minChild ≤ s.n then
      let minChild := smallerChild s minChild
      if minHeapElemGreater (s.timers e) (s.timers (s.p minChild)) then
        shiftDownLoop e fuel (s.store holeIndex (s.p minChild)) minChild
      else
        minHeapShiftUp s holeIndex e
    else
      minHeapShiftUp s holeIndex e

/-- `min_heap_shift_down_`. -/
def minHeapShiftDown (s : MinHeap) (holeIndex : Nat) (e : Addr) : MinHeap :=
  shiftDownLoop e s.n s holeIndex

/-- `min_heap_reserve`; `reallocOk` says whether `realloc`, when it is
called, succeeds, and `none` is the return value -1. -/
def minHeapReserve (reallocOk : Bool) (s : MinHeap) (n : Nat) : Option MinHeap :=
  if s.a < n then
    let a := if s.a ≠ 0 then s.a * 2 else 8
    let a := if a < n then n else a
    if reallocOk then some { s with a := a } else none
  else
    some s

/-- `min_heap_push`; `none` is the return value -1. -/
def minHeapPush (reallocOk : Bool) (s : MinHeap) (e : Addr) : Option MinHeap :=
  match minHeapReserve reallocOk s (s.n + 1) with
  | none => none
  | some s => some (minHeapShiftUp { s with n := s.n + 1 } s.n e)

/-- `min_heap_pop`; `none` is the return value NULL. -/
def minHeapPop (s : MinHeap) : Option Addr × MinHeap :=
  if s.n ≠ 0 then
    let e := s.p 0
    let last := s.p (s.n - 1)
    (some e, (minHeapShiftDown { s with n := s.n - 1 } 0 last).setIdx e noIdx)
  else
    (none, s)

/-- `min_heap_erase`; a timer that is in no heap leaves it as it is. -/
def minHeapErase (s : MinHeap) (e : Addr) : MinHeap :=
  if noIdx ≠ (s.timers e).minHeapIdx then
    let last := s.p (s.n - 1)
    (minHeapShiftDown { s with n := s.n - 1 } (s.timers e).minHeapIdx last).setIdx e noIdx
  else
    s

end Donkeyji.Mytimer
