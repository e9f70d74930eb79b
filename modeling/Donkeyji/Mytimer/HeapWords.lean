/-
Donkeyji.Mytimer.HeapWords — the min-heap with its `unsigned` counters and
its block (src/mytimer/min_heap.c).

The functions are those of `MinHeap` with what was left out there: every
index is computed in `unsigned`, 32 bits wide, and every access to `p` stays
in the block of `a` cells or has no result (`none`). The size of the block in
bytes, `a * sizeof *p`, is a `size_t` of 64 bits and does not wrap.

The fuel of the loop of `min_heap_shift_down_` is more than the number of
cells; a loop that is not done by then has no result either.
-/
import Donkeyji.Mytimer.MinHeap

namespace Donkeyji.Mytimer

/-- A value converted to `unsigned`. -/
def toUnsigned (x : Nat) : Nat := x % 4294967296

/-- `x - 1` in `unsigned`. -/
def unsignedPred (x : Nat) : Nat := toUnsigned (x + 4294967295)

/-- `s->p[i]`. -/
def MinHeap.cell (s : MinHeap) (i : Nat) : Option Addr :=
  if i < s.a then some (s.p i) else none

/-- `(s->p[i] = t)->min_heap_idx = i`. -/
def MinHeap.storeCell (s : MinHeap) (i : Nat) (t : Addr) : Option MinHeap :=
  if i < s.a then some (s.store i t) else none

/-- The loop of `min_heap_shift_up_`. -/
def shiftUpWords (e : Addr) : Nat → MinHeap → Nat → Option MinHeap
  | 0, s, holeIndex => s.storeCell holeIndex e
  | fuel + 1, s, holeIndex =>
    let parent := unsignedPred holeIndex / 2
    if holeIndex ≠ 0 then
      (s.cell parent).bind fun t =>
        if minHeapElemGreater (s.timers t) (s.timers e) then
          (s.storeCell holeIndex t).bind fun s => shiftUpWords e fuel s parent
        else
          s.storeCell holeIndex e
    else
      s.storeCell holeIndex e

/-- `min_heap_shift_up_`. -/
def minHeapShiftUpWords (s : MinHeap) (holeIndex : Nat) (e : Addr) : Option MinHeap :=
  shiftUpWords e holeIndex s holeIndex

/-- `min_child` after the subtraction in the loop of `min_heap_shift_down_`. -/
def smallerChildWords (s : MinHeap) (minChild : Nat) : Option Nat :=
  if minChild = s.n then
    some (unsignedPred minChild)
  else
    (s.cell minChild).bind fun right =>
      (s.cell (unsignedPred minChild)).map fun left =>
        if minHeapElemGreater (s.timers right) (s.timers left) then
          unsignedPred minChild
        else
          minChild

/-- The loop of `min_heap_shift_down_`. -/
def shiftDownWords (e : Addr) : Nat → MinHeap → Nat → Option MinHeap
  | 0, _, _ => none
  | fuel + 1, s, holeIndex =>
    let minChild := toUnsigned (2 * (holeIndex + 1))
    if minChild ≤ s.n then
      (smallerChildWords s minChild).bind fun minChild =>
        (s.cell minChild).bind fun t =>
          if minHeapElemGreater (s.timers e) (s.timers t) then
            (s.storeCell holeIndex t).bind fun s => shiftDownWords e fuel s minChild
          else
            minHeapShiftUpWords s holeIndex e
    else
      minHeapShiftUpWords s holeIndex e

/-- `min_heap_shift_down_`. -/
def minHeapShiftDownWords (s : MinHeap) (holeIndex : Nat) (e : Addr) : Option MinHeap :=
  shiftDownWords e (s.n + 1) s holeIndex

/-- `min_heap_reserve`, its return value and the heap; `reallocOk` says
whether `realloc`, when it is called, succeeds. -/
def minHeapReserveWords (reallocOk : Bool) (s : MinHeap) (n : Nat) : Int × MinHeap :=
  if s.a < n then
    let a := if s.a ≠ 0 then toUnsigned (s.a * 2) else 8
    let a := if a < n then n else a
    if reallocOk then (0, { s with a := a }) else (-1, s)
  else
    (0, s)

/-- `min_heap_push`. -/
def minHeapPushWords (reallocOk : Bool) (s : MinHeap) (e : Addr) : Option (Int × MinHeap) :=
  let (failed, s) := minHeapReserveWords reallocOk s (toUnsigned (s.n + 1))
  if failed ≠ 0 then
    some (-1, s)
  else
    (minHeapShiftUpWords { s with n := toUnsigned (s.n + 1) } s.n e).map fun s => (0, s)

/-- `min_heap_pop`; the timer `none` is the return value NULL. -/
def minHeapPopWords (s : MinHeap) : Option (Option Addr × MinHeap) :=
  if s.n ≠ 0 then
    (s.cell 0).bind fun e =>
      (s.cell (unsignedPred s.n)).bind fun last =>
        (minHeapShiftDownWords { s with n := unsignedPred s.n } 0 last).map fun s =>
          (some e, s.setIdx e noIdx)
  else
    some (none, s)

/-- `min_heap_erase`. -/
def minHeapEraseWords (s : MinHeap) (e : Addr) : Option (Int × MinHeap) :=
  if noIdx ≠ (s.timers e).minHeapIdx then
    (s.cell (unsignedPred s.n)).bind fun last =>
      (minHeapShiftDownWords { s with n := unsignedPred s.n } (s.timers e).minHeapIdx last).map
        fun s => (0, s.setIdx e noIdx)
  else
    some (-1, s)

/-! ## Runs -/

/-- An operation on the heap. -/
inductive HeapOp where
  | push (reallocOk : Bool) (e : Addr)
  | pop
  | erase (e : Addr)
deriving DecidableEq, Repr

/-- What an operation returns. -/
inductive HeapRet where
  | int (r : Int)
  | timer (t : Option Addr)
deriving DecidableEq, Repr

/-- An operation: what it returns and the heap it leaves. -/
def heapCall (s : MinHeap) : HeapOp → Option (HeapRet × MinHeap)
  | .push ok e => (minHeapPushWords ok s e).map fun (r, s) => (.int r, s)
  | .pop => (minHeapPopWords s).map fun (t, s) => (.timer t, s)
  | .erase e => (minHeapEraseWords s e).map fun (r, s) => (.int r, s)

/-- An operation, as a step of a run. -/
def heapStep (s : MinHeap) (op : HeapOp) : Option MinHeap :=
  (heapCall s op).map Prod.snd

end Donkeyji.Mytimer
