/-
Donkeyji.Mempool.MemoryPool — the memory pool of `mempool/memorypool.cpp`.

A `MemBlock` object at address `b` has a header (`size`, `free`, `first`,
`next`) and its data from `b + 16` on. The headers are a function on addresses;
`owned` lists the blocks that `operator new` gave and that were not deleted,
and a use of any other block is a fault. The bytes of the data areas are one
memory, because the free list of a block is threaded through it: the first two
bytes of a free unit are the index of the next one.

A pointer that may be `NULL` is an optional address. `operator new` is the
environment: the address of a new block is an argument of `allocMem`. The rest
of memory belongs to the environment as well, so `step` has an input for a
write to any byte. `PoolState.live` is bookkeeping of the caller: the pointers
it got and has not given back.
-/
import Donkeyji.Lib.Memory
import Donkeyji.Lib.Chain
import Donkeyji.Lib.Runs

namespace Donkeyji.Mempool

open Memory

/-- The bytes of memory. -/
abbrev Mem := Nat → UInt8

/-- Read a `ushort`. -/
def readUshort (mem : Mem) (a : Nat) : Nat := leNat [mem a, mem (a + 1)]

/-- Write a `ushort`. -/
def writeUshort (mem : Mem) (a : Nat) (n : Nat) : Mem :=
  Function.update (Function.update mem a (UInt8.ofNat n)) (a + 1) (UInt8.ofNat (n / 256))

/-- `struct MemBlock`, without its data. -/
structure MemBlock where
  size : Nat
  free : Nat
  first : Nat
  next : Option Nat

/-- The memory that the pool works on. -/
structure Heap where
  owned : List Nat
  block : Nat → MemBlock
  mem : Mem

/-- `class MemPool`. -/
structure MemPool where
  pBlock : Option Nat
  unitSize : Nat
  initSize : Nat
  growSize : Nat

/-- The address of `_data` in a block. -/
def data (b : Nat) : Nat := b + 16

/-- `sizeof(MemBlock)`, three `ushort`s, a pointer and one byte of data with padding. -/
def sizeofMemBlock : Nat := 24

namespace Heap

/-- Use the block at `p`. -/
def deref (h : Heap) (p : Nat) : Option MemBlock :=
  if p ∈ h.owned then some (h.block p) else none

/-- Change the header of the block at `p`. -/
def setBlock (h : Heap) (p : Nat) (b : MemBlock) : Heap :=
  { h with block := Function.update h.block p b }

/-- The link of a block to the next one. -/
def next (h : Heap) (p : Nat) : Option Nat := (h.block p).next

end Heap

/-- The loop of `MemBlock::MemBlock`: `todo` units from `pData` on get the numbers
from `i` on. -/
def linkUnits (unitSize : Nat) : Nat → Nat → Nat → Mem → Mem
  | 0, _, _, mem => mem
  | todo + 1, i, pData, mem =>
    linkUnits unitSize todo (i + 1) (pData + unitSize) (writeUshort mem pData i)

/-- `new(unitCnt, unitSize) MemBlock(unitCnt, unitSize)` at the address `b`: the first
unit counts as given out. -/
def newMemBlock (h : Heap) (b : Nat) (unitCnt unitSize : Nat) (next : Option Nat) : Heap where
  owned := b :: h.owned
  block := Function.update h.block b
    { size := unitCnt * unitSize % 65536, free := (unitCnt + 65535) % 65536, first := 1,
      next := next }
  mem := linkUnits unitSize (unitCnt - 1) 1 (data b) h.mem

/-- `MemPool::MemPool`. For units of more than four bytes the constructor rounds up the
member `_unitSize`, which has no value yet (`junk`), in place of its argument. -/
def MemPool.new (junk : Nat) (unitSize initSize growSize : Nat) : MemPool where
  pBlock := none
  unitSize :=
    if unitSize > 4 then (junk + 1) / 2 * 2 % 65536 else if unitSize ≤ 2 then 2 else 4
  initSize := initSize
  growSize := growSize

/-- The `while` loop of `allocMem`: the first block with a free unit, or `NULL`. -/
def findFree (h : Heap) : Nat → Option Nat → Option (Option Nat)
  | _, none => some none
  | 0, some _ => none
  | fuel + 1, some pmb =>
    match h.deref pmb with
    | none => none
    | some b => if b.free = 0 then findFree h fuel b.next else some (some pmb)

/-- `MemPool::allocMem`; `newAt` is what `operator new` returns if it is called. The
search visits no block twice, so `owned.length` steps are enough. -/
def allocMem (pool : MemPool) (h : Heap) (newAt : Nat) :
    Option (Option Nat × MemPool × Heap) :=
  match pool.pBlock with
  | none =>
    some (some (data newAt), { pool with pBlock := some newAt },
      newMemBlock h newAt pool.initSize pool.unitSize none)
  | some head =>
    match findFree h h.owned.length (some head) with
    | none => none
    | some (some pmb) =>
      match h.deref pmb with
      | none => none
      | some b =>
        let pFree := data pmb + b.first * pool.unitSize
        some (some pFree, pool,
          h.setBlock pmb { b with first := readUshort h.mem pFree, free := b.free - 1 })
    | some none =>
      if pool.growSize = 0 then some (none, pool, h)
      else
        some (some (data newAt), { pool with pBlock := some newAt },
          newMemBlock h newAt pool.growSize pool.unitSize (some head))

/-- The `while` loop of `freeMem`: the block whose data holds `pFree` with the block
before it (itself, if it is the first), or `NULL`. -/
def findOwner (h : Heap) (pFree : Nat) : Nat → Nat → Nat → Option (Option (Nat × Nat))
  | 0, _, _ => none
  | fuel + 1, pmbPre, pmb =>
    match h.deref pmb with
    | none => none
    | some b =>
      if data pmb > pFree ∨ pFree ≥ data pmb + b.size then
        match b.next with
        | none => some none
        | some q => findOwner h pFree fuel pmb q
      else some (some (pmbPre, pmb))

/-- `MemPool::freeMem`. -/
def freeMem (pool : MemPool) (h : Heap) (pFree : Nat) : Option (MemPool × Heap) :=
  match pool.pBlock with
  | none => some (pool, h)
  | some head =>
    match findOwner h pFree h.owned.length head head with
    | none => none
    | some none => some (pool, h)
    | some (some (pmbPre, pmb)) =>
      let b := h.block pmb
      let b' := { b with free := (b.free + 1) % 65536
                         first := (pFree - data pmb) / pool.unitSize % 65536 }
      let h := { h.setBlock pmb b' with mem := writeUshort h.mem pFree b.first }
      if pmb = head then some (pool, h)
      else
        -- pmb_pre->_pNext = pmb->_pNext
        let h := h.setBlock pmbPre { h.block pmbPre with next := h.next pmb }
        if b'.free * pool.unitSize = b'.size then
          -- delete pmb
          some (pool, { h with owned := h.owned.erase pmb })
        else
          -- pmb->_pNext = _pBlock->_pNext; _pBlock = pmb
          some ({ pool with pBlock := some pmb },
            h.setBlock pmb { h.block pmb with next := h.next head })

/-! ## Runs -/

/-- A pool with its memory and the pointers its caller holds. -/
structure PoolState where
  pool : MemPool
  heap : Heap
  live : List Nat

/-- What happens to a pool: a call of `allocMem`, a call of `freeMem`, or a write to
memory. -/
inductive PoolOp where
  | alloc (newAt : Nat)
  | free (p : Nat)
  | write (a : Nat) (byte : UInt8)

/-- The pool before its first use. -/
def PoolState.init (pool : MemPool) (mem : Mem) : PoolState where
  pool := pool
  heap := { owned := [], block := fun _ => ⟨0, 0, 0, none⟩, mem := mem }
  live := []

/-- One operation; `none` is a fault. -/
def step (s : PoolState) : PoolOp → Option PoolState
  | .alloc newAt =>
    (allocMem s.pool s.heap newAt).map fun r =>
      { pool := r.2.1, heap := r.2.2, live := r.1.toList ++ s.live }
  | .free p =>
    (freeMem s.pool s.heap p).map fun r => { pool := r.1, heap := r.2, live := s.live.erase p }
  | .write a byte => some { s with heap := { s.heap with mem := Function.update s.heap.mem a byte } }

/-- The memory of `n` bytes from `a` on meets no block of the pool. -/
def Fresh (s : PoolState) (a n : Nat) : Prop :=
  ∀ b ∈ s.heap.owned, a + n ≤ b ∨ b + sizeofMemBlock + (s.heap.block b).size ≤ a

/-- What the environment keeps to: `operator new` returns fresh memory of the size it
is asked for, only live pointers are freed, and nobody writes into a block except
into a live unit. -/
def Admits (s : PoolState) : PoolOp → Prop
  | .alloc newAt =>
    Fresh s newAt (sizeofMemBlock +
      (if s.pool.pBlock = none then s.pool.initSize else s.pool.growSize) * s.pool.unitSize)
  | .free p => p ∈ s.live
  | .write a _ => (∃ p ∈ s.live, p ≤ a ∧ a < p + s.pool.unitSize) ∨ Fresh s a 1

instance (s : PoolState) (a n : Nat) : Decidable (Fresh s a n) :=
  inferInstanceAs (Decidable (∀ b ∈ s.heap.owned, _))

instance (s : PoolState) : ∀ op, Decidable (Admits s op)
  | .alloc _ => inferInstanceAs (Decidable (Fresh s _ _))
  | .free p => inferInstanceAs (Decidable (p ∈ s.live))
  | .write a _ => inferInstanceAs
      (Decidable ((∃ p ∈ s.live, p ≤ a ∧ a < p + s.pool.unitSize) ∨ Fresh s a 1))

/-- The address of a unit. -/
def unitAddr (u : Nat) (b : Nat) (i : Nat) : Nat := data b + i * u

/-- The number of units of a block. -/
def PoolState.units (s : PoolState) (b : Nat) : Nat := (s.heap.block b).size / s.pool.unitSize

/-- The link in a unit. -/
def PoolState.link (s : PoolState) (b : Nat) (i : Nat) : Nat :=
  readUshort s.heap.mem (unitAddr s.pool.unitSize b i)

/-- The chain of free units of a block: `_free` indices from `_first` on. -/
def PoolState.freeList (s : PoolState) (b : Nat) : List Nat :=
  List.iterate (s.link b) (s.heap.block b).first (s.heap.block b).free

/-- A block that is reachable from `_pBlock`. -/
def PoolState.Reachable (s : PoolState) (b : Nat) : Prop :=
  LinkedList.Reach s.heap.next s.pool.pBlock b

end Donkeyji.Mempool
