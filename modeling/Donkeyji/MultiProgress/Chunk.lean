/-
Donkeyji.MultiProgress.Chunk — the byte buffers and chunk queues of
`multi_progress/buffer.c` and `multi_progress/chunk.c`.

A queue has its chunks from `head` on, and those of the `unused` chain. A
`buffer` has its block of `size` bytes. `offset` is an `off_t` and `used` a
`size_t`; the two are compared as unsigned 64-bit integers.
-/
import Donkeyji.Lib.Memory

namespace Donkeyji.MultiProgress

open Memory

/-- `struct _buffer`. -/
structure Buffer where
  ptr : List UInt8
  size : Nat
  used : Nat
deriving DecidableEq, Repr

/-- `buffer_new`. -/
def bufferNew : Buffer := ⟨[], 0, 0⟩

/-- `buffer_reset`. -/
def bufferReset (b : Buffer) : Buffer :=
  { b with
    ptr := if b.size > 0 then b.ptr.set 0 0 else b.ptr
    used := 0 }

/-- `buffer_reset` on memory: a buffer that has a size but no block is written to through a null
pointer. -/
def bufferResetMem (b : Buffer) : Option Buffer := do
  let ptr ← (if b.size > 0 then writeAt b.ptr 0 [0] else some b.ptr)
  return { b with ptr, used := 0 }

/-- `struct _chunk`, without its link. -/
structure Chunk where
  mem : Buffer
  offset : Int
deriving DecidableEq, Repr

/-- `chunk_new`. -/
def chunkNew : Chunk := ⟨bufferNew, 0⟩

/-- `chunk_reset`. -/
def chunkReset (c : Chunk) : Chunk := ⟨bufferReset c.mem, 0⟩

/-- `struct _chunkqueue`. -/
structure ChunkQueue where
  chunks : List Chunk
  unused : List Chunk
  unusedChunks : Nat
deriving DecidableEq, Repr

/-- `chunkqueue_new`. -/
def chunkqueueNew : ChunkQueue := ⟨[], [], 0⟩

/-- The test of `chunkqueue_remove_finished_chunks`. -/
def Chunk.finished (c : Chunk) : Bool := c.mem.used = 0 || toU64 c.offset = toU64 (c.mem.used - 1)

/-- The loop of `chunkqueue_remove_finished_chunks`; `is_finished` is not cleared between
the turns. -/
def removeFinishedLoop (isFinished : Bool) (chunks unused : List Chunk) (unusedChunks : Nat) :
    ChunkQueue :=
  match chunks with
  | [] => ⟨[], unused, unusedChunks⟩
  | c :: rest =>
    let isFinished := isFinished || c.finished
    if isFinished then
      if unusedChunks ≥ 4 then removeFinishedLoop isFinished rest unused unusedChunks
      else removeFinishedLoop isFinished rest (chunkReset c :: unused) (unusedChunks + 1)
    else
      ⟨c :: rest, unused, unusedChunks⟩

/-- `chunkqueue_remove_finished_chunks`. -/
def chunkqueueRemoveFinishedChunks (cq : ChunkQueue) : ChunkQueue :=
  removeFinishedLoop false cq.chunks cq.unused cq.unusedChunks

/-- `chunkqueue_reset`. -/
def chunkqueueReset (cq : ChunkQueue) : ChunkQueue :=
  chunkqueueRemoveFinishedChunks
    { cq with chunks := cq.chunks.map fun c => { c with offset := c.mem.used - 1 } }

/-! ## What a queue holds -/

/-- The bytes of a chunk that were not sent. -/
def Chunk.unsent (c : Chunk) : List UInt8 :=
  slice c.mem.ptr c.offset.toNat (c.mem.used - c.offset).toNat

/-- The bytes of a queue that were not sent, in their order. -/
def ChunkQueue.unsent (cq : ChunkQueue) : List UInt8 := cq.chunks.flatMap Chunk.unsent

/-- A finished chunk takes all that follow with it. -/
theorem chunks_removeFinishedLoop_true (chunks unused : List Chunk) (n : Nat) :
    (removeFinishedLoop true chunks unused n).chunks = [] := by
  induction chunks generalizing unused n with
  | nil => rfl
  | cons c rest ih =>
    simp only [removeFinishedLoop, Bool.true_or, if_true]
    split
    · exact ih unused n
    · exact ih (chunkReset c :: unused) (n + 1)

/-- **What stays of a queue**: everything or nothing, as the first chunk is unfinished or
finished. -/
theorem chunks_removeFinished (cq : ChunkQueue) :
    (chunkqueueRemoveFinishedChunks cq).chunks =
      if (cq.chunks.head?.map Chunk.finished).getD true then [] else cq.chunks := by
  unfold chunkqueueRemoveFinishedChunks
  cases hchunks : cq.chunks with
  | nil => rfl
  | cons c rest =>
    cases hc : c.finished with
    | false => simp [removeFinishedLoop, hc]
    | true =>
      simp only [removeFinishedLoop, hc, Bool.false_or, if_true, List.head?_cons, Option.map_some,
        Option.getD_some]
      split <;> exact chunks_removeFinishedLoop_true _ _ _

/-- A queue that was reset is empty. -/
theorem chunks_reset (cq : ChunkQueue) : (chunkqueueReset cq).chunks = [] := by
  rw [chunkqueueReset, chunks_removeFinished]
  cases cq.chunks with
  | nil => rfl
  | cons c rest => simp [Chunk.finished]

end Donkeyji.MultiProgress
