/-
Donkeyji.MultiProgress.ChunkLinks — chunk queues in memory
(`multi_progress/chunk.c`).

`Chunk.lean` has a queue as its two lists of chunks; here the chunks are
objects with `next` pointers, as in the C code. A chunk that is not allocated,
or was freed, has no entry in the heap: an access to it, or through a null
pointer, has no result. `chunk_new` and `chunkqueue_new` have no return
statement; they are taken to return the object.

The addresses that `malloc` gives are part of the input, and so is whether
`buffer_new` has its memory. `made` counts the chunks made so far: no list is
longer, so it bounds the turns of a loop.
-/
import Mathlib.Logic.Function.Basic
import Donkeyji.MultiProgress.Chunk

namespace Donkeyji.MultiProgress

open Memory

/-- The address of a `chunk`. -/
abbrev ChunkPtr := Nat

/-- `struct _chunk`; `mem` is NULL when `buffer_new` has failed. -/
structure ChunkNode where
  mem : Option Buffer
  offset : Int
  next : Option ChunkPtr
deriving DecidableEq, Repr

/-- A `chunkqueue`, its chunks, and those that `chunk_free` was called on. -/
structure Queue where
  heap : ChunkPtr → Option ChunkNode
  head : Option ChunkPtr
  tail : Option ChunkPtr
  unused : Option ChunkPtr
  unusedChunks : Nat
  freed : List ChunkPtr
  made : Nat

/-- `chunkqueue_new`. -/
def queueNew : Queue := ⟨fun _ => none, none, none, none, 0, [], 0⟩

/-- Writes a chunk. -/
def Queue.set (cq : Queue) (c : ChunkPtr) (n : ChunkNode) : Queue :=
  { cq with heap := Function.update cq.heap c (some n) }

/-- `chunk_new`. -/
def Queue.chunkNew (cq : Queue) (malloc : Option ChunkPtr) (buf : Bool) :
    Option ChunkPtr × Queue :=
  match malloc with
  | none => (none, cq)
  | some c =>
    let mem := if buf then some bufferNew else none
    (some c, { cq.set c ⟨mem, 0, none⟩ with made := cq.made + 1 })

/-- `chunk_free`. -/
def Queue.chunkFree (cq : Queue) (c : ChunkPtr) : Option Queue := do
  let _ ← cq.heap c
  return { cq with heap := Function.update cq.heap c none, freed := cq.freed ++ [c] }

/-- `chunk_reset`. -/
def Queue.chunkReset (cq : Queue) (c : ChunkPtr) : Option Queue := do
  let n ← cq.heap c
  match n.mem with
  | none => return cq.set c { n with offset := 0 }
  | some b =>
    let b ← bufferResetMem b
    return cq.set c { n with mem := some b, offset := 0 }

/-- `chunkqueue_get_unused_chunk`. -/
def Queue.getUnusedChunk (cq : Queue) (malloc : Option ChunkPtr) (buf : Bool) :
    Option (Option ChunkPtr × Queue) :=
  match cq.unused with
  | none => some (cq.chunkNew malloc buf)
  | some c => do
    let n ← cq.heap c
    let cq := { cq with unused := n.next }
    let cq := cq.set c { n with next := none }
    return (some c, { cq with unusedChunks := (toU64 (cq.unusedChunks - 1)).toNat })

/-- `chunkqueue_append_chunk`. -/
def Queue.appendChunk (cq : Queue) (c : ChunkPtr) : Option Queue := do
  let cq ← (match cq.tail with
    | none => some cq
    | some t => do
      let n ← cq.heap t
      return cq.set t { n with next := some c })
  let cq := { cq with tail := some c }
  return if cq.head = none then { cq with head := some c } else cq

/-- `chunkqueue_get_append_chunk`. -/
def Queue.getAppendChunk (cq : Queue) (malloc : Option ChunkPtr) (buf : Bool) :
    Option (Option ChunkPtr × Queue) := do
  let (c, cq) ← cq.getUnusedChunk malloc buf
  match c with
  | none => return (none, cq)
  | some c =>
    let cq ← cq.appendChunk c
    return (some c, cq)

/-- A finished chunk goes from the head list to the unused list, or is freed. -/
def Queue.recycle (cq : Queue) (c : ChunkPtr) : Option Queue := do
  let cq ← cq.chunkReset c
  let n ← cq.heap c
  let cq := { cq with head := n.next }
  let cq := if cq.tail = some c then { cq with tail := none } else cq
  if cq.unusedChunks ≥ 4 then
    cq.chunkFree c
  else
    let cq := cq.set c { n with next := cq.unused }
    return { cq with unused := some c, unusedChunks := cq.unusedChunks + 1 }

/-- The loop of `chunkqueue_remove_finished_chunks`. -/
def Queue.removeLoop : Nat → Bool → Queue → Option Queue
  | 0, _, _ => none
  | fuel + 1, isFinished, cq =>
    match cq.head with
    | none => some cq
    | some c => do
      let n ← cq.heap c
      let mem ← n.mem
      let isFinished := isFinished || Chunk.finished ⟨mem, n.offset⟩
      if isFinished then
        let cq ← cq.recycle c
        Queue.removeLoop fuel isFinished cq
      else
        return cq

/-- `chunkqueue_remove_finished_chunks`. -/
def Queue.removeFinishedChunks (cq : Queue) : Option Queue :=
  Queue.removeLoop (cq.made + 1) false cq

/-- The loop of `chunkqueue_reset`. -/
def Queue.resetLoop : Nat → Option ChunkPtr → Queue → Option Queue
  | 0, _, _ => none
  | _ + 1, none, cq => some cq
  | fuel + 1, some c, cq => do
    let n ← cq.heap c
    let mem ← n.mem
    let cq := cq.set c { n with offset := mem.used - 1 }
    Queue.resetLoop fuel n.next cq

/-- `chunkqueue_reset`. -/
def Queue.reset (cq : Queue) : Option Queue := do
  let cq ← Queue.resetLoop (cq.made + 1) cq.head cq
  cq.removeFinishedChunks

/-- The first loop of `chunkqueue_free`. -/
def Queue.freeHeadLoop : Nat → Option ChunkPtr → Queue → Option Queue
  | 0, _, _ => none
  | _ + 1, none, cq => some cq
  | fuel + 1, some c, cq => do
    let n ← cq.heap c
    let cq ← cq.chunkFree c
    Queue.freeHeadLoop fuel n.next cq

/-- The second loop of `chunkqueue_free`: after `c = tmp` it advances once more. -/
def Queue.freeUnusedLoop : Nat → Option ChunkPtr → Queue → Option Queue
  | 0, _, _ => none
  | _ + 1, none, cq => some cq
  | fuel + 1, some c, cq => do
    let n ← cq.heap c
    let cq ← cq.chunkFree c
    let c ← n.next
    let n ← cq.heap c
    Queue.freeUnusedLoop fuel n.next cq

/-- `chunkqueue_free`: the chunks as it leaves them. -/
def Queue.free (fuel : Nat) (cq : Queue) : Option Queue := do
  let cq ← Queue.freeHeadLoop fuel cq.head cq
  Queue.freeUnusedLoop fuel cq.unused cq

/-! ## Runs -/

/-- The calls on a queue, and a change that its user makes to a chunk. -/
inductive QueueCall where
  | getAppendChunk (malloc : Option ChunkPtr) (buf : Bool)
  | removeFinishedChunks
  | reset
  | change (c : ChunkPtr) (mem : Buffer) (offset : Int)
deriving DecidableEq, Repr

/-- What a call returns, if it returns a chunk, and the queue after it. -/
def queueCall (cq : Queue) : QueueCall → Option (Option ChunkPtr × Queue)
  | .getAppendChunk malloc buf => cq.getAppendChunk malloc buf
  | .removeFinishedChunks => do
    let cq ← cq.removeFinishedChunks
    return (none, cq)
  | .reset => do
    let cq ← cq.reset
    return (none, cq)
  | .change c mem offset => do
    let n ← cq.heap c
    let _ ← n.mem
    return (none, cq.set c { n with mem := some mem, offset })

/-- A step of a run. -/
def queueStep (cq : Queue) (c : QueueCall) : Option Queue := (queueCall cq c).map Prod.snd

/-- `malloc` gives an address that is not in use, and a chunk that is changed is allocated. -/
def Admits (cq : Queue) : QueueCall → Prop
  | .getAppendChunk malloc _ => ∀ c ∈ malloc, cq.heap c = none
  | .change c _ _ => (cq.heap c).isSome = true
  | _ => True

instance (cq : Queue) (c : QueueCall) : Decidable (Admits cq c) := by
  cases c <;> unfold Admits <;> infer_instance

end Donkeyji.MultiProgress
