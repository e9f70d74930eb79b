/-
Donkeyji.MultiProgress.WriteTheorems — what `_conn_write_response` sends.

The loop returns only if there is no chunk to write (`writeLoop_eq_some`), and
then "hello" is all that is sent. So every byte is sent once only by accident:
when a finished chunk stands in front and the rest of the queue, which is
dropped with it, spells "hello" (`writes_once_iff`).
-/
import Donkeyji.MultiProgress.Conn

namespace Donkeyji.MultiProgress

/-- The call returns, hands on the unsent bytes of the queue, and leaves only chunks whose
bytes are sent. -/
def WritesOnce (ok : Nat → Bool) (wcq : ChunkQueue) : Prop :=
  ∃ fuel wcq' out, connWriteResponse ok fuel wcq = some (wcq', out) ∧ out = wcq.unsent ∧
    ∀ ck ∈ wcq'.chunks, ck.offset = ck.mem.used

/-- `chunkqueue_remove_finished_chunks` finds the first chunk finished. -/
def StartsFinished (wcq : ChunkQueue) : Prop := ∃ ck ∈ wcq.chunks.head?, ck.finished = true

/-- **The loop does not end at a chunk.** -/
theorem writeLoop_cons (ok : Nat → Bool) (fuel calls : Nat) (ck : Chunk) (rest : List Chunk)
    (out : List UInt8) : writeLoop ok fuel calls (ck :: rest) out = none := by
  induction fuel generalizing calls ck out with
  | zero => rfl
  | succ fuel ih =>
    rw [writeLoop]
    cases hread : Memory.readAt ck.mem.ptr ck.offset (Memory.toU64 (ck.mem.used - ck.offset)) with
    | none => rfl
    | some bytes => exact ih _ _ _

/-- The loop returns only if there is no chunk, and without a call. -/
theorem writeLoop_eq_some {ok : Nat → Bool} {fuel calls : Nat} {chunks : List Chunk}
    {out : List UInt8} {r : List Chunk × List UInt8} :
    writeLoop ok fuel calls chunks out = some r ↔ fuel ≠ 0 ∧ chunks = [] ∧ r = ([], out) := by
  cases chunks with
  | nil =>
    cases fuel with
    | zero => simp [writeLoop]
    | succ fuel => simp [writeLoop, eq_comm]
  | cons ck rest => simp [writeLoop_cons]

/-- **What `_conn_write_response` sends when it returns**: "hello". -/
theorem connWriteResponse_eq_some {ok : Nat → Bool} {fuel : Nat} {wcq wcq' : ChunkQueue}
    {out : List UInt8} (h : connWriteResponse ok fuel wcq = some (wcq', out)) :
    (chunkqueueRemoveFinishedChunks wcq).chunks = [] ∧ wcq'.chunks = [] ∧ out = hello := by
  simp only [connWriteResponse, Option.bind_eq_bind, Option.bind_eq_some_iff, Option.pure_def,
    Option.some.injEq, Prod.mk.injEq] at h
  obtain ⟨⟨chunks, sent⟩, hloop, hwcq, hout⟩ := h
  obtain ⟨-, hnil, hr⟩ := writeLoop_eq_some.mp hloop
  cases hr
  exact ⟨hnil, by rw [← hwcq], by rw [← hout]; rfl⟩

/-- It returns exactly if the queue is empty after the finished chunks are removed. -/
theorem connWriteResponse_returns (ok : Nat → Bool) {wcq : ChunkQueue}
    (h : (chunkqueueRemoveFinishedChunks wcq).chunks = []) :
    ∃ wcq', connWriteResponse ok 1 wcq = some (wcq', hello) ∧ wcq'.chunks = [] := by
  refine ⟨{ chunkqueueRemoveFinishedChunks wcq with chunks := [] }, ?_, rfl⟩
  simp [connWriteResponse, h, writeLoop]

/-- **When every byte is written once**: the first chunk counts as finished and the unsent bytes
of the queue are those of "hello". -/
theorem writes_once_iff (ok : Nat → Bool) (wcq : ChunkQueue) :
    WritesOnce ok wcq ↔ StartsFinished wcq ∧ wcq.unsent = hello := by
  have hchunks := chunks_removeFinished wcq
  constructor
  · intro h
    obtain ⟨fuel, wcq', out, hret, hout, -⟩ := h
    obtain ⟨hnil, -, hhello⟩ := connWriteResponse_eq_some hret
    have hunsent : wcq.unsent = hello := hout.symm.trans hhello
    refine ⟨?_, hunsent⟩
    cases hqueue : wcq.chunks with
    | nil => simp [ChunkQueue.unsent, hqueue, hello] at hunsent
    | cons ck rest =>
      rw [hnil, hqueue] at hchunks
      cases hck : ck.finished with
      | true => exact ⟨ck, by simp [hqueue], hck⟩
      | false => simp [hck] at hchunks
  · intro h
    obtain ⟨⟨ck, hck, hfin⟩, hunsent⟩ := h
    have hnil : (chunkqueueRemoveFinishedChunks wcq).chunks = [] := by
      rw [hchunks, Option.mem_def.mp hck]
      simp [hfin]
    obtain ⟨wcq', hret, hempty⟩ := connWriteResponse_returns ok hnil
    refine ⟨1, wcq', hello, hret, hunsent.symm, ?_⟩
    intro ck' hmem
    rw [hempty] at hmem
    cases hmem

/-- **A response that never ends**: one chunk with two bytes. -/
theorem response_never_ends :
    ¬ WritesOnce (fun _ => true) ⟨[⟨⟨65 :: 66 :: List.replicate 126 0, 128, 2⟩, 0⟩], [], 0⟩ := by
  intro h
  obtain ⟨fuel, wcq', out, hret, -, -⟩ := h
  have hnil := (connWriteResponse_eq_some hret).1
  exact absurd hnil (by decide)

end Donkeyji.MultiProgress
