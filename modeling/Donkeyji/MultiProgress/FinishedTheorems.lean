/-
Donkeyji.MultiProgress.FinishedTheorems — when the finished chunks are
recognised.

`chunkqueue_remove_finished_chunks` ought to take the longest prefix of chunks
without an unread byte off the head list. Its test compares `offset` with
`used - 1`, so a chunk with one unread byte counts as finished and one that
was read to its end does not; and the flag is not cleared, so a finished first
chunk takes all others with it (`chunks_removeFinished`).
-/
import Mathlib.Data.List.TakeWhile
import Donkeyji.MultiProgress.Chunk

namespace Donkeyji.MultiProgress

open Memory

/-- A chunk without an unread byte. -/
def Chunk.allRead (c : Chunk) : Bool := c.mem.used = 0 || c.offset = c.mem.used

/-- The offset is a position in the chunk, or its end; `used` is a `size_t` and `offset` an
`off_t`. -/
structure Chunk.InRange (c : Chunk) : Prop where
  nonneg : 0 ≤ c.offset
  le_used : c.offset ≤ c.mem.used
  used_lt : c.mem.used < 2 ^ 64
  offset_lt : c.offset < 2 ^ 63

/-- Exactly the chunks in front that have no unread byte are removed. -/
def RemovesAllRead (cq : ChunkQueue) : Prop :=
  (chunkqueueRemoveFinishedChunks cq).chunks = cq.chunks.dropWhile Chunk.allRead

/-- The first chunk has two unread bytes or more, or it is empty and no chunk has an unread
byte. -/
def Recognised (cq : ChunkQueue) : Prop :=
  ∀ c ∈ cq.chunks.head?,
    c.offset + 1 < c.mem.used ∨ c.mem.used = 0 ∧ ∀ d ∈ cq.chunks, d.allRead = true

/-- The test of the code: the chunk is empty, or has one unread byte. -/
theorem Chunk.InRange.finished_iff {c : Chunk} (h : c.InRange) :
    c.finished = true ↔ c.mem.used = 0 ∨ c.offset + 1 = c.mem.used := by
  have h0 := h.nonneg
  have hlt := h.used_lt
  have hoff := h.offset_lt
  simp only [Chunk.finished, Bool.or_eq_true, decide_eq_true_eq]
  by_cases hz : c.mem.used = 0
  · simp [hz]
  · rw [toU64_of_bounds h0 (by omega), toU64_of_bounds (by omega) (by omega)]
    omega

theorem Chunk.allRead_iff {c : Chunk} :
    c.allRead = true ↔ c.mem.used = 0 ∨ c.offset = c.mem.used := by
  simp [Chunk.allRead]

/-- A chunk that counts as finished in front: nothing stays. -/
theorem chunks_of_finished {cq : ChunkQueue} {c : Chunk} {rest : List Chunk}
    (hchunks : cq.chunks = c :: rest) (hc : c.finished = true) :
    (chunkqueueRemoveFinishedChunks cq).chunks = [] := by
  simp [chunks_removeFinished, hchunks, hc]

/-- A chunk that does not: everything stays. -/
theorem chunks_of_unfinished {cq : ChunkQueue} {c : Chunk} {rest : List Chunk}
    (hchunks : cq.chunks = c :: rest) (hc : ¬ c.finished = true) :
    (chunkqueueRemoveFinishedChunks cq).chunks = c :: rest := by
  simp [chunks_removeFinished, hchunks, hc]

/-- **When the finished chunks are recognised**: for every queue with offsets in range, exactly
if there is no chunk, or the first has two unread bytes or more, or it is empty and no other
chunk has an unread byte. -/
theorem removes_all_read_iff (cq : ChunkQueue) (h : ∀ c ∈ cq.chunks, c.InRange) :
    RemovesAllRead cq ↔ Recognised cq := by
  unfold RemovesAllRead Recognised
  cases hchunks : cq.chunks with
  | nil => simp [chunks_removeFinished, hchunks]
  | cons c rest =>
    have hc : c.InRange := h c (by simp [hchunks])
    have h0 := hc.nonneg
    have hle := hc.le_used
    have hfin := hc.finished_iff
    have hread : c.allRead = true ↔ _ := Chunk.allRead_iff
    simp only [List.head?_cons, Option.mem_some_iff, forall_eq']
    by_cases hzero : c.mem.used = 0
    · -- the empty chunk takes all others with it
      rw [chunks_of_finished hchunks (hfin.mpr (Or.inl hzero)), eq_comm, List.dropWhile_eq_nil_iff]
      constructor
      · intro hall
        exact Or.inr ⟨hzero, hall⟩
      · intro hcond
        exact (hcond.resolve_left (by omega)).2
    by_cases hone : c.offset + 1 = c.mem.used
    · -- the one unread byte is lost
      have hnot : ¬ c.allRead = true := by
        rw [hread]
        omega
      rw [chunks_of_finished hchunks (hfin.mpr (Or.inr hone)), List.dropWhile_cons_of_neg hnot]
      exact iff_of_false (by simp) (by omega)
    rw [chunks_of_unfinished hchunks (by rw [hfin]; omega)]
    by_cases hend : c.offset = c.mem.used
    · -- the chunk that was read to its end stays
      rw [List.dropWhile_cons_of_pos (hread.mpr (Or.inr hend))]
      refine iff_of_false (fun hsame => ?_) (by omega)
      have hlen := congrArg List.length hsame
      have hshort := (List.dropWhile_sublist (l := rest) Chunk.allRead).length_le
      simp only [List.length_cons] at hlen
      omega
    · have hnot : ¬ c.allRead = true := by
        rw [hread]
        omega
      rw [List.dropWhile_cons_of_neg hnot]
      exact iff_of_true rfl (Or.inl (by omega))

/-- A half-read chunk stays, with the read chunk behind it. -/
theorem removes_all_read_iff_half :
    RemovesAllRead ⟨[⟨⟨[65, 66, 67], 3, 3⟩, 1⟩, ⟨⟨[68], 1, 1⟩, 1⟩], [], 0⟩ ↔
      Recognised ⟨[⟨⟨[65, 66, 67], 3, 3⟩, 1⟩, ⟨⟨[68], 1, 1⟩, 1⟩], [], 0⟩ := by
  refine removes_all_read_iff _ fun c hc => ?_
  simp only [List.mem_cons, List.not_mem_nil, or_false] at hc
  rcases hc with rfl | rfl
  · exact ⟨by decide, by decide, by decide, by decide⟩
  · exact ⟨by decide, by decide, by decide, by decide⟩

/-- **An unread byte is discarded**: the only chunk holds one byte, and none was read. -/
theorem unread_byte_discarded : ¬ RemovesAllRead ⟨[⟨⟨[65], 1, 1⟩, 0⟩], [], 0⟩ := by
  unfold RemovesAllRead
  decide

end Donkeyji.MultiProgress
