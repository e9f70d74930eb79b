/-
Donkeyji.MultiProgress.DisposalTheorems — which chunks `chunkqueue_free` frees.

The first loop frees the head list, chunk by chunk (`freeHeadLoop_frees`). The
second sets `c` to the next chunk and then advances once more: of the unused
list it frees every other chunk, and it reads through NULL when their number
is odd (`freeUnusedLoop_half`).
-/
import Donkeyji.MultiProgress.ChunkLinksTheorems

namespace Donkeyji.MultiProgress

open LinkedList

/-- A well-formed queue: two lists that end and share no chunk, of chunks that are allocated. -/
structure Queue.Holds (cq : Queue) (hs us : List ChunkPtr) : Prop where
  head : Chain cq.next cq.head hs
  unused : Chain cq.next cq.unused us
  disjoint : hs.Disjoint us
  live : ∀ c ∈ hs ++ us, cq.heap c ≠ none

/-- `chunkqueue_free` returns without an access to a freed chunk or through NULL, and the chunks
that it calls `chunk_free` on are those of both lists, each once. -/
def Queue.DisposedOf (cq : Queue) (hs us : List ChunkPtr) : Prop :=
  ∃ fuel cq' l, cq.free fuel = some cq' ∧ cq'.freed = cq.freed ++ l ∧ List.Perm l (hs ++ us)

/-- A chunk that is freed. -/
theorem chunkFree_some {cq : Queue} {c : ChunkPtr} {n : ChunkNode} (hn : cq.heap c = some n) :
    cq.chunkFree c = some { cq with
      heap := Function.update cq.heap c none, freed := cq.freed ++ [c] } := by
  simp [Queue.chunkFree, hn]

/-- The links and the other chunks, after a chunk was freed. -/
theorem next_update_of_ne (cq : Queue) {c d : ChunkPtr} (freed : List ChunkPtr) (h : d ≠ c) :
    Queue.next { cq with heap := Function.update cq.heap c none, freed } d = cq.next d :=
  Queue.next_congr (Function.update_of_ne h none cq.heap)

/-- **The first loop, if it returns**, frees its list in order and no other chunk. -/
theorem freeHeadLoop_frees (fuel : Nat) : ∀ {p : Option ChunkPtr} {cq cq' : Queue}
    {l : List ChunkPtr}, Chain cq.next p l → Queue.freeHeadLoop fuel p cq = some cq' →
    cq'.freed = cq.freed ++ l ∧ cq'.unused = cq.unused ∧ ∀ d ∉ l, cq'.heap d = cq.heap d := by
  induction fuel with
  | zero =>
    intro p cq cq' l _ hrun
    cases hrun
  | succ fuel ih =>
    intro p cq cq' l hchain hrun
    cases l with
    | nil =>
      cases chain_nil.mp hchain
      cases hrun
      exact ⟨by simp, rfl, fun d _ => rfl⟩
    | cons c l =>
      obtain ⟨rfl, hl⟩ := chain_cons.mp hchain
      have hc : c ∉ l := (List.nodup_cons.mp hchain.nodup).1
      simp only [Queue.freeHeadLoop] at hrun
      obtain ⟨n, hn, hrun⟩ := Option.bind_eq_some_iff.mp hrun
      rw [chunkFree_some hn] at hrun
      have hlink : cq.next c = n.next := by
        rw [Queue.next, hn]
        rfl
      rw [hlink] at hl
      have hl' : Chain (Queue.next { cq with
          heap := Function.update cq.heap c none, freed := cq.freed ++ [c] }) n.next l :=
        hl.congr fun d hd => next_update_of_ne cq _ fun heq => hc (heq ▸ hd)
      obtain ⟨hfreed, hunused, hheap⟩ := ih hl' hrun
      refine ⟨by rw [hfreed]; simp, hunused, fun d hd => ?_⟩
      rw [List.mem_cons, not_or] at hd
      rw [hheap d hd.2]
      exact Function.update_of_ne hd.1 none cq.heap

/-- **The first loop returns.** -/
theorem freeHeadLoop_returns : ∀ {l : List ChunkPtr} {p : Option ChunkPtr} {cq : Queue},
    Chain cq.next p l → (∀ c ∈ l, cq.heap c ≠ none) →
    ∃ cq', Queue.freeHeadLoop (l.length + 1) p cq = some cq' := by
  intro l
  induction l with
  | nil =>
    intro p cq hchain _
    cases chain_nil.mp hchain
    exact ⟨cq, rfl⟩
  | cons c l ih =>
    intro p cq hchain hlive
    obtain ⟨rfl, hl⟩ := chain_cons.mp hchain
    have hc : c ∉ l := (List.nodup_cons.mp hchain.nodup).1
    have hne : ∀ d ∈ l, d ≠ c := fun d hd heq => hc (heq ▸ hd)
    obtain ⟨n, hn⟩ := Option.ne_none_iff_exists'.mp (hlive c (by simp))
    have hlink : cq.next c = n.next := by
      rw [Queue.next, hn]
      rfl
    rw [hlink] at hl
    obtain ⟨cq', hrun⟩ := @ih n.next
      { cq with heap := Function.update cq.heap c none, freed := cq.freed ++ [c] }
      (hl.congr fun d hd => next_update_of_ne cq _ (hne d hd)) fun d hd => by
        show Function.update cq.heap c none d ≠ none
        rw [Function.update_of_ne (hne d hd)]
        exact hlive d (by simp [hd])
    refine ⟨cq', ?_⟩
    rw [List.length_cons, Queue.freeHeadLoop, hn]
    simp only [Option.bind_eq_bind, Option.bind_some, chunkFree_some hn]
    exact hrun

/-- **The second loop, if it returns**, frees half of its list. -/
theorem freeUnusedLoop_half (fuel : Nat) : ∀ {p : Option ChunkPtr} {cq cq' : Queue}
    {l : List ChunkPtr}, Chain cq.next p l → Queue.freeUnusedLoop fuel p cq = some cq' →
    ∃ freed, cq'.freed = cq.freed ++ freed ∧ 2 * freed.length = l.length := by
  induction fuel with
  | zero =>
    intro p cq cq' l _ hrun
    cases hrun
  | succ fuel ih =>
    intro p cq cq' l hchain hrun
    match l, hchain with
    | [], hchain =>
      cases chain_nil.mp hchain
      cases hrun
      exact ⟨[], by simp, rfl⟩
    | [c], hchain =>
      -- the last chunk is freed, and NULL has no link
      obtain ⟨rfl, hlink⟩ := hchain
      simp only [Queue.freeUnusedLoop] at hrun
      obtain ⟨n, hn, hrun⟩ := Option.bind_eq_some_iff.mp hrun
      rw [Queue.next, hn] at hlink
      rw [chunkFree_some hn] at hrun
      have hnull : n.next = none := hlink
      simp [hnull] at hrun
    | c :: d :: l, hchain =>
      obtain ⟨rfl, hl⟩ := chain_cons.mp hchain
      obtain ⟨hcd, hl'⟩ := chain_cons.mp hl
      have hnodup := List.nodup_cons.mp hchain.nodup
      have hdc : d ≠ c := fun heq => hnodup.1 (by simp [heq])
      simp only [Queue.freeUnusedLoop] at hrun
      obtain ⟨n, hn, hrun⟩ := Option.bind_eq_some_iff.mp hrun
      rw [Queue.next, hn] at hcd
      have hnext : n.next = some d := hcd
      rw [chunkFree_some hn] at hrun
      simp only [hnext, Option.bind_eq_bind, Option.bind_some] at hrun
      obtain ⟨m, hm, hrun⟩ := Option.bind_eq_some_iff.mp hrun
      rw [Function.update_of_ne hdc] at hm
      have hlink : cq.next d = m.next := by
        rw [Queue.next, hm]
        rfl
      rw [hlink] at hl'
      have hchain' : Chain (Queue.next { cq with
          heap := Function.update cq.heap c none, freed := cq.freed ++ [c] }) m.next l :=
        hl'.congr fun e he => next_update_of_ne cq _ fun heq => hnodup.1 (by simp [← heq, he])
      obtain ⟨freed, hfreed, hhalf⟩ := ih hchain' hrun
      refine ⟨c :: freed, by rw [hfreed]; simp, ?_⟩
      simp only [List.length_cons]
      omega

/-- A disposal that is complete leaves nothing on the unused list to be skipped. -/
theorem unused_of_disposed {cq : Queue} {hs us : List ChunkPtr} (h : cq.Holds hs us)
    (hdisposed : cq.DisposedOf hs us) : us = [] := by
  obtain ⟨fuel, cq', l, hfree, hfreed, hperm⟩ := hdisposed
  obtain ⟨cq1, hhead, hunused⟩ := Option.bind_eq_some_iff.mp hfree
  obtain ⟨hfreed1, hsame, hheap⟩ := freeHeadLoop_frees fuel h.head hhead
  have hus : Chain cq1.next cq1.unused us := by
    rw [hsame]
    exact h.unused.congr fun c hc => Queue.next_congr (hheap c fun hc' => h.disjoint hc' hc)
  obtain ⟨half, hfreed2, hhalf⟩ := freeUnusedLoop_half fuel hus hunused
  have hl : l = hs ++ half := by
    rw [hfreed, hfreed1, List.append_assoc] at hfreed2
    exact List.append_cancel_left hfreed2
  have hlength := hperm.length_eq
  rw [hl, List.length_append, List.length_append] at hlength
  exact List.length_eq_zero_iff.mp (by omega)

/-- Without unused chunks the disposal is complete. -/
theorem disposed_of_no_unused {cq : Queue} {hs : List ChunkPtr} (h : cq.Holds hs []) :
    cq.DisposedOf hs [] := by
  obtain ⟨cq1, hhead⟩ := freeHeadLoop_returns h.head fun c hc => h.live c (by simp [hc])
  obtain ⟨hfreed1, hsame, -⟩ := freeHeadLoop_frees _ h.head hhead
  have hnone : cq1.unused = none := hsame.trans (chain_nil.mp h.unused)
  refine ⟨hs.length + 1, cq1, hs, ?_, hfreed1, by simp⟩
  simp [Queue.free, hhead, hnone, Queue.freeUnusedLoop]

/-- **When the disposal is complete**: for every well-formed queue, exactly if the unused list is
empty. -/
theorem disposed_of_iff {cq : Queue} {hs us : List ChunkPtr} (h : cq.Holds hs us) :
    cq.DisposedOf hs us ↔ us = [] := by
  constructor
  · exact unused_of_disposed h
  · rintro rfl
    exact disposed_of_no_unused h

/-- A queue with two chunks on its head list and none unused. -/
def twoChunks : Queue where
  heap := fun c =>
    if c = 1 then some ⟨some bufferNew, 0, some 2⟩
    else if c = 2 then some ⟨some bufferNew, 0, none⟩ else none
  head := some 1
  tail := some 2
  unused := none
  unusedChunks := 0
  freed := []
  made := 2

theorem disposed_of_iff_two : twoChunks.DisposedOf [1, 2] [] ↔ ([] : List ChunkPtr) = [] := by
  refine disposed_of_iff ⟨⟨rfl, rfl, rfl⟩, rfl, List.disjoint_nil_right _, ?_⟩
  intro c hc
  simp only [List.append_nil, List.mem_cons, List.not_mem_nil, or_false] at hc
  rcases hc with rfl | rfl <;> decide

/-- A queue whose one chunk was appended and, after a reset, is unused. -/
def oneUnused : Queue where
  heap := fun c => if c = 1 then some ⟨some bufferNew, 0, none⟩ else none
  head := none
  tail := none
  unused := some 1
  unusedChunks := 1
  freed := []
  made := 1

/-- **A null pointer is read**: the queue with one unused chunk is not disposed of. -/
theorem unused_chunk_breaks_disposal : ¬ oneUnused.DisposedOf [] [1] := by
  intro h
  have hholds : oneUnused.Holds [] [1] :=
    ⟨rfl, ⟨rfl, rfl⟩, List.disjoint_nil_left _, fun c hc => by
      simp only [List.nil_append, List.mem_singleton] at hc
      subst hc
      decide⟩
  exact absurd (unused_of_disposed hholds h) (by decide)

end Donkeyji.MultiProgress
