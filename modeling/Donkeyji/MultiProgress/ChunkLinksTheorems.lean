/-
Donkeyji.MultiProgress.ChunkLinksTheorems — the lists of a chunk queue stay
well formed.

`Queue.Lists cq hs us` says that the head list of `cq` is `hs` and its unused
list `us`: both end, they share no chunk, together they are all the chunks
that are allocated, and `tail` is the last of `hs`. Every call keeps such
lists, and `view`, the queue as its two lists of chunks, follows the model of
`Chunk.lean` (`removeLoop_spec`); so what is proved there of the lists, such
as that a reset leaves none (`chunks_reset`), holds of the objects.
-/
import Donkeyji.Lib.Chain
import Donkeyji.Lib.Runs
import Donkeyji.MultiProgress.ChunkLinks

namespace Donkeyji.MultiProgress

open Memory LinkedList Runs

/-! ## The lists -/

/-- The link of a chunk. -/
def Queue.next (cq : Queue) (c : ChunkPtr) : Option ChunkPtr := (cq.heap c).bind ChunkNode.next

/-- The head list and the unused list of a queue. -/
structure Queue.Lists (cq : Queue) (hs us : List ChunkPtr) : Prop where
  head : Chain cq.next cq.head hs
  unused : Chain cq.next cq.unused us
  disjoint : hs.Disjoint us
  live : ∀ c, cq.heap c ≠ none ↔ c ∈ hs ∨ c ∈ us
  tail : cq.tail = hs.getLast?

/-- The lists are well formed, and the count of unused chunks is right and at most 4. -/
def Queue.WellFormed (cq : Queue) : Prop :=
  ∃ hs us, cq.Lists hs us ∧ cq.unusedChunks = us.length ∧ us.length ≤ 4

/-- What holds of the lists between two calls. -/
structure Queue.Kept (cq : Queue) (hs us : List ChunkPtr) : Prop extends cq.Lists hs us where
  count : cq.unusedChunks = us.length
  cap : us.length ≤ 4
  made : hs.length + us.length ≤ cq.made

theorem queueNew_kept : queueNew.Kept [] [] where
  head := rfl
  unused := rfl
  disjoint := List.disjoint_nil_left []
  live := fun c => by simp [queueNew]
  tail := rfl
  count := rfl
  cap := Nat.zero_le 4
  made := Nat.le_refl 0

/-- A queue has only one pair of lists. -/
theorem Queue.Lists.unique {cq : Queue} {hs us hs' us' : List ChunkPtr} (h : cq.Lists hs us)
    (h' : cq.Lists hs' us') : hs = hs' ∧ us = us' :=
  ⟨h.head.unique h'.head, h.unused.unique h'.unused⟩

theorem Queue.next_congr {cq cq' : Queue} {c : ChunkPtr} (h : cq'.heap c = cq.heap c) :
    cq'.next c = cq.next c := by
  unfold Queue.next
  rw [h]

@[simp] theorem next_set_self (cq : Queue) (c : ChunkPtr) (n : ChunkNode) :
    (cq.set c n).next c = n.next := by
  simp [Queue.next, Queue.set]

theorem next_set_of_ne (cq : Queue) {c d : ChunkPtr} (n : ChunkNode) (h : d ≠ c) :
    (cq.set c n).next d = cq.next d := by
  simp [Queue.next, Queue.set, h]

/-- The chunks of a list that starts at `c` and ends are those of `c`'s link and `c`. -/
theorem Queue.Lists.uncons {cq : Queue} {c : ChunkPtr} {rest us : List ChunkPtr}
    (h : cq.Lists (c :: rest) us) :
    cq.head = some c ∧ Chain cq.next (cq.next c) rest ∧ c ∉ rest ∧ c ∉ us := by
  obtain ⟨hhead, hrest⟩ := chain_cons.mp h.head
  refine ⟨hhead, hrest, (List.nodup_cons.mp h.head.nodup).1, fun hc => ?_⟩
  exact h.disjoint (by simp) hc

/-- Writing chunks without changing their links keeps the lists. -/
theorem Queue.Lists.congr {cq cq' : Queue} {hs us : List ChunkPtr} (h : cq.Lists hs us)
    (hnext : ∀ c, cq'.next c = cq.next c) (hheap : ∀ c, cq'.heap c ≠ none ↔ cq.heap c ≠ none)
    (hhead : cq'.head = cq.head) (hunused : cq'.unused = cq.unused)
    (htail : cq'.tail = cq.tail) : cq'.Lists hs us where
  head := by
    rw [hhead]
    exact h.head.congr fun c _ => hnext c
  unused := by
    rw [hunused]
    exact h.unused.congr fun c _ => hnext c
  disjoint := h.disjoint
  live := fun c => (hheap c).trans (h.live c)
  tail := htail.trans h.tail

/-- A chunk written over with the same link. -/
theorem Queue.Kept.set {cq : Queue} {hs us : List ChunkPtr} (h : cq.Kept hs us) {c : ChunkPtr}
    {n n' : ChunkNode} (hn : cq.heap c = some n) (hnext : n'.next = n.next) :
    (cq.set c n').Kept hs us := by
  refine ⟨h.toLists.congr ?_ ?_ rfl rfl rfl, h.count, h.cap, h.made⟩
  · intro d
    by_cases hd : d = c
    · subst hd
      rw [next_set_self, hnext, Queue.next, hn]
      rfl
    · exact next_set_of_ne cq n' hd
  · intro d
    by_cases hd : d = c
    · subst hd
      simp [Queue.set, hn]
    · simp [Queue.set, hd]

/-! ## The chunks -/

/-- The chunk at an address. -/
def Queue.chunk (cq : Queue) (c : ChunkPtr) : Chunk :=
  match cq.heap c with
  | none => ⟨bufferNew, 0⟩
  | some n => ⟨n.mem.getD bufferNew, n.offset⟩

/-- The queue as its two lists of chunks. -/
def Queue.view (cq : Queue) (hs us : List ChunkPtr) : ChunkQueue :=
  ⟨hs.map cq.chunk, us.map cq.chunk, cq.unusedChunks⟩

theorem chunk_of_heap {cq : Queue} {c : ChunkPtr} {n : ChunkNode} {mem : Buffer}
    (hn : cq.heap c = some n) (hmem : n.mem = some mem) : cq.chunk c = ⟨mem, n.offset⟩ := by
  simp [Queue.chunk, hn, hmem]

theorem chunk_congr {cq cq' : Queue} {c : ChunkPtr} (h : cq'.heap c = cq.heap c) :
    cq'.chunk c = cq.chunk c := by
  unfold Queue.chunk
  rw [h]

/-- A reset that has its block is the one of the lists. -/
theorem bufferResetMem_eq {b b' : Buffer} (h : bufferResetMem b = some b') :
    b' = bufferReset b := by
  obtain ⟨ptr, hptr, h⟩ := Option.bind_eq_some_iff.mp h
  cases h
  by_cases hpos : b.size > 0
  · rw [if_pos hpos] at hptr
    have hbounds := writeAt_bounds hptr
    rw [writeAt_some hbounds.1 hbounds.2] at hptr
    cases hptr
    obtain ⟨x, l, hl⟩ : ∃ x l, b.ptr = x :: l := by
      cases hb : b.ptr with
      | nil => simp [hb] at hbounds
      | cons x l => exact ⟨x, l, rfl⟩
    simp [bufferReset, hpos, hl]
  · rw [if_neg hpos] at hptr
    cases hptr
    simp [bufferReset, hpos]

/-- A block for every buffer that has a size. -/
def Buffer.HasBlock (b : Buffer) : Prop := b.size > 0 → b.ptr ≠ []

theorem bufferResetMem_some {b : Buffer} (h : b.HasBlock) : ∃ b', bufferResetMem b = some b' := by
  by_cases hpos : b.size > 0
  · obtain ⟨ptr, hptr⟩ : ∃ ptr, writeAt b.ptr 0 [0] = some ptr := by
      have hlen := List.length_pos_of_ne_nil (h hpos)
      exact ⟨_, writeAt_some (by omega) (by simp; omega)⟩
    exact ⟨{ b with ptr, used := 0 }, by simp [bufferResetMem, hpos, hptr]⟩
  · exact ⟨{ b with used := 0 }, by simp [bufferResetMem, hpos]⟩

/-! ## A finished chunk -/

/-- What becomes of a finished chunk. -/
theorem recycle_eq {cq : Queue} {c : ChunkPtr} {n : ChunkNode} {mem : Buffer}
    (hn : cq.heap c = some n) (hmem : n.mem = some mem) :
    cq.recycle c = (bufferResetMem mem).map fun mem' =>
      if cq.unusedChunks ≥ 4 then
        { cq with
          heap := Function.update cq.heap c none
          head := n.next
          tail := if cq.tail = some c then none else cq.tail
          freed := cq.freed ++ [c] }
      else
        { cq with
          heap := Function.update cq.heap c (some ⟨some mem', 0, cq.unused⟩)
          head := n.next
          tail := if cq.tail = some c then none else cq.tail
          unused := some c
          unusedChunks := cq.unusedChunks + 1 } := by
  unfold Queue.recycle Queue.chunkReset
  cases hreset : bufferResetMem mem with
  | none => simp [hn, hmem, hreset]
  | some mem' =>
    by_cases hcap : cq.unusedChunks ≥ 4
    · by_cases htail : cq.tail = some c
      · simp [hn, hmem, hreset, hcap, htail, Queue.chunkFree, Queue.set]
      · simp [hn, hmem, hreset, hcap, htail, Queue.chunkFree, Queue.set]
    · by_cases htail : cq.tail = some c
      · simp [hn, hmem, hreset, hcap, htail, Queue.set]
      · simp [hn, hmem, hreset, hcap, htail, Queue.set]

/-- The last of a list without its first chunk. -/
theorem tail_of_rest {c : ChunkPtr} {rest : List ChunkPtr} (hc : c ∉ rest) :
    (if (c :: rest).getLast? = some c then none else (c :: rest).getLast?) = rest.getLast? := by
  cases rest with
  | nil => simp
  | cons d rest =>
    have hne : ¬ (d :: rest).getLast? = some c := fun h => hc (List.mem_of_getLast? h)
    rw [List.getLast?_cons_cons, if_neg hne]

/-- The rest of the head list and the unused list when only the first chunk was written. -/
theorem Queue.Lists.others {cq cq' : Queue} {c : ChunkPtr} {rest us : List ChunkPtr}
    (h : cq.Lists (c :: rest) us) (hother : ∀ d, d ≠ c → cq'.heap d = cq.heap d) :
    Chain cq'.next (cq.next c) rest ∧ Chain cq'.next cq.unused us ∧
      rest.map cq'.chunk = rest.map cq.chunk ∧ us.map cq'.chunk = us.map cq.chunk := by
  obtain ⟨-, hrest, hcrest, hcus⟩ := h.uncons
  have hin : ∀ d ∈ rest, cq'.heap d = cq.heap d := fun d hd => hother d fun heq => hcrest (heq ▸ hd)
  have hun : ∀ d ∈ us, cq'.heap d = cq.heap d := fun d hd => hother d fun heq => hcus (heq ▸ hd)
  refine ⟨?_, ?_, ?_, ?_⟩
  · exact hrest.congr fun d hd => Queue.next_congr (hin d hd)
  · exact h.unused.congr fun d hd => Queue.next_congr (hun d hd)
  · exact List.map_congr_left fun d hd => chunk_congr (hin d hd)
  · exact List.map_congr_left fun d hd => chunk_congr (hun d hd)

/-- **A finished chunk** leaves the head list, and is freed or joins the unused list. -/
theorem recycle_spec {cq cq' : Queue} {c : ChunkPtr} {rest us : List ChunkPtr} {n : ChunkNode}
    {mem : Buffer} (h : cq.Kept (c :: rest) us) (hn : cq.heap c = some n)
    (hmem : n.mem = some mem) (hrec : cq.recycle c = some cq') :
    ∃ us', cq'.Kept rest us' ∧ cq'.view rest us' =
      if cq.unusedChunks ≥ 4 then ⟨rest.map cq.chunk, us.map cq.chunk, cq.unusedChunks⟩
      else ⟨rest.map cq.chunk, chunkReset (cq.chunk c) :: us.map cq.chunk,
        cq.unusedChunks + 1⟩ := by
  obtain ⟨-, -, hcrest, hcus⟩ := h.uncons
  have hlink : cq.next c = n.next := by
    rw [Queue.next, hn]
    rfl
  have hlength := h.made
  rw [List.length_cons] at hlength
  have hcount := h.count
  have htail := tail_of_rest hcrest
  rw [← h.tail] at htail
  have hdisj := List.disjoint_cons_left.mp h.disjoint
  rw [recycle_eq hn hmem] at hrec
  obtain ⟨mem', hreset, hrec⟩ := Option.map_eq_some_iff.mp hrec
  by_cases hcap : cq.unusedChunks ≥ 4
  · rw [if_pos hcap] at hrec ⊢
    have hother : ∀ d, d ≠ c → cq'.heap d = cq.heap d := by
      subst hrec
      exact fun d hd => Function.update_of_ne hd none cq.heap
    obtain ⟨hrest, hus, hmapRest, hmapUs⟩ := h.toLists.others hother
    rw [hlink] at hrest
    subst hrec
    refine ⟨us, ⟨⟨hrest, hus, hdisj.2, ?_, htail⟩, hcount, h.cap, by dsimp only; omega⟩, ?_⟩
    · intro d
      by_cases hd : d = c
      · subst hd
        simp [hcrest, hcus]
      · rw [hother d hd, h.live d]
        simp [hd]
    · unfold Queue.view
      rw [hmapRest, hmapUs]
  · rw [if_neg hcap] at hrec ⊢
    have hother : ∀ d, d ≠ c → cq'.heap d = cq.heap d := by
      subst hrec
      exact fun d hd => Function.update_of_ne hd _ cq.heap
    have hself : cq'.heap c = some ⟨some mem', 0, cq.unused⟩ := by
      subst hrec
      exact Function.update_self ..
    obtain ⟨hrest, hus, hmapRest, hmapUs⟩ := h.toLists.others hother
    rw [hlink] at hrest
    have hfirst : cq'.next c = cq.unused := by
      rw [Queue.next, hself]
      rfl
    rw [← hfirst] at hus
    have hchunk : cq'.chunk c = chunkReset (cq.chunk c) := by
      rw [chunk_of_heap hself rfl, chunk_of_heap hn hmem, chunkReset, ← bufferResetMem_eq hreset]
    subst hrec
    refine ⟨c :: us, ⟨⟨hrest, ⟨rfl, hus⟩, List.disjoint_cons_right.mpr ⟨hcrest, hdisj.2⟩, ?_,
      htail⟩, ?_, ?_, ?_⟩, ?_⟩
    · intro d
      by_cases hd : d = c
      · subst hd
        simp
      · rw [hother d hd, h.live d]
        simp [hd]
    · simp [hcount]
    · simp only [List.length_cons]
      omega
    · simp only [List.length_cons]
      omega
    · unfold Queue.view
      rw [List.map_cons, hmapRest, hmapUs, hchunk]

/-! ## The loops -/

/-- **The loop of `chunkqueue_remove_finished_chunks`** keeps the lists, takes from the front of
the head list only, and does to the chunks what the model of the lists does. -/
theorem removeLoop_spec (fuel : Nat) : ∀ {fin : Bool} {cq cq' : Queue} {hs us : List ChunkPtr},
    cq.Kept hs us → Queue.removeLoop fuel fin cq = some cq' → ∃ hs' us', cq'.Kept hs' us' ∧
      hs' <:+ hs ∧ cq'.view hs' us' =
        removeFinishedLoop fin (hs.map cq.chunk) (us.map cq.chunk) cq.unusedChunks := by
  induction fuel with
  | zero =>
    intro fin cq cq' hs us _ hrun
    cases hrun
  | succ fuel ih =>
    intro fin cq cq' hs us h hrun
    cases hs with
    | nil =>
      have hhead : cq.head = none := chain_nil.mp h.head
      simp only [Queue.removeLoop, hhead, Option.some.injEq] at hrun
      subst hrun
      exact ⟨[], us, h, List.suffix_rfl, rfl⟩
    | cons c rest =>
      have hhead := h.uncons.1
      simp only [Queue.removeLoop, hhead] at hrun
      obtain ⟨n, hn, hrun⟩ := Option.bind_eq_some_iff.mp hrun
      obtain ⟨mem, hmem, hrun⟩ := Option.bind_eq_some_iff.mp hrun
      have hchunk := chunk_of_heap hn hmem
      by_cases hfin : (fin || Chunk.finished ⟨mem, n.offset⟩) = true
      · simp only [hfin, if_true] at hrun
        obtain ⟨cq1, hrec, hrun⟩ := Option.bind_eq_some_iff.mp hrun
        obtain ⟨us1, hkept, hview⟩ := recycle_spec h hn hmem hrec
        obtain ⟨hs', us', hkept', hsuffix, hview'⟩ := ih hkept hrun
        refine ⟨hs', us', hkept', hsuffix.trans (List.suffix_cons c rest), ?_⟩
        rw [hview', List.map_cons, removeFinishedLoop, hchunk, hfin, if_pos rfl]
        by_cases hcap : cq.unusedChunks ≥ 4
        · rw [if_pos hcap] at hview ⊢
          obtain ⟨hrest, hus, hcount⟩ := ChunkQueue.mk.inj hview
          rw [hrest, hus, hcount]
        · rw [if_neg hcap, hchunk] at hview
          rw [if_neg hcap]
          obtain ⟨hrest, hus, hcount⟩ := ChunkQueue.mk.inj hview
          rw [hrest, hus, hcount]
      · simp only [hfin] at hrun
        cases hrun
        refine ⟨c :: rest, us, h, List.suffix_rfl, ?_⟩
        rw [List.map_cons, removeFinishedLoop, hchunk, if_neg hfin]
        simp [Queue.view, hchunk]

/-- `chunkqueue_remove_finished_chunks` on the objects is the one on the lists. -/
theorem removeFinishedChunks_spec {cq cq' : Queue} {hs us : List ChunkPtr} (h : cq.Kept hs us)
    (hrun : cq.removeFinishedChunks = some cq') : ∃ hs' us', cq'.Kept hs' us' ∧ hs' <:+ hs ∧
      cq'.view hs' us' = chunkqueueRemoveFinishedChunks (cq.view hs us) :=
  removeLoop_spec (cq.made + 1) h hrun

/-- A chunk that is read to its last byte. -/
def Chunk.toLast (c : Chunk) : Chunk := { c with offset := c.mem.used - 1 }

/-- **The loop of `chunkqueue_reset`** keeps the lists and moves the offset of each chunk it
passes. -/
theorem resetLoop_spec (fuel : Nat) : ∀ {p : Option ChunkPtr} {cq cq' : Queue}
    {l hs us : List ChunkPtr}, Chain cq.next p l → cq.Kept hs us →
    Queue.resetLoop fuel p cq = some cq' → cq'.Kept hs us ∧ cq'.made = cq.made ∧
      cq'.unusedChunks = cq.unusedChunks ∧
      ∀ c, cq'.chunk c = if c ∈ l then (cq.chunk c).toLast else cq.chunk c := by
  induction fuel with
  | zero =>
    intro p cq cq' l hs us _ _ hrun
    cases hrun
  | succ fuel ih =>
    intro p cq cq' l hs us hchain h hrun
    cases l with
    | nil =>
      cases chain_nil.mp hchain
      cases hrun
      exact ⟨h, rfl, rfl, fun c => by simp⟩
    | cons d l =>
      obtain ⟨rfl, hl⟩ := chain_cons.mp hchain
      have hnotin : d ∉ l := (List.nodup_cons.mp hchain.nodup).1
      simp only [Queue.resetLoop] at hrun
      obtain ⟨n, hn, hrun⟩ := Option.bind_eq_some_iff.mp hrun
      obtain ⟨mem, hmem, hrun⟩ := Option.bind_eq_some_iff.mp hrun
      have hlink : cq.next d = n.next := by
        rw [Queue.next, hn]
        rfl
      have hkept : (cq.set d { n with offset := mem.used - 1 }).Kept hs us := h.set hn rfl
      rw [hlink] at hl
      have hchain' : Chain (cq.set d { n with offset := mem.used - 1 }).next n.next l :=
        hl.congr fun c hc => next_set_of_ne cq _ fun heq => hnotin (heq ▸ hc)
      obtain ⟨hkept', hmade, hcount, hchunks⟩ := ih hchain' hkept hrun
      refine ⟨hkept', hmade, hcount, fun c => ?_⟩
      rw [hchunks c]
      by_cases hc : c = d
      · subst hc
        have hself : (cq.set c { n with offset := mem.used - 1 }).heap c =
            some { n with offset := mem.used - 1 } := Function.update_self ..
        simp [hnotin, chunk_of_heap hn hmem, chunk_of_heap hself hmem, Chunk.toLast]
      · have hother : (cq.set d { n with offset := mem.used - 1 }).chunk c = cq.chunk c :=
          chunk_congr (Function.update_of_ne hc _ cq.heap)
        simp [hother, hc]

/-- **`chunkqueue_reset`** on the objects is the one on the lists, so it leaves no chunk on the
head list. -/
theorem reset_spec {cq cq' : Queue} {hs us : List ChunkPtr} (h : cq.Kept hs us)
    (hrun : cq.reset = some cq') : ∃ us', cq'.Kept [] us' ∧
      cq'.view [] us' = chunkqueueReset (cq.view hs us) := by
  obtain ⟨cq1, hloop, hrun⟩ := Option.bind_eq_some_iff.mp hrun
  obtain ⟨hkept, -, hcount, hchunks⟩ := resetLoop_spec _ h.head h hloop
  obtain ⟨hs', us', hkept', -, hview⟩ := removeFinishedChunks_spec hkept hrun
  have hsame : chunkqueueRemoveFinishedChunks (cq1.view hs us) =
      chunkqueueReset (cq.view hs us) := by
    unfold chunkqueueReset
    congr 1
    unfold Queue.view
    rw [hcount, List.map_map]
    congr 1
    · exact List.map_congr_left fun c hc => by simp [hchunks c, hc, Chunk.toLast]
    · refine List.map_congr_left fun c hc => ?_
      have hnot : c ∉ hs := fun hc' => h.disjoint hc' hc
      simp [hchunks c, hnot]
  rw [hsame] at hview
  have hempty : (cq'.view hs' us').chunks = [] := by rw [hview, chunks_reset]
  cases List.map_eq_nil_iff.mp hempty
  exact ⟨us', hkept', hview⟩

/-! ## Appending -/

/-- The lists of a queue, and a chunk beside them that links to nothing. -/
structure Queue.Beside (cq : Queue) (c : ChunkPtr) (hs us : List ChunkPtr) : Prop where
  head : Chain cq.next cq.head hs
  unused : Chain cq.next cq.unused us
  disjoint : hs.Disjoint us
  notHead : c ∉ hs
  notUnused : c ∉ us
  link : cq.next c = none
  live : ∀ d, cq.heap d ≠ none ↔ d = c ∨ d ∈ hs ∨ d ∈ us
  tail : cq.tail = hs.getLast?
  count : cq.unusedChunks = us.length
  cap : us.length ≤ 4
  made : hs.length + us.length < cq.made

/-- A new chunk stands beside the lists. -/
theorem chunkNew_spec {cq : Queue} {hs us : List ChunkPtr} (h : cq.Kept hs us) {c : ChunkPtr}
    (hc : cq.heap c = none) (buf : Bool) :
    ∃ cq', cq.chunkNew (some c) buf = (some c, cq') ∧ cq'.Beside c hs us := by
  have hnot : c ∉ hs ∧ c ∉ us := by
    have hlive := (h.live c).not
    simp only [ne_eq, hc, not_true_eq_false, not_false_eq_true, true_iff, not_or] at hlive
    exact hlive
  have hmade := h.made
  refine ⟨_, rfl, ?_⟩
  generalize (if buf = true then some bufferNew else none) = mem
  refine ⟨?_, ?_, h.disjoint, hnot.1, hnot.2, next_set_self cq c _, ?_, h.tail, h.count, h.cap,
    by show hs.length + us.length < cq.made + 1; omega⟩
  · exact h.head.congr fun d hd => next_set_of_ne cq _ fun heq => hnot.1 (heq ▸ hd)
  · exact h.unused.congr fun d hd => next_set_of_ne cq _ fun heq => hnot.2 (heq ▸ hd)
  · intro d
    by_cases hd : d = c
    · subst hd
      simp [Queue.set]
    · show Function.update cq.heap c _ d ≠ none ↔ _
      rw [Function.update_of_ne hd, h.live d]
      simp [hd]

/-- The first unused chunk, taken off its list, stands beside the lists. -/
theorem takeUnused_spec {cq : Queue} {hs us : List ChunkPtr} {c : ChunkPtr}
    (h : cq.Kept hs (c :: us)) (malloc : Option ChunkPtr) (buf : Bool) :
    ∃ cq', cq.getUnusedChunk malloc buf = some (some c, cq') ∧ cq'.Beside c hs us := by
  obtain ⟨hunused, hus⟩ := chain_cons.mp h.unused
  have hcus : c ∉ us := (List.nodup_cons.mp h.unused.nodup).1
  have hchs : c ∉ hs := fun hc => h.disjoint hc (by simp)
  obtain ⟨n, hn⟩ := Option.ne_none_iff_exists'.mp ((h.live c).mpr (by simp))
  have hlink : cq.next c = n.next := by
    rw [Queue.next, hn]
    rfl
  have hcount := h.count
  have hcap := h.cap
  have hmade := h.made
  rw [List.length_cons] at hcount hcap hmade
  rw [hlink] at hus
  refine ⟨_, by simp only [Queue.getUnusedChunk, hunused, hn]; rfl, ?_⟩
  refine ⟨?_, ?_, (List.disjoint_cons_right.mp h.disjoint).2, hchs, hcus,
    next_set_self { cq with unused := n.next } c _, ?_, h.tail, ?_, by omega,
    by show hs.length + us.length < cq.made; omega⟩
  · exact h.head.congr fun d hd =>
      next_set_of_ne { cq with unused := n.next } _ fun heq => hchs (heq ▸ hd)
  · exact hus.congr fun d hd =>
      next_set_of_ne { cq with unused := n.next } _ fun heq => hcus (heq ▸ hd)
  · intro d
    by_cases hd : d = c
    · subst hd
      simp [Queue.set]
    · show Function.update cq.heap c _ d ≠ none ↔ _
      rw [Function.update_of_ne hd, h.live d]
      simp [hd]
  · show (toU64 (cq.unusedChunks - 1)).toNat = us.length
    rw [toU64_of_bounds (by omega) (by omega)]
    omega

/-- **`chunkqueue_append_chunk`** puts the chunk at the end of the head list. -/
theorem appendChunk_spec {cq : Queue} {hs us : List ChunkPtr} {c : ChunkPtr}
    (h : cq.Beside c hs us) :
    ∃ cq', cq.appendChunk c = some cq' ∧ cq'.Kept (hs ++ [c]) us := by
  have hlive := h.live
  have hmade := h.made
  rcases List.eq_nil_or_concat' hs with rfl | ⟨l, t, rfl⟩
  · have hhead : cq.head = none := chain_nil.mp h.head
    have htail : cq.tail = none := h.tail
    refine ⟨{ cq with tail := some c, head := some c },
      by simp [Queue.appendChunk, htail, hhead], ⟨⟨⟨rfl, h.link⟩, h.unused, ?_, ?_, rfl⟩,
      h.count, h.cap, ?_⟩⟩
    · simpa using h.notUnused
    · intro d
      simpa using hlive d
    · simp only [List.nil_append, List.length_singleton, List.length_nil] at hmade ⊢
      omega
  · -- the old last chunk links to the new one
    have hnodup := h.head.nodup
    have htl : t ∉ l := by
      intro ht
      exact (List.nodup_append.mp hnodup).2.2 t ht t (by simp) rfl
    have htc : t ≠ c := fun heq => h.notHead (by simp [← heq])
    have htus : t ∉ us := fun ht => h.disjoint (by simp) ht
    have htail : cq.tail = some t := by simp [h.tail]
    obtain ⟨n, hn⟩ := Option.ne_none_iff_exists'.mp ((hlive t).mpr (by simp))
    obtain ⟨x, hseg, hx⟩ := chain_append.mp h.head
    obtain ⟨rfl, -⟩ := chain_cons.mp hx
    have hhead : cq.head ≠ none := by
      intro hnone
      rw [hnone] at hseg
      cases l with
      | nil => cases hseg
      | cons a l => cases hseg.1
    have hother : ∀ d, d ≠ t → (cq.set t { n with next := some c }).next d = cq.next d :=
      fun d hd => next_set_of_ne cq _ hd
    refine ⟨{ cq.set t { n with next := some c } with tail := some c }, ?_,
      ⟨⟨?_, ?_, ?_, ?_, ?_⟩, h.count, h.cap, ?_⟩⟩
    · have hset : (cq.set t { n with next := some c }).head ≠ none := hhead
      simp [Queue.appendChunk, htail, hn, hset]
    · refine chain_append.mpr ⟨some c, ?_, rfl, ?_⟩
      · refine seg_append.mpr ⟨some t, ?_, rfl, next_set_self cq t _⟩
        exact hseg.congr fun d hd => hother d fun heq => htl (heq ▸ hd)
      · exact (hother c (Ne.symm htc)).trans h.link
    · exact h.unused.congr fun d hd => hother d fun heq => htus (heq ▸ hd)
    · rw [List.disjoint_append_left]
      exact ⟨h.disjoint, by simpa using h.notUnused⟩
    · intro d
      have hd := hlive d
      simp only [List.mem_append, List.mem_singleton] at hd ⊢
      by_cases hdt : d = t
      · subst hdt
        simp [Queue.set]
      · show Function.update cq.heap t _ d ≠ none ↔ _
        rw [Function.update_of_ne hdt, hd]
        tauto
    · simp
    · show (l ++ [t] ++ [c]).length + us.length ≤ cq.made
      simp only [List.length_append, List.length_singleton] at hmade ⊢
      omega

/-- **`chunkqueue_get_append_chunk`** puts the chunk that it returns at the end of the head
list. -/
theorem getAppendChunk_spec {cq : Queue} {hs us : List ChunkPtr} (h : cq.Kept hs us)
    (malloc : Option ChunkPtr) (buf : Bool) (hfresh : ∀ c ∈ malloc, cq.heap c = none) :
    ∃ r cq' us', cq.getAppendChunk malloc buf = some (r, cq') ∧ cq'.Kept (hs ++ r.toList) us' := by
  cases us with
  | nil =>
    have hunused : cq.unused = none := chain_nil.mp h.unused
    cases malloc with
    | none =>
      refine ⟨none, cq, [], ?_, by simpa using h⟩
      simp [Queue.getAppendChunk, Queue.getUnusedChunk, Queue.chunkNew, hunused]
    | some c =>
      obtain ⟨cq1, hnew, hbeside⟩ := chunkNew_spec h (hfresh c rfl) buf
      obtain ⟨cq2, happ, hkept⟩ := appendChunk_spec hbeside
      refine ⟨some c, cq2, [], ?_, hkept⟩
      simp [Queue.getAppendChunk, Queue.getUnusedChunk, hunused, hnew, happ]
  | cons c us =>
    obtain ⟨cq1, htake, hbeside⟩ := takeUnused_spec h malloc buf
    obtain ⟨cq2, happ, hkept⟩ := appendChunk_spec hbeside
    refine ⟨some c, cq2, us, ?_, hkept⟩
    simp [Queue.getAppendChunk, htake, happ]

/-! ## No access goes wrong -/

/-- Every chunk has its buffer, and the buffer its block. -/
def Queue.Healthy (cq : Queue) : Prop :=
  ∀ c n, cq.heap c = some n → ∃ mem, n.mem = some mem ∧ mem.HasBlock

theorem Queue.Healthy.set {cq : Queue} (h : cq.Healthy) (c : ChunkPtr) {n : ChunkNode}
    {mem : Buffer} (hmem : n.mem = some mem) (hblock : mem.HasBlock) : (cq.set c n).Healthy := by
  intro d n' hn'
  by_cases hd : d = c
  · subst hd
    simp only [Queue.set, Function.update_self, Option.some.injEq] at hn'
    subst hn'
    exact ⟨mem, hmem, hblock⟩
  · simp only [Queue.set, Function.update_of_ne hd] at hn'
    exact h d n' hn'

theorem bufferResetMem_hasBlock {b b' : Buffer} (h : b.HasBlock)
    (hreset : bufferResetMem b = some b') : b'.HasBlock := by
  rw [bufferResetMem_eq hreset]
  intro hpos
  have hne := h hpos
  simp only [bufferReset]
  split <;> simp [hne]

/-- A finished chunk is dealt with. -/
theorem recycle_returns {cq : Queue} {c : ChunkPtr} {n : ChunkNode} (h : cq.Healthy)
    (hn : cq.heap c = some n) : ∃ cq', cq.recycle c = some cq' ∧ cq'.Healthy := by
  obtain ⟨mem, hmem, hblock⟩ := h c n hn
  obtain ⟨mem', hreset⟩ := bufferResetMem_some hblock
  rw [recycle_eq hn hmem, hreset, Option.map_some]
  refine ⟨_, rfl, ?_⟩
  have hblock' := bufferResetMem_hasBlock hblock hreset
  by_cases hcap : cq.unusedChunks ≥ 4
  · rw [if_pos hcap]
    intro d n' hn'
    by_cases hd : d = c
    · subst hd
      simp at hn'
    · exact h d n' (by simpa [Function.update_of_ne hd] using hn')
  · rw [if_neg hcap]
    exact h.set c (n := ⟨some mem', 0, cq.unused⟩) rfl hblock'

theorem removeLoop_returns (fuel : Nat) : ∀ {fin : Bool} {cq : Queue} {hs us : List ChunkPtr},
    cq.Kept hs us → cq.Healthy → hs.length < fuel →
    ∃ cq', Queue.removeLoop fuel fin cq = some cq' ∧ cq'.Healthy := by
  induction fuel with
  | zero =>
    intro fin cq hs us _ _ hlt
    omega
  | succ fuel ih =>
    intro fin cq hs us h hhealthy hlt
    cases hs with
    | nil => exact ⟨cq, by simp [Queue.removeLoop, chain_nil.mp h.head], hhealthy⟩
    | cons c rest =>
      obtain ⟨n, hn⟩ := Option.ne_none_iff_exists'.mp ((h.live c).mpr (by simp))
      obtain ⟨mem, hmem, -⟩ := hhealthy c n hn
      rw [List.length_cons] at hlt
      by_cases hfin : (fin || Chunk.finished ⟨mem, n.offset⟩) = true
      · obtain ⟨cq1, hrec, hhealthy1⟩ := recycle_returns hhealthy hn
        obtain ⟨us1, hkept, -⟩ := recycle_spec h hn hmem hrec
        obtain ⟨cq', hrun, hhealthy'⟩ := @ih true cq1 rest us1 hkept hhealthy1 (by omega)
        refine ⟨cq', ?_, hhealthy'⟩
        simp only [Queue.removeLoop, h.uncons.1, hn, hmem, hfin, hrec, hrun,
          Option.bind_eq_bind, Option.bind_some, if_true]
      · refine ⟨cq, ?_, hhealthy⟩
        simp only [Queue.removeLoop, h.uncons.1, hn, hmem, Option.bind_eq_bind, Option.bind_some]
        rw [if_neg hfin]
        rfl

theorem resetLoop_returns (fuel : Nat) : ∀ {p : Option ChunkPtr} {cq : Queue}
    {l : List ChunkPtr}, Chain cq.next p l → (∀ c ∈ l, cq.heap c ≠ none) → cq.Healthy →
    l.length < fuel → ∃ cq', Queue.resetLoop fuel p cq = some cq' ∧ cq'.Healthy := by
  induction fuel with
  | zero =>
    intro p cq l _ _ _ hlt
    omega
  | succ fuel ih =>
    intro p cq l hchain hlive h hlt
    cases l with
    | nil =>
      cases chain_nil.mp hchain
      exact ⟨cq, rfl, h⟩
    | cons d l =>
      obtain ⟨rfl, hl⟩ := chain_cons.mp hchain
      have hnotin : d ∉ l := (List.nodup_cons.mp hchain.nodup).1
      obtain ⟨n, hn⟩ := Option.ne_none_iff_exists'.mp (hlive d (by simp))
      obtain ⟨mem, hmem, hblock⟩ := h d n hn
      have hlink : cq.next d = n.next := by
        rw [Queue.next, hn]
        rfl
      rw [List.length_cons] at hlt
      rw [hlink] at hl
      have hne : ∀ c ∈ l, c ≠ d := fun c hc heq => hnotin (heq ▸ hc)
      have hchain' : Chain (cq.set d { n with offset := mem.used - 1 }).next n.next l :=
        hl.congr fun c hc => next_set_of_ne cq _ (hne c hc)
      have hlive' : ∀ c ∈ l, (cq.set d { n with offset := mem.used - 1 }).heap c ≠ none := by
        intro c hc
        show Function.update cq.heap d _ c ≠ none
        rw [Function.update_of_ne (hne c hc)]
        exact hlive c (by simp [hc])
      have hset : (cq.set d { n with offset := mem.used - 1 }).Healthy := h.set d hmem hblock
      obtain ⟨cq', hrun, h'⟩ := ih hchain' hlive' hset (by omega)
      simp only [hmem] at hrun
      exact ⟨cq', by simp [Queue.resetLoop, hn, hmem, hrun], h'⟩

theorem chunkNew_healthy {cq : Queue} (h : cq.Healthy) (malloc : Option ChunkPtr) :
    (cq.chunkNew malloc true).2.Healthy := by
  cases malloc with
  | none => exact h
  | some c => exact h.set c (n := ⟨some bufferNew, 0, none⟩) rfl fun hpos => absurd hpos (by decide)

theorem appendChunk_healthy {cq cq' : Queue} {c : ChunkPtr} (h : cq.Healthy)
    (hrun : cq.appendChunk c = some cq') : cq'.Healthy := by
  obtain ⟨cq1, htail, hrun⟩ := Option.bind_eq_some_iff.mp hrun
  have h1 : cq1.Healthy := by
    cases ht : cq.tail with
    | none =>
      simp only [ht, Option.some.injEq] at htail
      exact htail ▸ h
    | some t =>
      simp only [ht] at htail
      obtain ⟨n, hn, htail⟩ := Option.bind_eq_some_iff.mp htail
      obtain ⟨mem, hmem, hblock⟩ := h t n hn
      cases htail
      exact h.set t hmem hblock
  by_cases hhead : cq1.head = none
  · simp [hhead] at hrun
    exact hrun ▸ h1
  · simp [hhead] at hrun
    exact hrun ▸ h1

theorem getAppendChunk_healthy {cq cq' : Queue} {r malloc : Option ChunkPtr} (h : cq.Healthy)
    (hrun : cq.getAppendChunk malloc true = some (r, cq')) : cq'.Healthy := by
  obtain ⟨⟨c, cq1⟩, hget, hrun⟩ := Option.bind_eq_some_iff.mp hrun
  have h1 : cq1.Healthy := by
    cases hunused : cq.unused with
    | none =>
      simp only [Queue.getUnusedChunk, hunused, Option.some.injEq] at hget
      have hnew := chunkNew_healthy h malloc
      rw [hget] at hnew
      exact hnew
    | some d =>
      simp only [Queue.getUnusedChunk, hunused] at hget
      obtain ⟨n, hn, hget⟩ := Option.bind_eq_some_iff.mp hget
      obtain ⟨mem, hmem, hblock⟩ := h d n hn
      cases hget
      exact h.set d (n := { n with next := none }) hmem hblock
  cases c with
  | none =>
    cases hrun
    exact h1
  | some c =>
    obtain ⟨cq2, happ, hrun⟩ := Option.bind_eq_some_iff.mp hrun
    cases hrun
    exact appendChunk_healthy h1 happ

/-! ## Runs -/

/-- What a call that returns `r` makes of the head list: a chunk is appended, chunks in front are
removed, all are removed, or none is touched. -/
def HeadAfter (hs : List ChunkPtr) (r : Option ChunkPtr) (hs' : List ChunkPtr) : QueueCall → Prop
  | .getAppendChunk _ _ => hs' = hs ++ r.toList
  | .removeFinishedChunks => hs' <:+ hs
  | .reset => hs' = []
  | .change _ _ _ => hs' = hs

/-- A call keeps the order of the head list, and a reset empties it. -/
def KeepsOrder (cq : Queue) (c : QueueCall) : Prop :=
  ∀ r cq' hs us hs' us', queueCall cq c = some (r, cq') → cq.Lists hs us → cq'.Lists hs' us' →
    HeadAfter hs r hs' c

/-- The allocations of a call succeed, and a buffer that is changed has its block. -/
def Supplied : QueueCall → Prop
  | .getAppendChunk _ buf => buf = true
  | .change _ mem _ => mem.HasBlock
  | _ => True

/-- **One call** keeps the lists, and the order of the head list. -/
theorem queueCall_spec {cq cq' : Queue} {hs us : List ChunkPtr} {c : QueueCall}
    {r : Option ChunkPtr} (h : cq.Kept hs us) (hadm : Admits cq c)
    (hcall : queueCall cq c = some (r, cq')) : ∃ hs' us', cq'.Kept hs' us' ∧ HeadAfter hs r hs' c := by
  cases c with
  | getAppendChunk malloc buf =>
    obtain ⟨r1, cq1, us1, hrun, hkept⟩ := getAppendChunk_spec h malloc buf hadm
    cases hrun.symm.trans hcall
    exact ⟨_, us1, hkept, rfl⟩
  | removeFinishedChunks =>
    obtain ⟨cq1, hrun, hcall⟩ := Option.bind_eq_some_iff.mp hcall
    cases hcall
    obtain ⟨hs', us', hkept, hsuffix, -⟩ := removeFinishedChunks_spec h hrun
    exact ⟨hs', us', hkept, hsuffix⟩
  | reset =>
    obtain ⟨cq1, hrun, hcall⟩ := Option.bind_eq_some_iff.mp hcall
    cases hcall
    obtain ⟨us', hkept, -⟩ := reset_spec h hrun
    exact ⟨[], us', hkept, rfl⟩
  | change d mem offset =>
    obtain ⟨n, hn, hcall⟩ := Option.bind_eq_some_iff.mp hcall
    obtain ⟨old, -, hcall⟩ := Option.bind_eq_some_iff.mp hcall
    cases hcall
    exact ⟨hs, us, h.set hn rfl, rfl⟩

/-- **One call returns**, if its allocations succeed. -/
theorem queueCall_returns {cq : Queue} {hs us : List ChunkPtr} {c : QueueCall}
    (h : cq.Kept hs us) (hhealthy : cq.Healthy) (hadm : Admits cq c) (hsup : Supplied c) :
    ∃ r cq', queueCall cq c = some (r, cq') ∧ cq'.Healthy := by
  have hmade := h.made
  cases c with
  | getAppendChunk malloc buf =>
    obtain rfl : buf = true := hsup
    obtain ⟨r, cq', us', hrun, -⟩ := getAppendChunk_spec h malloc true hadm
    exact ⟨r, cq', hrun, getAppendChunk_healthy hhealthy hrun⟩
  | removeFinishedChunks =>
    obtain ⟨cq', hrun, hhealthy'⟩ :=
      @removeLoop_returns (cq.made + 1) false cq hs us h hhealthy (by omega)
    exact ⟨none, cq', by simp [queueCall, Queue.removeFinishedChunks, hrun], hhealthy'⟩
  | reset =>
    obtain ⟨cq1, hloop, hhealthy1⟩ := resetLoop_returns (cq.made + 1) h.head
      (fun c hc => (h.live c).mpr (Or.inl hc)) hhealthy (by omega)
    obtain ⟨hkept, hsame, -, -⟩ := resetLoop_spec _ h.head h hloop
    obtain ⟨cq', hrun, hhealthy'⟩ :=
      @removeLoop_returns (cq1.made + 1) false cq1 hs us hkept hhealthy1 (by omega)
    exact ⟨none, cq', by simp [queueCall, Queue.reset, Queue.removeFinishedChunks, hloop, hrun],
      hhealthy'⟩
  | change d mem offset =>
    obtain ⟨n, hn⟩ := Option.isSome_iff_exists.mp hadm
    obtain ⟨old, hold, -⟩ := hhealthy d n hn
    refine ⟨none, _, ?_, hhealthy.set d (n := { n with mem := some mem, offset }) rfl hsup⟩
    simp only [queueCall, hn, hold, Option.bind_eq_bind, Option.bind_some]
    rfl

/-- **The lists of a chunk queue stay well formed.** In every run of calls and changes of the
chunks, from `chunkqueue_new`, they are well formed in every state, every call keeps the order of
the head list and a reset empties it, and no access goes wrong if the buffers are allocated. -/
theorem chunk_lists_kept (cs : List QueueCall) (hadm : AllSteps queueStep Admits queueNew cs) :
    AllStates queueStep Queue.WellFormed queueNew cs ∧
      AllSteps queueStep KeepsOrder queueNew cs ∧
      ((∀ c ∈ cs, Supplied c) → ∃ cq, run queueStep queueNew cs = some cq) := by
  have hstep : ∀ cq c cq', (∃ hs us, cq.Kept hs us) → Admits cq c → queueStep cq c = some cq' →
      ∃ hs us, cq'.Kept hs us := by
    rintro cq c cq' ⟨hs, us, h⟩ hadm hstep
    obtain ⟨⟨r, cq1⟩, hcall, rfl⟩ := Option.map_eq_some_iff.mp hstep
    obtain ⟨hs', us', hkept, -⟩ := queueCall_spec h hadm hcall
    exact ⟨hs', us', hkept⟩
  have hkept : AllStates queueStep (fun cq => ∃ hs us, cq.Kept hs us) queueNew cs :=
    allStates_of_allSteps hstep ⟨[], [], queueNew_kept⟩ hadm
  refine ⟨?_, ?_, ?_⟩
  · refine hkept.mono ?_
    rintro cq ⟨hs, us, h⟩
    exact ⟨hs, us, h.toLists, h.count, h.cap⟩
  · have hstates : AllSteps queueStep (fun cq _ => ∃ hs us, cq.Kept hs us) queueNew cs :=
      allSteps_of_allStates hkept fun cq _ h => h
    refine (hstates.and hadm).mono ?_
    rintro cq c ⟨⟨hs1, us1, h⟩, hadm⟩ r cq' hs us hs' us' hcall hlists hlists'
    obtain ⟨hs2, us2, hkept', horder⟩ := queueCall_spec h hadm hcall
    obtain ⟨rfl, rfl⟩ := hlists.unique h.toLists
    obtain ⟨rfl, rfl⟩ := hlists'.unique hkept'.toLists
    exact horder
  · intro hsup
    have hgood : AllSteps queueStep (fun cq c => Admits cq c ∧ Supplied c) queueNew cs :=
      hadm.and (allSteps_of_forall hsup queueNew)
    have hnew : queueNew.Healthy := fun c n hn => by cases hn
    have hgo : ∀ (cq : Queue) c, ((∃ hs us, cq.Kept hs us) ∧ cq.Healthy) →
        (Admits cq c ∧ Supplied c) →
        ∃ cq', queueStep cq c = some cq' ∧ (∃ hs us, cq'.Kept hs us) ∧ cq'.Healthy := by
      rintro cq c ⟨⟨hs, us, h⟩, hhealthy⟩ ⟨hadm, hsup⟩
      obtain ⟨r, cq', hcall, hhealthy'⟩ := queueCall_returns h hhealthy hadm hsup
      have hrun : queueStep cq c = some cq' := by simp [queueStep, hcall]
      exact ⟨cq', hrun, hstep cq c cq' ⟨hs, us, h⟩ hadm hrun, hhealthy'⟩
    obtain ⟨cq, hrun, -⟩ := run_of_allSteps hgo ⟨⟨[], [], queueNew_kept⟩, hnew⟩ hgood
    exact ⟨cq, hrun⟩

/-- Two chunks are appended, one of them is read, and both are removed. -/
theorem chunk_lists_kept_two :
    AllStates queueStep Queue.WellFormed queueNew
        [.getAppendChunk (some 7) true, .getAppendChunk (some 9) true,
          .change 7 ⟨[65, 0], 2, 1⟩ 0, .removeFinishedChunks, .reset] ∧
      AllSteps queueStep KeepsOrder queueNew
        [.getAppendChunk (some 7) true, .getAppendChunk (some 9) true,
          .change 7 ⟨[65, 0], 2, 1⟩ 0, .removeFinishedChunks, .reset] ∧
      ((∀ c ∈ [QueueCall.getAppendChunk (some 7) true, .getAppendChunk (some 9) true,
          .change 7 ⟨[65, 0], 2, 1⟩ 0, .removeFinishedChunks, .reset], Supplied c) →
        ∃ cq, run queueStep queueNew
          [.getAppendChunk (some 7) true, .getAppendChunk (some 9) true,
            .change 7 ⟨[65, 0], 2, 1⟩ 0, .removeFinishedChunks, .reset] = some cq) :=
  chunk_lists_kept _ (by decide +kernel)

end Donkeyji.MultiProgress
