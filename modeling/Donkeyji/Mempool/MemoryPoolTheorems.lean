/-
Donkeyji.Mempool.MemoryPoolTheorems — the invariant of the memory pool and
what one operation does to it.

`Inv` is what holds in every reachable state: blocks do not overlap, the links
from `_pBlock` pass owned blocks only, every block's chain of free units is
`_free` different units in range that nobody holds, and every live pointer is
a unit of an owned block. It says nothing about blocks that no link leads to,
because `freeMem` can lose a block.

Each operation has a lemma that lists all it can do (`allocMem_cases`,
`freeMem_cases`), and each of these outcomes a lemma that it keeps `Inv`.
-/
import Donkeyji.Mempool.MemoryPool

namespace Donkeyji.Mempool

open Memory LinkedList

/-! ## Memory -/

/-- A `ushort` that was written is read back. -/
theorem readUshort_writeUshort (mem : Mem) (a : Nat) {n : Nat} (h : n < 65536) :
    readUshort (writeUshort mem a n) a = n := by
  have hread : readUshort (writeUshort mem a n) a = leNat (leBytes 2 n) := by
    simp [readUshort, writeUshort, leBytes]
  rw [hread]
  exact leNat_leBytes_of_lt h

/-- A write changes two bytes. -/
theorem writeUshort_of_ne (mem : Mem) {a x : Nat} (n : Nat) (h : x ≠ a) (h1 : x ≠ a + 1) :
    writeUshort mem a n x = mem x := by
  rw [writeUshort, Function.update_of_ne h1, Function.update_of_ne h]

/-- Two memories that agree on both bytes of a `ushort` agree on it. -/
theorem readUshort_congr {mem mem' : Mem} {a : Nat} (h : mem a = mem' a)
    (h1 : mem (a + 1) = mem' (a + 1)) : readUshort mem a = readUshort mem' a := by
  rw [readUshort, readUshort, h, h1]

/-- The constructor writes only to the units it numbers. -/
theorem linkUnits_of_notMem (u : Nat) (hu : 2 ≤ u) (todo i : Nat) (pData x : Nat) (mem : Mem)
    (hx : x < pData ∨ pData + todo * u ≤ x) : linkUnits u todo i pData mem x = mem x := by
  induction todo generalizing i pData mem with
  | zero => rfl
  | succ todo ih =>
    rw [Nat.add_mul, Nat.one_mul] at hx
    rw [linkUnits, ih (i + 1) (pData + u) _ (by omega), writeUshort_of_ne _ _ (by omega) (by omega)]

/-- The `k`-th unit gets the number `i + k`. -/
theorem readUshort_linkUnits (u : Nat) (hu : 2 ≤ u) (todo i k : Nat) (pData : Nat) (mem : Mem)
    (hk : k < todo) (hi : i + k < 65536) :
    readUshort (linkUnits u todo i pData mem) (pData + k * u) = i + k := by
  induction todo generalizing i k pData mem with
  | zero => omega
  | succ todo ih =>
    rw [linkUnits]
    cases k with
    | zero =>
      have hkeep : readUshort (linkUnits u todo (i + 1) (pData + u) (writeUshort mem pData i))
          pData = readUshort (writeUshort mem pData i) pData :=
        readUshort_congr
          (linkUnits_of_notMem u hu todo (i + 1) (pData + u) pData _ (.inl (by omega)))
          (linkUnits_of_notMem u hu todo (i + 1) (pData + u) (pData + 1) _ (.inl (by omega)))
      rw [Nat.zero_mul, Nat.add_zero pData, Nat.add_zero i, hkeep]
      exact readUshort_writeUshort _ _ (by omega)
    | succ k =>
      have haddr : pData + (k + 1) * u = pData + u + k * u := by ring
      rw [haddr, ih (i + 1) k (pData + u) _ (by omega) (by omega)]
      omega

/-! ## Chains of free units -/

/-- A chain depends only on the links of its units. -/
theorem iterate_congr {f g : Nat → Nat} {n : Nat} : ∀ {a : Nat},
    (∀ i ∈ List.iterate f a n, g i = f i) → List.iterate g a n = List.iterate f a n := by
  induction n with
  | zero => intro a _; rfl
  | succ n ih =>
    intro a h
    have ha : g a = f a := h a (by simp [List.iterate])
    rw [List.iterate, List.iterate, ha, ih fun i hi => h i (by simp [List.iterate, hi])]

/-- Links that count up make a range. -/
theorem iterate_eq_range' {f : Nat → Nat} (n : Nat) : ∀ {a : Nat},
    (∀ k, a ≤ k → k + 1 < a + n → f k = k + 1) → List.iterate f a n = List.range' a n := by
  induction n with
  | zero => intro a _; rfl
  | succ n ih =>
    intro a h
    rw [List.iterate, List.range'_succ]
    cases n with
    | zero => rfl
    | succ n => rw [h a (le_refl a) (by omega), ih fun k h1 h2 => h k (by omega) (by omega)]

/-- A chain of all units of a block has every unit. -/
theorem mem_of_nodup_of_length {l : List Nat} {n : Nat} (hnd : l.Nodup) (hlt : ∀ i ∈ l, i < n)
    (hlen : n ≤ l.length) {i : Nat} (hi : i < n) : i ∈ l := by
  have hsub : l.toFinset ⊆ Finset.range n := fun x hx =>
    Finset.mem_range.mpr (hlt x (List.mem_toFinset.mp hx))
  have hcard : (Finset.range n).card ≤ l.toFinset.card := by
    rw [Finset.card_range, List.toFinset_card_of_nodup hnd]
    exact hlen
  rw [← List.mem_toFinset, Finset.eq_of_subset_of_card_le hsub hcard]
  exact Finset.mem_range.mpr hi

/-! ## The invariant -/

/-- What holds of a pool in every reachable state. -/
structure Inv (s : PoolState) : Prop where
  unit_two : 2 ≤ s.pool.unitSize
  init_pos : 1 ≤ s.pool.initSize
  init_le : s.pool.initSize * s.pool.unitSize ≤ 65535
  grow_le : s.pool.growSize * s.pool.unitSize ≤ 65535
  /-- The links pass owned blocks and come to an end. -/
  chain : ∃ l, Chain s.heap.next s.pool.pBlock l ∧ ∀ b ∈ l, b ∈ s.heap.owned
  nodup : s.heap.owned.Nodup
  disjoint : ∀ b ∈ s.heap.owned, ∀ c ∈ s.heap.owned, b ≠ c →
    b + sizeofMemBlock + (s.heap.block b).size ≤ c ∨
      c + sizeofMemBlock + (s.heap.block c).size ≤ b
  size : ∀ b ∈ s.heap.owned, 1 ≤ s.units b ∧
    (s.heap.block b).size = s.units b * s.pool.unitSize ∧ (s.heap.block b).size ≤ 65535
  free_nodup : ∀ b ∈ s.heap.owned, (s.freeList b).Nodup
  free_lt : ∀ b ∈ s.heap.owned, ∀ i ∈ s.freeList b, i < s.units b
  free_not_live : ∀ b ∈ s.heap.owned, ∀ i ∈ s.freeList b,
    unitAddr s.pool.unitSize b i ∉ s.live
  live_unit : ∀ p ∈ s.live, ∃ b ∈ s.heap.owned, ∃ i, i < s.units b ∧
    p = unitAddr s.pool.unitSize b i
  live_nodup : s.live.Nodup

namespace Inv

variable {s : PoolState}

/-- The empty pool. -/
theorem init {pool : MemPool} (mem : Mem) (hnull : pool.pBlock = none) (h2 : 2 ≤ pool.unitSize)
    (hpos : 1 ≤ pool.initSize) (hinit : pool.initSize * pool.unitSize ≤ 65535)
    (hgrow : pool.growSize * pool.unitSize ≤ 65535) : Inv (PoolState.init pool mem) where
  unit_two := h2
  init_pos := hpos
  init_le := hinit
  grow_le := hgrow
  chain := ⟨[], hnull, fun _ hb => absurd hb List.not_mem_nil⟩
  nodup := List.nodup_nil
  disjoint _ hb := absurd hb List.not_mem_nil
  size _ hb := absurd hb List.not_mem_nil
  free_nodup _ hb := absurd hb List.not_mem_nil
  free_lt _ hb := absurd hb List.not_mem_nil
  free_not_live _ hb := absurd hb List.not_mem_nil
  live_unit _ hp := absurd hp List.not_mem_nil
  live_nodup := List.nodup_nil

/-- A unit lies in the data of its block. -/
theorem unit_bounds (h : Inv s) {b : Nat} (hb : b ∈ s.heap.owned) {i : Nat}
    (hi : i < s.units b) : data b ≤ unitAddr s.pool.unitSize b i ∧
      unitAddr s.pool.unitSize b i + s.pool.unitSize ≤ data b + (s.heap.block b).size := by
  obtain ⟨-, hsize, -⟩ := h.size b hb
  have hmul : (i + 1) * s.pool.unitSize ≤ s.units b * s.pool.unitSize :=
    Nat.mul_le_mul_right _ hi
  rw [Nat.add_mul, Nat.one_mul] at hmul
  unfold unitAddr
  omega

/-- Units of different blocks do not overlap. -/
theorem unit_disjoint (h : Inv s) {b c : Nat} (hb : b ∈ s.heap.owned) (hc : c ∈ s.heap.owned)
    (hbc : b ≠ c) {i j : Nat} (hi : i < s.units b) (hj : j < s.units c) :
    unitAddr s.pool.unitSize b i + s.pool.unitSize ≤ unitAddr s.pool.unitSize c j ∨
      unitAddr s.pool.unitSize c j + s.pool.unitSize ≤ unitAddr s.pool.unitSize b i := by
  have h1 := h.unit_bounds hb hi
  have h2 := h.unit_bounds hc hj
  have h3 := h.disjoint b hb c hc hbc
  unfold data at h1 h2
  unfold sizeofMemBlock at h3
  omega

/-- Different units of one block do not overlap. -/
theorem unit_disjoint_same {u b i j : Nat} (hij : i ≠ j) :
    unitAddr u b i + u ≤ unitAddr u b j ∨ unitAddr u b j + u ≤ unitAddr u b i := by
  unfold unitAddr
  rcases Nat.lt_or_gt_of_ne hij with hlt | hlt
  · have := Nat.mul_le_mul_right u hlt
    rw [Nat.succ_mul] at this
    omega
  · have := Nat.mul_le_mul_right u hlt
    rw [Nat.succ_mul] at this
    omega

/-- A unit address says which unit of which block it is. -/
theorem unit_inj (h : Inv s) {b c : Nat} (hb : b ∈ s.heap.owned) (hc : c ∈ s.heap.owned)
    {i j : Nat} (hi : i < s.units b) (hj : j < s.units c)
    (heq : unitAddr s.pool.unitSize b i = unitAddr s.pool.unitSize c j) : b = c ∧ i = j := by
  have h2 := h.unit_two
  have hbc : b = c := by
    by_contra hne
    have := h.unit_disjoint hb hc hne hi hj
    omega
  refine ⟨hbc, ?_⟩
  by_contra hne
  rw [hbc] at heq
  have := unit_disjoint_same (u := s.pool.unitSize) (b := c) hne
  omega

/-- A free unit is not inside a live one. -/
theorem free_outside_live (h : Inv s) {b : Nat} (hb : b ∈ s.heap.owned) {i : Nat}
    (hi : i ∈ s.freeList b) {p : Nat} (hp : p ∈ s.live) :
    unitAddr s.pool.unitSize b i + s.pool.unitSize ≤ p ∨
      p + s.pool.unitSize ≤ unitAddr s.pool.unitSize b i := by
  obtain ⟨c, hc, j, hj, rfl⟩ := h.live_unit p hp
  by_cases hbc : b = c
  · subst hbc
    refine unit_disjoint_same fun hij => ?_
    exact h.free_not_live b hb i hi (hij ▸ hp)
  · exact h.unit_disjoint hb hc hbc (h.free_lt b hb i hi) hj

/-- The memory of the free chains is all that the invariant needs of the memory. -/
theorem of_links (h : Inv s) {mem : Mem}
    (hmem : ∀ b ∈ s.heap.owned, ∀ i ∈ s.freeList b,
      readUshort mem (unitAddr s.pool.unitSize b i) = s.link b i) :
    Inv { s with heap := { s.heap with mem := mem } } := by
  have hlist : ∀ b ∈ s.heap.owned,
      PoolState.freeList { s with heap := { s.heap with mem := mem } } b = s.freeList b :=
    fun b hb => iterate_congr fun i hi => hmem b hb i hi
  exact { h with
    free_nodup := fun b hb => by rw [hlist b hb]; exact h.free_nodup b hb
    free_lt := fun b hb => by rw [hlist b hb]; exact h.free_lt b hb
    free_not_live := fun b hb => by rw [hlist b hb]; exact h.free_not_live b hb }

/-- A write that the environment is allowed does not touch the links of free units. -/
theorem link_write (h : Inv s) {a : Nat} {byte : UInt8} (hadm : Admits s (.write a byte))
    {b : Nat} (hb : b ∈ s.heap.owned) {i : Nat} (hi : i ∈ s.freeList b) :
    readUshort (Function.update s.heap.mem a byte) (unitAddr s.pool.unitSize b i) =
      s.link b i := by
  have h2 := h.unit_two
  have hunit := h.unit_bounds hb (h.free_lt b hb i hi)
  have hne : unitAddr s.pool.unitSize b i ≠ a ∧ unitAddr s.pool.unitSize b i + 1 ≠ a := by
    rcases hadm with ⟨p, hp, h3, h4⟩ | hfresh
    · have := h.free_outside_live hb hi hp
      omega
    · have := hfresh b hb
      unfold data at hunit
      unfold sizeofMemBlock at this
      omega
  exact readUshort_congr (Function.update_of_ne hne.1 _ _) (Function.update_of_ne hne.2 _ _)

/-- A write that the environment is allowed keeps the invariant. -/
theorem write (h : Inv s) {a : Nat} {byte : UInt8} (hadm : Admits s (.write a byte)) :
    Inv { s with heap := { s.heap with mem := Function.update s.heap.mem a byte } } :=
  h.of_links fun _ hb _ hi => h.link_write hadm hb hi

end Inv

/-! ## Allocation -/

/-- The state after `allocMem` made a new block of `n` units at `a`. -/
def PoolState.addBlock (s : PoolState) (a n : Nat) : PoolState where
  pool := { s.pool with pBlock := some a }
  heap := newMemBlock s.heap a n s.pool.unitSize s.pool.pBlock
  live := data a :: s.live

/-- The state after `allocMem` took the first free unit of the block `b`. -/
def PoolState.takeUnit (s : PoolState) (b : Nat) : PoolState where
  pool := s.pool
  heap := s.heap.setBlock b { s.heap.block b with
    first := s.link b (s.heap.block b).first, free := (s.heap.block b).free - 1 }
  live := unitAddr s.pool.unitSize b (s.heap.block b).first :: s.live

/-- The search of `allocMem` finds a block with a free unit, or there is none. -/
theorem findFree_spec (h : Heap) : ∀ {l : List Nat} {p : Option Nat} {fuel : Nat},
    Chain h.next p l → (∀ b ∈ l, b ∈ h.owned) → l.length ≤ fuel →
    (∃ b ∈ l, findFree h fuel p = some (some b) ∧ (h.block b).free ≠ 0) ∨
      findFree h fuel p = some none
  | [], p, fuel, hl, _, _ => by
      rw [chain_nil.mp hl]
      right
      cases fuel <;> rfl
  | b :: l, p, 0, _, _, hfuel => by simp at hfuel
  | b :: l, p, fuel + 1, hl, hown, hfuel => by
      obtain ⟨rfl, hrest⟩ := chain_cons.mp hl
      have hderef : h.deref b = some (h.block b) := if_pos (hown b (by simp))
      rw [findFree, hderef]
      by_cases hfree : (h.block b).free = 0
      · have hih := findFree_spec h hrest (fun c hc => hown c (by simp [hc]))
          (Nat.le_of_succ_le_succ hfuel)
        simp only [hfree, if_true]
        rcases hih with ⟨c, hc, hfind, hne⟩ | hnone
        · exact .inl ⟨c, by simp [hc], hfind, hne⟩
        · exact .inr hnone
      · simp only [hfree, if_false]
        exact .inl ⟨b, by simp, rfl, hfree⟩

/-- A chain of owned blocks is not longer than the list of owned blocks. -/
theorem length_chain_le {h : Heap} {p : Option Nat} {l : List Nat} (hl : Chain h.next p l)
    (hown : ∀ b ∈ l, b ∈ h.owned) : l.length ≤ h.owned.length :=
  (List.subperm_of_subset hl.nodup hown).length_le

/-- **What `allocMem` can do**: make a block, take a free unit, or return `NULL`. -/
theorem allocMem_cases {s : PoolState} (hinv : Inv s) (newAt : Nat) :
    (∃ n, n = (if s.pool.pBlock = none then s.pool.initSize else s.pool.growSize) ∧ 1 ≤ n ∧
      n * s.pool.unitSize ≤ 65535 ∧ allocMem s.pool s.heap newAt =
        some (some (data newAt), (s.addBlock newAt n).pool, (s.addBlock newAt n).heap)) ∨
    (∃ b, s.Reachable b ∧ b ∈ s.heap.owned ∧ (s.heap.block b).free ≠ 0 ∧
      allocMem s.pool s.heap newAt =
        some (some (unitAddr s.pool.unitSize b (s.heap.block b).first), (s.takeUnit b).pool,
          (s.takeUnit b).heap)) ∨
    allocMem s.pool s.heap newAt = some (none, s.pool, s.heap) := by
  obtain ⟨l, hl, hown⟩ := hinv.chain
  unfold allocMem
  cases hblock : s.pool.pBlock with
  | none =>
    left
    exact ⟨s.pool.initSize, by simp, hinv.init_pos, hinv.init_le, by
      simp [PoolState.addBlock, hblock]⟩
  | some head =>
    rw [hblock] at hl
    rcases findFree_spec s.heap hl hown (length_chain_le hl hown) with
      ⟨b, hb, hfind, hfree⟩ | hfind
    · right; left
      have hderef : s.heap.deref b = some (s.heap.block b) := if_pos (hown b hb)
      refine ⟨b, ?_, hown b hb, hfree, ?_⟩
      · rw [PoolState.Reachable, hblock]
        exact hl.reach_iff.mpr hb
      · simp only [hfind, hderef]
        rfl
    · simp only [hfind]
      by_cases hgrow : s.pool.growSize = 0
      · right; right
        rw [if_pos hgrow]
      · left
        refine ⟨s.pool.growSize, by simp, Nat.one_le_iff_ne_zero.mpr hgrow, hinv.grow_le, ?_⟩
        rw [if_neg hgrow]
        simp [PoolState.addBlock, hblock]

section AddBlock

variable {s : PoolState} {a n : Nat}

/-- A new block is none of the old ones. -/
theorem notMem_of_fresh (hfresh : Fresh s a (sizeofMemBlock + n)) : a ∉ s.heap.owned := by
  intro hmem
  have := hfresh a hmem
  unfold sizeofMemBlock at this
  omega

/-- Units of old blocks lie outside a new block. -/
theorem unit_outside (hinv : Inv s) (hfresh : Fresh s a (sizeofMemBlock + n)) {b i : Nat}
    (hb : b ∈ s.heap.owned) (hi : i < s.units b) :
    unitAddr s.pool.unitSize b i + s.pool.unitSize ≤ a ∨
      data a + n ≤ unitAddr s.pool.unitSize b i := by
  have hunit := hinv.unit_bounds hb hi
  have hout := hfresh b hb
  unfold sizeofMemBlock at hout
  unfold data at hunit ⊢
  omega

theorem addBlock_block_of_ne {b : Nat} (hb : b ≠ a) :
    (s.addBlock a n).heap.block b = s.heap.block b := Function.update_of_ne hb _ _

theorem addBlock_units_of_ne {b : Nat} (hb : b ≠ a) : (s.addBlock a n).units b = s.units b := by
  unfold PoolState.units
  rw [addBlock_block_of_ne hb]
  rfl

theorem addBlock_size_self (hn : n * s.pool.unitSize ≤ 65535) :
    ((s.addBlock a n).heap.block a).size = n * s.pool.unitSize := by
  simp only [PoolState.addBlock, newMemBlock, Function.update_self]
  exact Nat.mod_eq_of_lt (by omega)

theorem addBlock_units_self (hinv : Inv s) (hn : n * s.pool.unitSize ≤ 65535) :
    (s.addBlock a n).units a = n := by
  have h2 := hinv.unit_two
  unfold PoolState.units
  rw [addBlock_size_self hn]
  exact Nat.mul_div_cancel n (by show 0 < s.pool.unitSize; omega)

/-- The new block writes nothing into old free units. -/
theorem addBlock_freeList_of_ne (hinv : Inv s)
    (hfresh : Fresh s a (sizeofMemBlock + n * s.pool.unitSize)) {b : Nat}
    (hb : b ∈ s.heap.owned) : (s.addBlock a n).freeList b = s.freeList b := by
  have hne : b ≠ a := fun h => notMem_of_fresh hfresh (h ▸ hb)
  unfold PoolState.freeList
  rw [addBlock_block_of_ne hne]
  refine iterate_congr fun i hi => ?_
  have h2 := hinv.unit_two
  have hout := unit_outside hinv hfresh hb (hinv.free_lt b hb i hi)
  have hmul : (n - 1) * s.pool.unitSize ≤ n * s.pool.unitSize :=
    Nat.mul_le_mul_right _ (Nat.sub_le n 1)
  have hkeep : ∀ x, x = unitAddr s.pool.unitSize b i ∨ x = unitAddr s.pool.unitSize b i + 1 →
      (s.addBlock a n).heap.mem x = s.heap.mem x := by
    intro x hx
    refine linkUnits_of_notMem _ h2 _ _ _ _ _ ?_
    unfold data at hout ⊢
    omega
  exact readUshort_congr (hkeep _ (.inl rfl)) (hkeep _ (.inr rfl))

/-- All units of the new block but the first are free, in order. -/
theorem addBlock_freeList_self (hinv : Inv s) (hn1 : 1 ≤ n) (hn : n * s.pool.unitSize ≤ 65535) :
    (s.addBlock a n).freeList a = List.range' 1 (n - 1) := by
  have h2 := hinv.unit_two
  have hle : n ≤ 65535 := le_trans (Nat.le_mul_of_pos_right n (by omega)) hn
  have hfree : ((s.addBlock a n).heap.block a).free = n - 1 := by
    simp only [PoolState.addBlock, newMemBlock, Function.update_self]
    omega
  have hfirst : ((s.addBlock a n).heap.block a).first = 1 := by
    simp only [PoolState.addBlock, newMemBlock, Function.update_self]
  unfold PoolState.freeList
  rw [hfree, hfirst]
  refine iterate_eq_range' (n - 1) fun k h1 hk => ?_
  have hread := readUshort_linkUnits s.pool.unitSize h2 (n - 1) 1 k (data a) s.heap.mem (by omega)
    (by omega)
  rw [Nat.add_comm k 1]
  exact hread

/-- A new block keeps the invariant. -/
theorem Inv.addBlock (hinv : Inv s) (hn1 : 1 ≤ n) (hn : n * s.pool.unitSize ≤ 65535)
    (hfresh : Fresh s a (sizeofMemBlock + n * s.pool.unitSize)) : Inv (s.addBlock a n) := by
  have hnew := notMem_of_fresh hfresh
  have hne : ∀ b ∈ s.heap.owned, b ≠ a := fun b hb h => hnew (h ▸ hb)
  have hunits := addBlock_units_self (a := a) hinv hn
  have hlist := addBlock_freeList_self (a := a) hinv hn1 hn
  obtain ⟨l, hl, hown⟩ := hinv.chain
  have hlast := hinv.unit_two
  have hblock : 0 < n * s.pool.unitSize := Nat.mul_pos hn1 (by omega)
  -- a live pointer lies in an old block
  have hlive : data a ∉ s.live := by
    intro hmem
    obtain ⟨b, hb, i, hi, heq⟩ := hinv.live_unit _ hmem
    have hout := unit_outside hinv hfresh hb hi
    unfold data at heq hout
    omega
  exact {
    unit_two := hinv.unit_two
    init_pos := hinv.init_pos
    init_le := hinv.init_le
    grow_le := hinv.grow_le
    chain := by
      refine ⟨a :: l, ⟨rfl, ?_⟩, fun b hb => ?_⟩
      · have hnext : (s.addBlock a n).heap.next a = s.pool.pBlock := by
          simp [Heap.next, PoolState.addBlock, newMemBlock]
        rw [hnext]
        refine hl.congr fun b hb => ?_
        simp only [Heap.next]
        rw [addBlock_block_of_ne (hne b (hown b hb))]
      · rcases List.mem_cons.mp hb with rfl | hb
        · exact List.mem_cons_self
        · exact List.mem_cons_of_mem _ (hown b hb)
    nodup := List.nodup_cons.mpr ⟨hnew, hinv.nodup⟩
    disjoint := by
      intro b hb c hc hbc
      rcases List.mem_cons.mp hb with rfl | hb'
      · rcases List.mem_cons.mp hc with rfl | hc'
        · exact absurd rfl hbc
        · rw [addBlock_size_self hn, addBlock_block_of_ne (hne c hc')]
          have := hfresh c hc'
          omega
      · rcases List.mem_cons.mp hc with rfl | hc'
        · rw [addBlock_size_self hn, addBlock_block_of_ne (hne b hb')]
          have := hfresh b hb'
          omega
        · rw [addBlock_block_of_ne (hne b hb'), addBlock_block_of_ne (hne c hc')]
          exact hinv.disjoint b hb' c hc' hbc
    size := by
      intro b hb
      rcases List.mem_cons.mp hb with rfl | hb
      · rw [hunits, addBlock_size_self hn]
        exact ⟨hn1, rfl, hn⟩
      · rw [addBlock_units_of_ne (hne b hb), addBlock_block_of_ne (hne b hb)]
        exact hinv.size b hb
    free_nodup := by
      intro b hb
      rcases List.mem_cons.mp hb with rfl | hb
      · rw [hlist]
        exact List.nodup_range'
      · rw [addBlock_freeList_of_ne hinv hfresh hb]
        exact hinv.free_nodup b hb
    free_lt := by
      intro b hb i hi
      rcases List.mem_cons.mp hb with rfl | hb
      · rw [hlist, List.mem_range'_1] at hi
        rw [hunits]
        omega
      · rw [addBlock_freeList_of_ne hinv hfresh hb] at hi
        rw [addBlock_units_of_ne (hne b hb)]
        exact hinv.free_lt b hb i hi
    free_not_live := by
      intro b hb i hi hmem
      rcases List.mem_cons.mp hb with rfl | hb
      · rw [hlist, List.mem_range'_1] at hi
        have hpos : 0 < i * s.pool.unitSize := Nat.mul_pos hi.1 (by omega)
        have hlt : (i + 1) * s.pool.unitSize ≤ n * s.pool.unitSize :=
          Nat.mul_le_mul_right _ (by omega)
        rw [Nat.add_mul, Nat.one_mul] at hlt
        rcases List.mem_cons.mp hmem with heq | hmem
        · change data b + i * s.pool.unitSize = data b at heq
          omega
        · obtain ⟨c, hc, j, hj, heq⟩ := hinv.live_unit _ hmem
          have hout := unit_outside hinv hfresh hc hj
          rw [← heq] at hout
          change data b + i * s.pool.unitSize + _ ≤ b ∨ _ ≤ data b + i * s.pool.unitSize at hout
          unfold data at hout
          omega
      · rw [addBlock_freeList_of_ne hinv hfresh hb] at hi
        rcases List.mem_cons.mp hmem with heq | hmem
        · have hout := unit_outside hinv hfresh hb (hinv.free_lt b hb i hi)
          rw [show unitAddr s.pool.unitSize b i = data a from heq] at hout
          unfold data at hout
          omega
        · exact hinv.free_not_live b hb i hi hmem
    live_unit := by
      intro p hp
      rcases List.mem_cons.mp hp with rfl | hp
      · exact ⟨a, List.mem_cons_self, 0, by rw [hunits]; omega, by simp [unitAddr]⟩
      · obtain ⟨b, hb, i, hi, rfl⟩ := hinv.live_unit p hp
        refine ⟨b, List.mem_cons_of_mem _ hb, i, ?_, rfl⟩
        rw [addBlock_units_of_ne (hne b hb)]
        exact hi
    live_nodup := List.nodup_cons.mpr ⟨hlive, hinv.live_nodup⟩ }

end AddBlock

section TakeUnit

variable {s : PoolState} {b : Nat}

theorem takeUnit_block_of_ne {c : Nat} (hc : c ≠ b) :
    (s.takeUnit b).heap.block c = s.heap.block c := Function.update_of_ne hc _ _

/-- Headers change only in the free chain. -/
theorem takeUnit_size (c : Nat) : ((s.takeUnit b).heap.block c).size = (s.heap.block c).size ∧
    ((s.takeUnit b).heap.block c).next = (s.heap.block c).next := by
  by_cases hc : c = b
  · subst hc
    simp [PoolState.takeUnit, Heap.setBlock]
  · rw [takeUnit_block_of_ne hc]
    exact ⟨rfl, rfl⟩

theorem takeUnit_units (c : Nat) : (s.takeUnit b).units c = s.units c := by
  unfold PoolState.units
  rw [(takeUnit_size c).1]
  rfl

theorem takeUnit_freeList_of_ne {c : Nat} (hc : c ≠ b) :
    (s.takeUnit b).freeList c = s.freeList c := by
  unfold PoolState.freeList
  rw [takeUnit_block_of_ne hc]
  rfl

/-- The unit that is taken is the first of the free chain. -/
theorem freeList_takeUnit (hfree : (s.heap.block b).free ≠ 0) :
    s.freeList b = (s.heap.block b).first :: (s.takeUnit b).freeList b := by
  obtain ⟨k, hk⟩ := Nat.exists_eq_succ_of_ne_zero hfree
  have hnew : (s.takeUnit b).freeList b = List.iterate (s.link b)
      (s.link b (s.heap.block b).first) ((s.heap.block b).free - 1) := by
    simp only [PoolState.freeList, PoolState.takeUnit, Heap.setBlock, Function.update_self]
    rfl
  rw [hnew, hk]
  unfold PoolState.freeList
  rw [hk]
  rfl

/-- Taking a free unit keeps the invariant. -/
theorem Inv.takeUnit (hinv : Inv s) (hb : b ∈ s.heap.owned) (hfree : (s.heap.block b).free ≠ 0) :
    Inv (s.takeUnit b) := by
  have hlist := freeList_takeUnit hfree
  have hnd := hinv.free_nodup b hb
  rw [hlist, List.nodup_cons] at hnd
  have hfirst : (s.heap.block b).first ∈ s.freeList b := by
    rw [hlist]
    exact List.mem_cons_self
  have hsub : ∀ c, ∀ i ∈ (s.takeUnit b).freeList c, i ∈ s.freeList c := by
    intro c i hi
    by_cases hc : c = b
    · subst hc
      rw [hlist]
      exact List.mem_cons_of_mem _ hi
    · rw [takeUnit_freeList_of_ne hc] at hi
      exact hi
  obtain ⟨l, hl, hown⟩ := hinv.chain
  exact {
    unit_two := hinv.unit_two
    init_pos := hinv.init_pos
    init_le := hinv.init_le
    grow_le := hinv.grow_le
    chain := ⟨l, hl.congr fun c _ => (takeUnit_size c).2, hown⟩
    nodup := hinv.nodup
    disjoint := fun c hc d hd hcd => by
      rw [(takeUnit_size c).1, (takeUnit_size d).1]
      exact hinv.disjoint c hc d hd hcd
    size := fun c hc => by
      rw [(takeUnit_size c).1, takeUnit_units]
      exact hinv.size c hc
    free_nodup := by
      intro c hc
      by_cases hcb : c = b
      · subst hcb
        exact hnd.2
      · rw [takeUnit_freeList_of_ne hcb]
        exact hinv.free_nodup c hc
    free_lt := fun c hc i hi => by
      rw [takeUnit_units]
      exact hinv.free_lt c hc i (hsub c i hi)
    free_not_live := by
      intro c hc i hi hmem
      rcases List.mem_cons.mp hmem with heq | hmem
      · obtain ⟨rfl, rfl⟩ := hinv.unit_inj hc hb (hinv.free_lt c hc i (hsub c i hi))
          (hinv.free_lt b hb _ hfirst) heq
        exact hnd.1 hi
      · exact hinv.free_not_live c hc i (hsub c i hi) hmem
    live_unit := by
      intro p hp
      rcases List.mem_cons.mp hp with rfl | hp
      · exact ⟨b, hb, _, by rw [takeUnit_units]; exact hinv.free_lt b hb _ hfirst, rfl⟩
      · obtain ⟨c, hc, i, hi, rfl⟩ := hinv.live_unit p hp
        exact ⟨c, hc, i, by rw [takeUnit_units]; exact hi, rfl⟩
    live_nodup := List.nodup_cons.mpr ⟨hinv.free_not_live b hb _ hfirst, hinv.live_nodup⟩ }

end TakeUnit

/-! ## Release -/

/-- The state after `freeMem` put the unit `i` of the block `b` back, before it changes
any link between blocks. -/
def PoolState.freeUnit (s : PoolState) (b i : Nat) : PoolState where
  pool := s.pool
  heap := { s.heap.setBlock b { s.heap.block b with
              free := (s.heap.block b).free + 1, first := i } with
            mem := writeUshort s.heap.mem (unitAddr s.pool.unitSize b i) (s.heap.block b).first }
  live := s.live.erase (unitAddr s.pool.unitSize b i)

section FreeUnit

variable {s : PoolState} {b i : Nat}

theorem freeUnit_block_of_ne {c : Nat} (hc : c ≠ b) :
    (s.freeUnit b i).heap.block c = s.heap.block c := Function.update_of_ne hc _ _

/-- Headers change only in the free chain. -/
theorem freeUnit_size (c : Nat) : ((s.freeUnit b i).heap.block c).size = (s.heap.block c).size ∧
    ((s.freeUnit b i).heap.block c).next = (s.heap.block c).next := by
  by_cases hc : c = b
  · subst hc
    simp [PoolState.freeUnit, Heap.setBlock]
  · rw [freeUnit_block_of_ne hc]
    exact ⟨rfl, rfl⟩

theorem freeUnit_units (c : Nat) : (s.freeUnit b i).units c = s.units c := by
  unfold PoolState.units
  rw [(freeUnit_size c).1]
  rfl

/-- A block with a live unit has a unit that is not free. -/
theorem Inv.free_lt_units (hinv : Inv s) (hb : b ∈ s.heap.owned) (hi : i < s.units b)
    (hlive : unitAddr s.pool.unitSize b i ∈ s.live) :
    (s.heap.block b).free < s.units b := by
  by_contra hge
  have hlen : s.units b ≤ (s.freeList b).length := by
    unfold PoolState.freeList
    rw [List.length_iterate]
    omega
  exact hinv.free_not_live b hb i
    (mem_of_nodup_of_length (hinv.free_nodup b hb) (hinv.free_lt b hb) hlen hi) hlive

/-- Links outside the unit that is freed stay. -/
theorem freeUnit_link_of_ne (hinv : Inv s) (hb : b ∈ s.heap.owned) (hi : i < s.units b)
    {c j : Nat} (hc : c ∈ s.heap.owned) (hj : j < s.units c) (hne : c ≠ b ∨ j ≠ i) :
    (s.freeUnit b i).link c j = s.link c j := by
  have h2 := hinv.unit_two
  have hdis : unitAddr s.pool.unitSize c j + s.pool.unitSize ≤ unitAddr s.pool.unitSize b i ∨
      unitAddr s.pool.unitSize b i + s.pool.unitSize ≤ unitAddr s.pool.unitSize c j := by
    by_cases hcb : c = b
    · subst hcb
      exact Inv.unit_disjoint_same (hne.resolve_left fun h => h rfl)
    · exact hinv.unit_disjoint hc hb hcb hj hi
  have hkeep : ∀ x, x = unitAddr s.pool.unitSize c j ∨ x = unitAddr s.pool.unitSize c j + 1 →
      (s.freeUnit b i).heap.mem x = s.heap.mem x := by
    intro x hx
    exact writeUshort_of_ne _ _ (by omega) (by omega)
  exact readUshort_congr (hkeep _ (.inl rfl)) (hkeep _ (.inr rfl))

theorem freeUnit_freeList_of_ne (hinv : Inv s) (hb : b ∈ s.heap.owned) (hi : i < s.units b)
    {c : Nat} (hc : c ∈ s.heap.owned) (hne : c ≠ b) :
    (s.freeUnit b i).freeList c = s.freeList c := by
  unfold PoolState.freeList
  rw [freeUnit_block_of_ne hne]
  exact iterate_congr fun j hj =>
    freeUnit_link_of_ne hinv hb hi hc (hinv.free_lt c hc j hj) (.inl hne)

/-- The freed unit comes first in the free chain. -/
theorem freeUnit_freeList_self (hinv : Inv s) (hb : b ∈ s.heap.owned) (hi : i < s.units b)
    (hlive : unitAddr s.pool.unitSize b i ∈ s.live) :
    (s.freeUnit b i).freeList b = i :: s.freeList b := by
  have hout : i ∉ s.freeList b := fun h => hinv.free_not_live b hb i h hlive
  have hlink : (s.freeUnit b i).link b i = (s.heap.block b).first ∨ (s.heap.block b).free = 0 := by
    by_cases hfree : (s.heap.block b).free = 0
    · exact .inr hfree
    · left
      -- `_first` is in range when the chain is not empty, so it fits in the two bytes
      have hfirst : (s.heap.block b).first ∈ s.freeList b := by
        rw [freeList_takeUnit hfree]
        exact List.mem_cons_self
      have hlt := hinv.free_lt b hb _ hfirst
      obtain ⟨-, hsize, hle⟩ := hinv.size b hb
      have hunits : s.units b ≤ s.units b * s.pool.unitSize :=
        Nat.le_mul_of_pos_right _ (by have := hinv.unit_two; omega)
      exact readUshort_writeUshort _ _ (by omega)
  have hcongr : List.iterate ((s.freeUnit b i).link b) (s.heap.block b).first
      (s.heap.block b).free = s.freeList b := by
    refine iterate_congr fun j hj => ?_
    refine freeUnit_link_of_ne hinv hb hi hb (hinv.free_lt b hb j hj) (.inr fun h => ?_)
    exact hout (h ▸ hj)
  have hself : (s.freeUnit b i).heap.block b = { s.heap.block b with
      free := (s.heap.block b).free + 1, first := i } := Function.update_self _ _ _
  rw [PoolState.freeList, hself]
  show i :: List.iterate _ ((s.freeUnit b i).link b i) (s.heap.block b).free = _
  rcases hlink with hlink | hfree
  · rw [hlink, hcongr]
  · have hnil : s.freeList b = [] := by
      unfold PoolState.freeList
      rw [hfree]
      rfl
    rw [hfree, hnil]
    rfl

/-- Putting a unit back keeps the invariant. -/
theorem Inv.freeUnit (hinv : Inv s) (hb : b ∈ s.heap.owned) (hi : i < s.units b)
    (hlive : unitAddr s.pool.unitSize b i ∈ s.live) : Inv (s.freeUnit b i) := by
  have hself := freeUnit_freeList_self hinv hb hi hlive
  obtain ⟨l, hl, hown⟩ := hinv.chain
  have hmem : ∀ c ∈ s.heap.owned, ∀ j ∈ (s.freeUnit b i).freeList c,
      j ∈ s.freeList c ∨ c = b ∧ j = i := by
    intro c hc j hj
    by_cases hcb : c = b
    · subst hcb
      rw [hself] at hj
      rcases List.mem_cons.mp hj with rfl | hj
      · exact .inr ⟨rfl, rfl⟩
      · exact .inl hj
    · rw [freeUnit_freeList_of_ne hinv hb hi hc hcb] at hj
      exact .inl hj
  exact {
    unit_two := hinv.unit_two
    init_pos := hinv.init_pos
    init_le := hinv.init_le
    grow_le := hinv.grow_le
    chain := ⟨l, hl.congr fun c _ => (freeUnit_size c).2, hown⟩
    nodup := hinv.nodup
    disjoint := fun c hc d hd hcd => by
      rw [(freeUnit_size c).1, (freeUnit_size d).1]
      exact hinv.disjoint c hc d hd hcd
    size := fun c hc => by
      rw [(freeUnit_size c).1, freeUnit_units]
      exact hinv.size c hc
    free_nodup := by
      intro c hc
      by_cases hcb : c = b
      · subst hcb
        rw [hself]
        exact List.nodup_cons.mpr
          ⟨fun h => hinv.free_not_live c hb i h hlive, hinv.free_nodup c hb⟩
      · rw [freeUnit_freeList_of_ne hinv hb hi hc hcb]
        exact hinv.free_nodup c hc
    free_lt := by
      intro c hc j hj
      rw [freeUnit_units]
      rcases hmem c hc j hj with hj | ⟨rfl, rfl⟩
      · exact hinv.free_lt c hc j hj
      · exact hi
    free_not_live := by
      intro c hc j hj hin
      rcases hmem c hc j hj with hj | ⟨rfl, rfl⟩
      · exact hinv.free_not_live c hc j hj (List.mem_of_mem_erase hin)
      · exact hinv.live_nodup.not_mem_erase hin
    live_unit := by
      intro p hp
      obtain ⟨c, hc, j, hj, rfl⟩ := hinv.live_unit p (List.mem_of_mem_erase hp)
      exact ⟨c, hc, j, by rw [freeUnit_units]; exact hj, rfl⟩
    live_nodup := hinv.live_nodup.erase _ }

end FreeUnit

/-- Changing links between blocks keeps the invariant, if the new links from the new
`_pBlock` pass owned blocks. -/
theorem Inv.relink {s : PoolState} (hinv : Inv s) {block : Nat → MemBlock} {pBlock : Option Nat}
    (hsame : ∀ b, (block b).size = (s.heap.block b).size ∧
      (block b).free = (s.heap.block b).free ∧ (block b).first = (s.heap.block b).first)
    (hchain : ∃ l, Chain (fun b => (block b).next) pBlock l ∧ ∀ b ∈ l, b ∈ s.heap.owned) :
    Inv { s with pool := { s.pool with pBlock := pBlock }
                 heap := { s.heap with block := block } } := by
  have hunits : ∀ b, PoolState.units { s with
      pool := { s.pool with pBlock := pBlock }, heap := { s.heap with block := block } } b =
      s.units b := fun b => by
    simp only [PoolState.units, (hsame b).1]
  have hlist : ∀ b, PoolState.freeList { s with
      pool := { s.pool with pBlock := pBlock }, heap := { s.heap with block := block } } b =
      s.freeList b := fun b => by
    simp only [PoolState.freeList, (hsame b).2.1, (hsame b).2.2]
    rfl
  exact {
    unit_two := hinv.unit_two
    init_pos := hinv.init_pos
    init_le := hinv.init_le
    grow_le := hinv.grow_le
    chain := hchain
    nodup := hinv.nodup
    disjoint := fun c hc d hd hcd => by
      simp only [(hsame c).1, (hsame d).1]
      exact hinv.disjoint c hc d hd hcd
    size := fun c hc => by
      rw [hunits]
      simp only [(hsame c).1]
      exact hinv.size c hc
    free_nodup := fun c hc => by rw [hlist]; exact hinv.free_nodup c hc
    free_lt := fun c hc => by rw [hlist, hunits]; exact hinv.free_lt c hc
    free_not_live := fun c hc => by rw [hlist]; exact hinv.free_not_live c hc
    live_unit := fun p hp => by
      obtain ⟨c, hc, i, hi, rfl⟩ := hinv.live_unit p hp
      exact ⟨c, hc, i, by rw [hunits]; exact hi, rfl⟩
    live_nodup := hinv.live_nodup }

/-- Deleting a block that is wholly free and that no link leads to keeps the
invariant. -/
theorem Inv.delete {s : PoolState} (hinv : Inv s) {b : Nat} (hb : b ∈ s.heap.owned)
    (hfull : (s.heap.block b).free = s.units b)
    (hchain : ∃ l, Chain s.heap.next s.pool.pBlock l ∧ ∀ c ∈ l, c ∈ s.heap.owned ∧ c ≠ b) :
    Inv { s with heap := { s.heap with owned := s.heap.owned.erase b } } := by
  have hsub : ∀ c ∈ s.heap.owned.erase b, c ∈ s.heap.owned := fun c => List.mem_of_mem_erase
  have hlen : s.units b ≤ (s.freeList b).length := by
    unfold PoolState.freeList
    rw [List.length_iterate, hfull]
  obtain ⟨l, hl, hown⟩ := hchain
  exact {
    unit_two := hinv.unit_two
    init_pos := hinv.init_pos
    init_le := hinv.init_le
    grow_le := hinv.grow_le
    chain := ⟨l, hl, fun c hc => (List.mem_erase_of_ne (hown c hc).2).mpr (hown c hc).1⟩
    nodup := hinv.nodup.erase _
    disjoint := fun c hc d hd => hinv.disjoint c (hsub c hc) d (hsub d hd)
    size := fun c hc => hinv.size c (hsub c hc)
    free_nodup := fun c hc => hinv.free_nodup c (hsub c hc)
    free_lt := fun c hc => hinv.free_lt c (hsub c hc)
    free_not_live := fun c hc => hinv.free_not_live c (hsub c hc)
    live_unit := by
      intro p hp
      obtain ⟨c, hc, i, hi, rfl⟩ := hinv.live_unit p hp
      have hne : c ≠ b := by
        rintro rfl
        exact hinv.free_not_live c hb i (mem_of_nodup_of_length (hinv.free_nodup c hb)
          (hinv.free_lt c hb) hlen hi) hp
      exact ⟨c, (List.mem_erase_of_ne hne).mpr hc, i, hi, rfl⟩
    live_nodup := hinv.live_nodup }

/-- `pmb_pre->_pNext = pmb->_pNext` for the blocks `a` and `b`. -/
def PoolState.unlink (s : PoolState) (a b : Nat) : PoolState where
  pool := s.pool
  heap := s.heap.setBlock a { s.heap.block a with next := s.heap.next b }
  live := s.live

/-- Unlink `b` from behind `a` and delete it. -/
def PoolState.deleteBlock (s : PoolState) (a b : Nat) : PoolState where
  pool := s.pool
  heap := { (s.unlink a b).heap with owned := s.heap.owned.erase b }
  live := s.live

/-- Unlink `b` from behind `a`, give it the successor of `head`, and make it
`_pBlock`. -/
def PoolState.moveBlock (s : PoolState) (head a b : Nat) : PoolState where
  pool := { s.pool with pBlock := some b }
  heap := (s.unlink a b).heap.setBlock b
    { (s.unlink a b).heap.block b with next := (s.unlink a b).heap.next head }
  live := s.live

section Relink

variable {s : PoolState} {A C : List Nat} {a b head : Nat}

/-- Giving a block another successor changes nothing else. -/
theorem setBlock_next_same (h : Heap) (a : Nat) (x : Option Nat) (c : Nat) :
    ((h.setBlock a { h.block a with next := x }).block c).size = (h.block c).size ∧
      ((h.setBlock a { h.block a with next := x }).block c).free = (h.block c).free ∧
      ((h.setBlock a { h.block a with next := x }).block c).first = (h.block c).first := by
  unfold Heap.setBlock
  by_cases hc : c = a
  · subst hc
    simp
  · simp [Function.update_of_ne hc]

/-- The links after giving a block another successor. -/
theorem setBlock_next (h : Heap) (a : Nat) (x : Option Nat) :
    (h.setBlock a { h.block a with next := x }).next = Function.update h.next a x := by
  funext c
  by_cases hc : c = a
  · subst hc
    simp [Heap.next, Heap.setBlock]
  · simp [Heap.next, Heap.setBlock, Function.update_of_ne hc]

/-- What is left after unlinking `b` is in the chain and is not `b`. -/
theorem mem_unlinked (hnd : (A ++ a :: b :: C).Nodup) {c : Nat} (hc : c ∈ A ++ a :: C) :
    c ∈ A ++ a :: b :: C ∧ c ≠ b := by
  have hsub : List.Sublist (A ++ a :: C) (A ++ a :: b :: C) :=
    (List.Sublist.refl A).append ((List.sublist_cons_self b C).cons_cons a)
  refine ⟨hsub.subset hc, ?_⟩
  rintro rfl
  have hperm : (A ++ a :: c :: C).Perm (c :: (A ++ a :: C)) := by
    rw [List.append_cons A a C, List.append_cons A a (c :: C)]
    exact List.perm_middle
  exact (List.nodup_cons.mp (hperm.nodup_iff.mp hnd)).1 hc

/-- The chain without the block that was unlinked. -/
theorem unlink_chain (hl : Chain s.heap.next s.pool.pBlock (A ++ a :: b :: C)) :
    Chain (s.unlink a b).heap.next s.pool.pBlock (A ++ a :: C) := by
  have hnd := hl.nodup
  have hnext : (s.unlink a b).heap.next = Function.update s.heap.next a (s.heap.next b) :=
    setBlock_next _ _ _
  refine hl.unlink (by rw [hnext, Function.update_self]) fun c hc => ?_
  rw [hnext, Function.update_of_ne]
  rintro rfl
  simp only [List.nodup_append, List.nodup_cons, List.mem_cons, not_or] at hnd
  rcases List.mem_append.mp hc with hc | hc
  · exact hnd.2.2 _ hc _ (.inl rfl) rfl
  · exact hnd.2.1.1 |>.elim fun h1 h2 => by
      rcases List.mem_cons.mp hc with h | h
      · exact h1 h
      · exact h2 h

/-- The chain after a block was made the first: the old first block is not in it. -/
theorem moveBlock_chain (hl : Chain s.heap.next s.pool.pBlock (A ++ a :: b :: C))
    (hhead : s.pool.pBlock = some head) :
    ∃ T, A ++ a :: C = head :: T ∧
      Chain (s.moveBlock head a b).heap.next (some b) (b :: T) := by
  have hun := unlink_chain hl
  have hnd := hl.nodup
  have hnext : (s.moveBlock head a b).heap.next =
      Function.update (s.unlink a b).heap.next b ((s.unlink a b).heap.next head) :=
    setBlock_next _ _ _
  rw [hhead] at hun
  match hsplit : A ++ a :: C with
  | [] => simp at hsplit
  | c :: T =>
    rw [hsplit] at hun
    obtain ⟨hc, hT⟩ := chain_cons.mp hun
    cases hc
    refine ⟨T, rfl, rfl, ?_⟩
    rw [hnext, Function.update_self]
    refine hT.congr fun d hd => Function.update_of_ne ?_ _ _
    have hmem : d ∈ A ++ a :: C := by
      rw [hsplit]
      exact List.mem_cons_of_mem _ hd
    exact (mem_unlinked hnd hmem).2

/-- Deleting a wholly free block behind another keeps the invariant. -/
theorem Inv.deleteBlock (hinv : Inv s) (hb : b ∈ s.heap.owned)
    (hfull : (s.heap.block b).free = s.units b)
    (hl : Chain s.heap.next s.pool.pBlock (A ++ a :: b :: C))
    (hown : ∀ c ∈ A ++ a :: b :: C, c ∈ s.heap.owned) : Inv (s.deleteBlock a b) := by
  have hun := unlink_chain hl
  have hnd := hl.nodup
  have hchain : ∀ c ∈ A ++ a :: C, c ∈ s.heap.owned ∧ c ≠ b := by
    intro c hc
    exact ⟨hown c (mem_unlinked hnd hc).1, (mem_unlinked hnd hc).2⟩
  have hsame := setBlock_next_same s.heap a (s.heap.next b)
  have hlinked : Inv (s.unlink a b) :=
    hinv.relink hsame ⟨_, hun, fun c hc => (hchain c hc).1⟩
  refine hlinked.delete hb ?_ ⟨_, hun, hchain⟩
  show ((s.unlink a b).heap.block b).free = ((s.unlink a b).heap.block b).size / _
  rw [show ((s.unlink a b).heap.block b).free = _ from (hsame b).2.1,
    show ((s.unlink a b).heap.block b).size = _ from (hsame b).1, hfull]
  rfl

/-- Making a block the first keeps the invariant. -/
theorem Inv.moveBlock (hinv : Inv s) (hb : b ∈ s.heap.owned)
    (hl : Chain s.heap.next s.pool.pBlock (A ++ a :: b :: C))
    (hown : ∀ c ∈ A ++ a :: b :: C, c ∈ s.heap.owned) (hhead : s.pool.pBlock = some head) :
    Inv (s.moveBlock head a b) := by
  obtain ⟨T, hsplit, hT⟩ := moveBlock_chain hl hhead
  have h1 := setBlock_next_same s.heap a (s.heap.next b)
  have h2 := setBlock_next_same (s.unlink a b).heap b ((s.unlink a b).heap.next head)
  refine hinv.relink (fun c => ?_) ⟨b :: T, hT, fun c hc => ?_⟩
  · exact ⟨(h2 c).1.trans (h1 c).1, (h2 c).2.1.trans (h1 c).2.1, (h2 c).2.2.trans (h1 c).2.2⟩
  · rcases List.mem_cons.mp hc with rfl | hc
    · exact hb
    · have hmem : c ∈ A ++ a :: C := by
        rw [hsplit]
        exact List.mem_cons_of_mem _ hc
      exact hown c (mem_unlinked hl.nodup hmem).1

end Relink

/-- The search of `freeMem` for a pointer into the block `b`. -/
theorem findOwner_spec (h : Heap) {p b : Nat} (hin : data b ≤ p ∧ p < data b + (h.block b).size) :
    ∀ {l : List Nat} (pre : Nat) {pmb fuel : Nat}, Chain h.next (some pmb) l →
    (∀ c ∈ l, c ∈ h.owned ∧ (data c ≤ p → p < data c + (h.block c).size → c = b)) →
    l.length ≤ fuel →
    (b ∉ l ∧ findOwner h p fuel pre pmb = some none) ∨
      ∃ A C, l = A ++ b :: C ∧ findOwner h p fuel pre pmb = some (some (A.getLastD pre, b))
  | [], pre, pmb, fuel, hl, _, _ => by cases chain_nil.mp hl
  | c :: l, pre, pmb, 0, _, _, hfuel => by simp at hfuel
  | c :: l, pre, pmb, fuel + 1, hl, hown, hfuel => by
      obtain ⟨hc, hrest⟩ := chain_cons.mp hl
      cases hc
      obtain ⟨hmem, huniq⟩ := hown c (by simp)
      have hderef : h.deref c = some (h.block c) := if_pos hmem
      rw [findOwner, hderef]
      by_cases hpb : c = b
      · subst hpb
        right
        refine ⟨[], l, rfl, ?_⟩
        simp only
        rw [if_neg (by omega)]
        rfl
      · have hskip : data c > p ∨ p ≥ data c + (h.block c).size := by
          by_contra hno
          exact hpb (huniq (by omega) (by omega))
        simp only
        rw [if_pos hskip]
        cases hnext : (h.block c).next with
        | none =>
          have hnil : l = [] := hrest.unique (chain_nil.mpr hnext)
          left
          exact ⟨by simp [hnil, Ne.symm hpb], rfl⟩
        | some q =>
          have hrest' : Chain h.next (some q) l := by
            rw [← hnext]
            exact hrest
          rcases findOwner_spec h hin c hrest' (fun d hd => hown d (by simp [hd]))
            (Nat.le_of_succ_le_succ hfuel) with ⟨hnot, hfind⟩ | ⟨A, C, rfl, hfind⟩
          · exact .inl ⟨by simp [hnot, Ne.symm hpb], hfind⟩
          · right
            refine ⟨c :: A, C, rfl, ?_⟩
            rw [List.getLastD_cons]
            exact hfind

/-- The block of a pointer into a unit is the only one that holds the pointer. -/
theorem Inv.owner_unique {s : PoolState} (hinv : Inv s) {b c i : Nat} (hb : b ∈ s.heap.owned)
    (hc : c ∈ s.heap.owned) (hi : i < s.units b)
    (h1 : data c ≤ unitAddr s.pool.unitSize b i)
    (h2 : unitAddr s.pool.unitSize b i < data c + (s.heap.block c).size) : c = b := by
  by_contra hne
  have hunit := hinv.unit_bounds hb hi
  have hdis := hinv.disjoint b hb c hc (Ne.symm hne)
  have := hinv.unit_two
  unfold sizeofMemBlock at hdis
  unfold data at h1 h2 hunit
  omega

/-- **What `freeMem` of a live pointer can do**: nothing, if no link leads to the
pointer's block; else put the unit back, and then keep the blocks as they are,
delete the block, or make it the first. -/
theorem freeMem_cases {s : PoolState} (hinv : Inv s) {l : List Nat}
    (hl : Chain s.heap.next s.pool.pBlock l) (hown : ∀ c ∈ l, c ∈ s.heap.owned) {b i : Nat}
    (hb : b ∈ s.heap.owned) (hi : i < s.units b)
    (hlive : unitAddr s.pool.unitSize b i ∈ s.live) :
    (b ∉ l ∧ freeMem s.pool s.heap (unitAddr s.pool.unitSize b i) = some (s.pool, s.heap)) ∨
    (∃ C, l = b :: C ∧ freeMem s.pool s.heap (unitAddr s.pool.unitSize b i) =
      some ((s.freeUnit b i).pool, (s.freeUnit b i).heap)) ∨
    (∃ A a C, l = A ++ a :: b :: C ∧ (s.heap.block b).free + 1 = s.units b ∧
      freeMem s.pool s.heap (unitAddr s.pool.unitSize b i) =
        some (((s.freeUnit b i).deleteBlock a b).pool, ((s.freeUnit b i).deleteBlock a b).heap)) ∨
    ∃ A a C head, l = A ++ a :: b :: C ∧ s.pool.pBlock = some head ∧
      (s.heap.block b).free + 1 ≠ s.units b ∧
      freeMem s.pool s.heap (unitAddr s.pool.unitSize b i) =
        some (((s.freeUnit b i).moveBlock head a b).pool,
          ((s.freeUnit b i).moveBlock head a b).heap) := by
  have h2 := hinv.unit_two
  have hunit := hinv.unit_bounds hb hi
  obtain ⟨hpos, hsize, hsize'⟩ := hinv.size b hb
  have hfree := hinv.free_lt_units hb hi hlive
  have hunits : s.units b ≤ s.units b * s.pool.unitSize := Nat.le_mul_of_pos_right _ (by omega)
  unfold freeMem
  cases hblock : s.pool.pBlock with
  | none =>
    rw [hblock] at hl
    have hnil : l = [] := hl.unique (chain_nil.mpr rfl)
    exact .inl ⟨by simp [hnil], rfl⟩
  | some head =>
    rw [hblock] at hl
    have hfind := findOwner_spec s.heap (p := unitAddr s.pool.unitSize b i) (b := b)
      ⟨hunit.1, by omega⟩ head hl
      (fun c hc => ⟨hown c hc, fun h3 h4 => hinv.owner_unique hb (hown c hc) hi h3 h4⟩)
      (length_chain_le hl hown)
    -- the numbers that the code computes
    have hindex : (unitAddr s.pool.unitSize b i - data b) / s.pool.unitSize % 65536 = i := by
      unfold unitAddr
      rw [Nat.add_sub_cancel_left, Nat.mul_div_cancel i (by omega), Nat.mod_eq_of_lt (by omega)]
    have hcount : ((s.heap.block b).free + 1) % 65536 = (s.heap.block b).free + 1 :=
      Nat.mod_eq_of_lt (by omega)
    have hfull : ((s.heap.block b).free + 1) * s.pool.unitSize = (s.heap.block b).size ↔
        (s.heap.block b).free + 1 = s.units b := by
      rw [hsize]
      exact Nat.mul_left_inj (by omega)
    rcases hfind with ⟨hnot, hfind⟩ | ⟨A, C, rfl, hfind⟩
    · exact .inl ⟨hnot, by simp only [hfind]⟩
    right
    rcases List.eq_nil_or_concat A with rfl | ⟨A, a, rfl⟩
    · left
      obtain ⟨hhead, -⟩ := chain_cons.mp hl
      cases hhead
      refine ⟨C, rfl, ?_⟩
      simp only [hfind, List.getLastD_nil, if_true, hindex, hcount]
      rfl
    · right
      have hne : b ≠ head := by
        rintro rfl
        have hnd := hl.nodup
        cases A with
        | nil =>
          obtain ⟨hhead, -⟩ := chain_cons.mp hl
          cases hhead
          simp at hnd
        | cons c A =>
          obtain ⟨hhead, -⟩ := chain_cons.mp hl
          cases hhead
          simp at hnd
      have hlast : (A.concat a).getLastD head = a := by
        rw [List.concat_eq_append, List.getLastD_concat]
      have hsplit : A.concat a ++ b :: C = A ++ a :: b :: C := by simp
      simp only [hfind, hlast, hne, if_false, hindex, hcount, hfull, hsplit]
      by_cases hall : (s.heap.block b).free + 1 = s.units b
      · left
        refine ⟨A, a, C, rfl, hall, ?_⟩
        rw [if_pos hall]
        rfl
      · right
        refine ⟨A, a, C, head, rfl, rfl, hall, ?_⟩
        rw [if_neg hall]
        rfl

/-- Giving a pointer away keeps the invariant. -/
theorem Inv.forget {s : PoolState} (hinv : Inv s) (p : Nat) :
    Inv { s with live := s.live.erase p } :=
  { hinv with
    free_not_live := fun b hb i hi hmem =>
      hinv.free_not_live b hb i hi (List.mem_of_mem_erase hmem)
    live_unit := fun q hq => hinv.live_unit q (List.mem_of_mem_erase hq)
    live_nodup := hinv.live_nodup.erase p }

/-- **One step**: an operation that the environment is allowed does not fault and keeps
the invariant. -/
theorem step_inv {s : PoolState} (hinv : Inv s) {op : PoolOp} (hadm : Admits s op) :
    ∃ s', step s op = some s' ∧ Inv s' := by
  cases op with
  | alloc newAt =>
    rcases allocMem_cases hinv newAt with ⟨n, hn, hn1, hle, heq⟩ | ⟨b, -, hb, hfree, heq⟩ | heq
    · refine ⟨s.addBlock newAt n, by simp [step, heq, PoolState.addBlock], ?_⟩
      exact hinv.addBlock hn1 hle (by rw [hn]; exact hadm)
    · exact ⟨s.takeUnit b, by simp [step, heq, PoolState.takeUnit], hinv.takeUnit hb hfree⟩
    · exact ⟨s, by simp [step, heq], hinv⟩
  | free p =>
    obtain ⟨b, hb, i, hi, rfl⟩ := hinv.live_unit p hadm
    obtain ⟨l, hl, hown⟩ := hinv.chain
    have hfreed := hinv.freeUnit hb hi hadm
    have hl' : Chain (s.freeUnit b i).heap.next s.pool.pBlock l :=
      hl.congr fun c _ => (freeUnit_size c).2
    rcases freeMem_cases hinv hl hown hb hi hadm with
      ⟨-, heq⟩ | ⟨C, -, heq⟩ | ⟨A, a, C, rfl, hall, heq⟩ | ⟨A, a, C, head, rfl, hhead, -, heq⟩
    · exact ⟨_, by rw [step, heq]; rfl, hinv.forget _⟩
    · exact ⟨s.freeUnit b i, by simp [step, heq, PoolState.freeUnit], hfreed⟩
    · refine ⟨(s.freeUnit b i).deleteBlock a b, by simp [step, heq]; rfl, ?_⟩
      refine hfreed.deleteBlock hb ?_ hl' hown
      rw [freeUnit_units, ← hall]
      simp [PoolState.freeUnit, Heap.setBlock]
    · refine ⟨(s.freeUnit b i).moveBlock head a b, by simp [step, heq]; rfl, ?_⟩
      exact hfreed.moveBlock hb hl' hown hhead
  | write a byte => exact ⟨_, rfl, hinv.write hadm⟩

end Donkeyji.Mempool
