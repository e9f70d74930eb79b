/-
Donkeyji.Mempool.SizeTheorems — the sizes of units and blocks.

The constructor should round its argument up to an even number. For more than
four bytes it rounds the member that it is about to set instead, so the size
of a unit is what the memory held; and `_size` of a block is a `ushort`, which
wraps. `sizesExact_iff` says for which arguments every size is exact and every
pointer found again.
-/
import Donkeyji.Mempool.PoolRunTheorems

namespace Donkeyji.Mempool

open LinkedList Runs

/-- The size of a unit for an argument of at most four bytes. -/
def unitOf (unitSize : Nat) : Nat := if unitSize ≤ 2 then 2 else 4

theorem two_le_unitOf (unitSize : Nat) : 2 ≤ unitOf unitSize := by
  unfold unitOf
  split <;> omega

/-- If the step makes a block, its size is that of its units. -/
def BlockExact (s : PoolState) (op : PoolOp) : Prop :=
  ∀ newAt s', op = .alloc newAt → step s op = some s' → s'.heap.owned = newAt :: s.heap.owned →
    (s'.heap.block newAt).size =
      (if s.pool.pBlock = none then s.pool.initSize else s.pool.growSize) * s.pool.unitSize

/-- Every live pointer is a unit of exactly one block by the range test of
`freeMem`, and the search finds this block if a link leads to it. -/
def PointersFound (s : PoolState) : Prop :=
  ∀ p ∈ s.live, ∃ b ∈ s.heap.owned, (∃ i, p = unitAddr s.pool.unitSize b i) ∧ PointsInto s b p ∧
    (∀ c ∈ s.heap.owned, PointsInto s c p → c = b) ∧
    ∀ head, s.pool.pBlock = some head → s.Reachable b →
      ∃ pre, findOwner s.heap p s.heap.owned.length head head = some (some (pre, b))

/-- Whatever the memory held: the size of a unit is even and not less than
the argument, and in every run the blocks have the size of their units and the
pointers are found. -/
def SizesExact (unitSize initSize growSize : Nat) : Prop :=
  ∀ junk < 65536,
    (MemPool.new junk unitSize initSize growSize).unitSize % 2 = 0 ∧
    unitSize ≤ (MemPool.new junk unitSize initSize growSize).unitSize ∧
    ∀ mem ops, AllSteps step Admits (.init (.new junk unitSize initSize growSize) mem) ops →
      AllSteps step BlockExact (.init (.new junk unitSize initSize growSize) mem) ops ∧
      AllStates step PointersFound (.init (.new junk unitSize initSize growSize) mem) ops

/-! ## Small units -/

variable {s : PoolState}

theorem Inv.blockExact (hinv : Inv s) (op : PoolOp) : BlockExact s op := by
  intro newAt s' hop hstep hnew
  subst hop
  rcases allocMem_cases hinv newAt with ⟨n, hn, -, hle, heq⟩ | ⟨b, -, -, -, heq⟩ | heq
  · have hs' : s' = s.addBlock newAt n := by
      simpa [step, heq, PoolState.addBlock] using hstep.symm
    rw [hs', addBlock_size_self hle, hn]
  · have hs' : s' = s.takeUnit b := by
      simpa [step, heq, PoolState.takeUnit] using hstep.symm
    subst hs'
    exact absurd hnew.symm (List.cons_ne_self newAt s.heap.owned)
  · have hs' : s' = s := by
      simpa [step, heq] using hstep.symm
    subst hs'
    exact absurd hnew.symm (List.cons_ne_self newAt s'.heap.owned)

theorem Inv.pointersFound (hinv : Inv s) : PointersFound s := by
  intro p hp
  obtain ⟨b, hb, i, hi, rfl⟩ := hinv.live_unit p hp
  have hunit := hinv.unit_bounds hb hi
  have htwo := hinv.unit_two
  have hin : PointsInto s b (unitAddr s.pool.unitSize b i) := ⟨hunit.1, by omega⟩
  refine ⟨b, hb, ⟨i, rfl⟩, hin, ?_, ?_⟩
  · intro c hc hpoints
    exact hinv.owner_unique hb hc hi hpoints.1 hpoints.2
  · intro head hhead hreach
    obtain ⟨l, hl, hown⟩ := hinv.chain
    have hbl : b ∈ l := hl.reach_iff.mp hreach
    have hall : ∀ c ∈ l, c ∈ s.heap.owned ∧ (data c ≤ unitAddr s.pool.unitSize b i →
        unitAddr s.pool.unitSize b i < data c + (s.heap.block c).size → c = b) :=
      fun c hc => ⟨hown c hc, hinv.owner_unique hb (hown c hc) hi⟩
    have hlen := length_chain_le hl hown
    rw [hhead] at hl
    rcases findOwner_spec s.heap hin head hl hall hlen with ⟨hnot, -⟩ | ⟨A, C, -, hfind⟩
    · exact absurd hbl hnot
    · exact ⟨_, hfind⟩

/-- Up to four bytes the constructor does not look at what the memory held. -/
theorem new_unitSize (junk : Nat) {unitSize : Nat} (initSize growSize : Nat) (h : unitSize ≤ 4) :
    (MemPool.new junk unitSize initSize growSize).unitSize = unitOf unitSize := by
  simp [MemPool.new, unitOf, Nat.not_lt.mpr h]

theorem sizesExact_of_small {unitSize initSize growSize : Nat} (hunit : unitSize ≤ 4)
    (hpos : 1 ≤ initSize) (hinit : initSize * unitOf unitSize < 65536)
    (hgrow : growSize * unitOf unitSize < 65536) : SizesExact unitSize initSize growSize := by
  intro junk _
  have hu := new_unitSize junk initSize growSize hunit
  have hbounds : unitOf unitSize % 2 = 0 ∧ unitSize ≤ unitOf unitSize := by
    unfold unitOf
    split <;> omega
  refine ⟨by rw [hu]; exact hbounds.1, by rw [hu]; exact hbounds.2, ?_⟩
  intro mem ops hadm
  have hinv : Inv (.init (.new junk unitSize initSize growSize) mem) := by
    refine Inv.init mem rfl ?_ hpos ?_ ?_
    · rw [hu]
      exact two_le_unitOf unitSize
    · rw [hu]
      exact Nat.le_of_lt_succ hinit
    · rw [hu]
      exact Nat.le_of_lt_succ hgrow
  have hstates : AllStates step Inv (.init (.new junk unitSize initSize growSize) mem) ops := by
    refine allStates_of_allSteps ?_ hinv hadm
    intro s op s' hinv hadm hstep
    obtain ⟨s1, hs1, hinv'⟩ := step_inv hinv hadm
    rw [hstep] at hs1
    cases hs1
    exact hinv'
  exact ⟨allSteps_of_allStates hstates fun s op hinv => hinv.blockExact op,
    hstates.mono fun s hinv => hinv.pointersFound⟩

/-! ## A block of too many units -/

/-- The first block is at address 0, and `k` of its units are taken. -/
structure Filling (s : PoolState) (initSize growSize u k : Nat) : Prop where
  owned : s.heap.owned = [0]
  pool : s.pool = ⟨some 0, u, initSize, growSize⟩
  size : (s.heap.block 0).size ≤ 65535
  free : (s.heap.block 0).free = initSize - k
  next : (s.heap.block 0).next = none

variable {initSize growSize u k : Nat}

/-- An address behind the first block. -/
def behind : Nat := 65560

theorem Filling.admits (h : Filling s initSize growSize u k) : Admits s (.alloc behind) := by
  intro b hb
  rw [h.owned, List.mem_singleton] at hb
  subst hb
  have hsize := h.size
  right
  unfold sizeofMemBlock behind
  omega

/-- One more unit of the first block. -/
theorem Filling.take (h : Filling s initSize growSize u k) (hk : k < initSize) :
    ∃ s', step s (.alloc behind) = some s' ∧ Filling s' initSize growSize u (k + 1) := by
  have hderef : s.heap.deref 0 = some (s.heap.block 0) := by
    simp [Heap.deref, h.owned]
  have hfree : (s.heap.block 0).free ≠ 0 := by
    rw [h.free]
    omega
  have hfind : findFree s.heap s.heap.owned.length (some 0) = some (some 0) := by
    rw [h.owned, List.length_singleton, findFree, hderef]
    simp only [hfree, if_false]
  have hstep : step s (.alloc behind) = some (s.takeUnit 0) := by
    simp [step, allocMem, h.pool, hfind, hderef, PoolState.takeUnit, PoolState.link, unitAddr]
  have hfree' := h.free
  refine ⟨s.takeUnit 0, hstep, h.owned, h.pool, ?_, ?_, ?_⟩
  · rw [(takeUnit_size 0).1]
    exact h.size
  · simp [PoolState.takeUnit, Heap.setBlock]
    omega
  · rw [(takeUnit_size 0).2]
    exact h.next

/-- When all units are taken a block of `growSize` units is made. -/
theorem Filling.grow (h : Filling s initSize growSize u initSize) (hgrow : growSize ≠ 0) :
    ∃ s', step s (.alloc behind) = some s' ∧ s'.heap.owned = behind :: s.heap.owned ∧
      (s'.heap.block behind).size = growSize * u % 65536 := by
  have hderef : s.heap.deref 0 = some (s.heap.block 0) := by
    simp [Heap.deref, h.owned]
  have hfree : (s.heap.block 0).free = 0 := by
    rw [h.free]
    omega
  have hfind : findFree s.heap s.heap.owned.length (some 0) = some none := by
    rw [h.owned, List.length_singleton, findFree, hderef]
    simp only [hfree, if_true, h.next, findFree]
  have hstep : step s (.alloc behind) = some
      { pool := ⟨some behind, u, initSize, growSize⟩
        heap := newMemBlock s.heap behind growSize u (some 0)
        live := data behind :: s.live } := by
    simp [step, allocMem, h.pool, hfind, hgrow]
  exact ⟨_, hstep, rfl, by simp [newMemBlock]⟩

/-- The run that fills the first block and goes on. -/
theorem Filling.not_blockExact (m : Nat) : ∀ {s : PoolState} {k : Nat},
    Filling s initSize growSize u k → k + m = initSize → 65536 ≤ growSize * u →
    AllSteps step Admits s (List.replicate (m + 1) (.alloc behind)) ∧
      ¬ AllSteps step BlockExact s (List.replicate (m + 1) (.alloc behind)) := by
  induction m with
  | zero =>
    intro s k h hk hlarge
    have hkk : k = initSize := by omega
    subst hkk
    have hgrow : growSize ≠ 0 := by
      intro hzero
      rw [hzero, Nat.zero_mul] at hlarge
      omega
    obtain ⟨s', hs', hown, hsize⟩ := h.grow hgrow
    refine ⟨⟨h.admits, fun _ _ => trivial⟩, ?_⟩
    intro hexact
    have hwant := hexact.1 behind s' rfl hs' hown
    rw [hsize, h.pool] at hwant
    have hlt := Nat.mod_lt (growSize * u) (show 65536 > 0 by decide)
    simp only [reduceCtorEq, if_false] at hwant
    omega
  | succ m ih =>
    intro s k h hk hlarge
    obtain ⟨s', hs', h'⟩ := h.take (by omega)
    obtain ⟨hadm, hnot⟩ := ih h' (by omega) hlarge
    refine ⟨⟨h.admits, ?_⟩, ?_⟩
    · intro s1 hs1
      rw [hs'] at hs1
      cases hs1
      exact hadm
    · intro hexact
      exact hnot (hexact.2 s' hs')

/-- The first allocation. -/
theorem filling_one (growSize : Nat) (mem : Mem) (hpos : 1 ≤ initSize)
    (hinit : initSize * u < 65536) (hu : 2 ≤ u) :
    ∃ s, step (.init ⟨none, u, initSize, growSize⟩ mem) (.alloc 0) = some s ∧
      Filling s initSize growSize u 1 := by
  have hlt : initSize < 65536 := lt_of_le_of_lt (Nat.le_mul_of_pos_right _ (by omega)) hinit
  refine ⟨_, rfl, rfl, rfl, ?_, ?_, ?_⟩
  · simp [newMemBlock, PoolState.init]
    omega
  · simp [newMemBlock, PoolState.init]
    omega
  · simp [newMemBlock, PoolState.init]

/-! ## Which sizes are exact -/

section exact

variable {unitSize : Nat}

/-- Where the memory held zeros, units of more than four bytes get none. -/
theorem SizesExact.small (h : SizesExact unitSize initSize growSize) : unitSize ≤ 4 := by
  have hle := (h 0 (by decide)).2.1
  by_contra hbig
  have hzero : (MemPool.new 0 unitSize initSize growSize).unitSize = 0 := by
    simp [MemPool.new, Nat.lt_of_not_le hbig]
  omega

/-- The pool that the constructor makes for a small unit. -/
theorem SizesExact.runs (h : SizesExact unitSize initSize growSize) (mem : Mem)
    (ops : List PoolOp)
    (hadm : AllSteps step Admits (.init ⟨none, unitOf unitSize, initSize, growSize⟩ mem) ops) :
    AllSteps step BlockExact (.init ⟨none, unitOf unitSize, initSize, growSize⟩ mem) ops ∧
      AllStates step PointersFound (.init ⟨none, unitOf unitSize, initSize, growSize⟩ mem) ops := by
  have hnew : MemPool.new 0 unitSize initSize growSize =
      ⟨none, unitOf unitSize, initSize, growSize⟩ := by
    simp [MemPool.new, unitOf, Nat.not_lt.mpr h.small]
  have hruns := (h 0 (by decide)).2.2
  rw [hnew] at hruns
  exact hruns mem ops hadm

/-- Any address is fresh before the first allocation. -/
theorem admits_first (pool : MemPool) (mem : Mem) (newAt : Nat) :
    Admits (.init pool mem) (.alloc newAt) := by
  intro b hb
  simp [PoolState.init] at hb

/-- The first allocation shows what the first block must be. -/
theorem SizesExact.first_block (h : SizesExact unitSize initSize growSize) :
    1 ≤ initSize ∧ initSize * unitOf unitSize < 65536 := by
  obtain ⟨hexact, hfound⟩ := h.runs (fun _ => 0) [.alloc 0] ⟨admits_first _ _ 0, fun _ _ => trivial⟩
  constructor
  · by_contra hzero
    have hz : initSize = 0 := by omega
    subst hz
    -- the pointer to the data of a block without units is in no block
    obtain ⟨b, hb, -, hin, -⟩ := hfound.2 _ rfl 16 (by simp [PoolState.init, data])
    simp [PoolState.init, newMemBlock] at hb
    subst hb
    have hlt := hin.2
    simp [PoolState.init, newMemBlock, data] at hlt
  · have hsize := hexact.1 0 _ rfl rfl rfl
    simp [PoolState.init, newMemBlock] at hsize
    have hlt := Nat.mod_lt (initSize * unitOf unitSize) (show 65536 > 0 by decide)
    omega

/-- The run that fills the first block shows what the next one must be. -/
theorem SizesExact.next_block (h : SizesExact unitSize initSize growSize) :
    growSize * unitOf unitSize < 65536 := by
  obtain ⟨hpos, hinit⟩ := h.first_block
  by_contra hlarge
  obtain ⟨s, hs, hfilling⟩ :=
    filling_one growSize (fun _ => 0) hpos hinit (two_le_unitOf unitSize)
  obtain ⟨hadm, hnot⟩ := hfilling.not_blockExact (initSize - 1) (by omega) (by omega)
  have hrun := h.runs (fun _ => 0)
    (.alloc 0 :: List.replicate (initSize - 1 + 1) (.alloc behind))
    ⟨admits_first _ _ 0, fun s1 hs1 => by rw [hs] at hs1; cases hs1; exact hadm⟩
  exact hnot (hrun.1.2 s hs)

end exact

/-- **When the sizes are exact.** Whatever the memory held, in every run of a
pool the units are even and large enough, the blocks have the size of their
units and the pointers are found, exactly if a unit has at most four bytes,
the first block has a unit, and the units of a block have less than 65536
bytes. -/
theorem sizesExact_iff (unitSize initSize growSize : Nat) :
    SizesExact unitSize initSize growSize ↔
      unitSize ≤ 4 ∧ 1 ≤ initSize ∧ initSize * unitOf unitSize < 65536 ∧
        growSize * unitOf unitSize < 65536 := by
  constructor
  · intro h
    obtain ⟨hpos, hinit⟩ := h.first_block
    exact ⟨h.small, hpos, hinit, h.next_block⟩
  · intro h
    exact sizesExact_of_small h.1 h.2.1 h.2.2.1 h.2.2.2

/-- **A unit of eight bytes gets none.** The memory of the new pool holds
zeros. -/
theorem eight_bytes_inexact :
    (MemPool.new 0 8 1024 1024).unitSize = 0 ∧ ¬ SizesExact 8 1024 1024 := by
  have hzero : (MemPool.new 0 8 1024 1024).unitSize = 0 := by decide
  refine ⟨hzero, ?_⟩
  intro h
  have hle := (h 0 (by decide)).2.1
  rw [hzero] at hle
  omega

end Donkeyji.Mempool
