/-
Donkeyji.MultiProgress.ConnMgrTheorems — the connection pool.

The pool refines `SwapPool`: `Conns.pool` is the abstract pool of a state, and
an addition takes an element of it, a deletion releases one. `Tidy` adds what
the abstract pool does not know: the slots hold the allocated objects.
-/
import Donkeyji.Lib.Runs
import Donkeyji.Lib.SwapPool
import Donkeyji.MultiProgress.Conn

namespace Donkeyji.MultiProgress

open Runs SwapPool

/-- The index that an object has in the pool. -/
def Conns.ndx (s : Conns) (p : ConnPtr) : Int := (s.heap p).elim (-1) Conn.ndx

/-- The abstract pool. -/
def Conns.pool (s : Conns) : Pool ConnPtr := ⟨s.cm.ptr, s.cm.used, s.ndx⟩

/-- The object stands for a connection. -/
abbrev Conns.Active (s : Conns) (p : ConnPtr) : Prop := SwapPool.Active s.pool p

/-- The slots hold the allocated objects. -/
structure Tidy (s : Conns) : Prop where
  ok : Ok s.pool
  size : s.cm.ptr.length = s.cm.size
  mem : ∀ p, p ∈ s.cm.ptr ↔ (s.heap p).isSome
  fresh : ∀ p, (s.heap p).isSome → p < s.fresh

variable {s s' : Conns} {p : ConnPtr}

@[simp] theorem heap_set_self (s : Conns) (p : ConnPtr) (c : Conn) :
    (s.set p c).heap p = some c := Function.update_self p _ _

theorem heap_set_of_ne {q : ConnPtr} (h : q ≠ p) (s : Conns) (c : Conn) :
    (s.set p c).heap q = s.heap q := Function.update_of_ne h _ _

@[simp] theorem cm_set (s : Conns) (p : ConnPtr) (c : Conn) : (s.set p c).cm = s.cm := rfl

/-- Writing an object does not change which objects there are. -/
theorem isSome_heap_set {c : Conn} (hc : s.heap p = some c) (c' : Conn) (r : ConnPtr) :
    ((s.set p c').heap r).isSome ↔ (s.heap r).isSome := by
  by_cases hr : r = p
  · subst hr
    simp [hc]
  · rw [heap_set_of_ne hr]

theorem ndx_set (s : Conns) (p : ConnPtr) (c : Conn) :
    (s.set p c).ndx = Function.update s.ndx p c.ndx := by
  funext q
  by_cases hq : q = p
  · subst hq
    simp [Conns.ndx]
  · simp [Conns.ndx, heap_set_of_ne hq, hq]

/-! ## Allocation -/

/-- What the allocation of `n` objects does. -/
structure Allocated (n : Nat) (s : Conns) (ps : List ConnPtr) (s' : Conns) : Prop where
  cm : s'.cm = s.cm
  length : ps.length = n
  nodup : ps.Nodup
  new : ∀ p ∈ ps, s.heap p = none ∧ s'.heap p = some connNew
  old : ∀ p, p ∉ ps → s'.heap p = s.heap p
  ge : ∀ p ∈ ps, s.fresh ≤ p
  fresh : s'.fresh = s.fresh + n
  lt : ∀ p ∈ ps, p < s'.fresh

theorem allocConns_spec (n : Nat) (s : Conns) (h : ∀ p, (s.heap p).isSome → p < s.fresh) :
    Allocated n s (allocConns n s).1 (allocConns n s).2 := by
  induction n generalizing s with
  | zero =>
    refine ⟨rfl, rfl, List.nodup_nil, ?_, fun p _ => rfl, ?_, rfl, ?_⟩ <;> intro p hp <;> cases hp
  | succ n ih =>
    have hnone : s.heap s.fresh = none := by
      cases hp : s.heap s.fresh with
      | none => rfl
      | some c => exact absurd (h s.fresh (by simp [hp])) (Nat.lt_irrefl _)
    have hother : ∀ q, q ≠ s.fresh → s.alloc.heap q = s.heap q :=
      fun q hq => heap_set_of_ne hq s connNew
    have hnext := ih s.alloc (by
      intro q hq
      by_cases hqp : q = s.fresh
      · exact hqp ▸ Nat.lt_succ_self _
      · rw [hother q hqp] at hq
        exact Nat.lt_succ_of_lt (h q hq))
    have hfresh : s.alloc.fresh = s.fresh + 1 := rfl
    have hnot : s.fresh ∉ (allocConns n s.alloc).1 :=
      fun hmem => absurd (hnext.ge _ hmem) (Nat.not_succ_le_self _)
    refine ⟨hnext.cm, congrArg (· + 1) hnext.length, List.nodup_cons.mpr ⟨hnot, hnext.nodup⟩,
      ?_, ?_, ?_, ?_, ?_⟩
    · intro q hq
      cases List.mem_cons.mp hq with
      | inl hqp =>
        subst hqp
        exact ⟨hnone, (hnext.old _ hnot).trans (heap_set_self s _ _)⟩
      | inr hmem =>
        have hqp : q ≠ s.fresh := fun hqp => hnot (hqp ▸ hmem)
        exact ⟨(hother q hqp).symm.trans (hnext.new q hmem).1, (hnext.new q hmem).2⟩
    · intro q hq
      have hqp : q ≠ s.fresh := fun hqp => hq (hqp ▸ List.mem_cons_self)
      exact (hnext.old q fun hmem => hq (List.mem_cons_of_mem _ hmem)).trans (hother q hqp)
    · intro q hq
      cases List.mem_cons.mp hq with
      | inl hqp => exact hqp ▸ Nat.le_refl _
      | inr hmem => exact Nat.le_of_succ_le (hnext.ge q hmem)
    · have hlast : (allocConns (n + 1) s).2.fresh = s.alloc.fresh + n := hnext.fresh
      rw [hlast, hfresh, Nat.add_assoc, Nat.add_comm 1]
    · have hlast : (allocConns (n + 1) s).2.fresh = s.alloc.fresh + n := hnext.fresh
      intro q hq
      cases List.mem_cons.mp hq with
      | inl hqp =>
        rw [hqp, hlast, hfresh]
        exact Nat.lt_of_lt_of_le (Nat.lt_succ_self _) (Nat.le_add_right _ _)
      | inr hmem => exact hnext.lt q hmem

/-- The pool grows by the allocated objects. -/
theorem grown_spec (h : Tidy s) {ps : List ConnPtr} {s1 : Conns} (ha : Allocated 128 s ps s1)
    (hs' : s' = { s1 with cm := ⟨s.cm.ptr ++ ps, s.cm.size + 128, s.cm.used⟩ }) :
    Tidy s' ∧ s'.pool = grow s.pool ps ∧ ∀ p, (s.heap p).isSome → s'.heap p = s.heap p := by
  subst hs'
  have hold : ∀ p, (s.heap p).isSome → s1.heap p = s.heap p := by
    intro p hp
    refine ha.old p fun hmem => ?_
    rw [(ha.new p hmem).1] at hp
    cases hp
  have hndx : ∀ p, s1.ndx p = s.ndx p := by
    intro p
    by_cases hmem : p ∈ ps
    · simp [Conns.ndx, (ha.new p hmem).1, (ha.new p hmem).2, connNew]
    · simp [Conns.ndx, ha.old p hmem]
  have hpool : Conns.pool { s1 with cm := ⟨s.cm.ptr ++ ps, s.cm.size + 128, s.cm.used⟩ } =
      grow s.pool ps := by
    simp only [Conns.pool, grow, Pool.mk.injEq, true_and]
    exact funext hndx
  refine ⟨⟨?_, ?_, ?_, ?_⟩, hpool, hold⟩
  · rw [hpool]
    refine grow_ok h.ok ha.nodup ?_ ?_
    · intro p hp hmem
      have hsome := (h.mem p).mp hmem
      rw [(ha.new p hp).1] at hsome
      cases hsome
    · intro p hp
      simp [Conns.pool, Conns.ndx, (ha.new p hp).1]
  · simp [h.size, ha.length]
  · intro p
    rw [List.mem_append, h.mem p]
    by_cases hmem : p ∈ ps
    · simp [hmem, (ha.new p hmem).2]
    · simp [hmem, ha.old p hmem]
  · intro p hp
    by_cases hmem : p ∈ ps
    · exact ha.lt p hmem
    · have hlt := h.fresh p (ha.old p hmem ▸ hp)
      exact Nat.lt_of_lt_of_le hlt (ha.fresh ▸ Nat.le_add_right _ _)

/-- There is room for one more connection, and nothing else has changed for the connections. -/
theorem ensureRoom_spec (h : Tidy s) :
    Tidy (ensureRoom s) ∧ (ensureRoom s).cm.used < (ensureRoom s).cm.ptr.length ∧
      (∀ p, (ensureRoom s).Active p ↔ s.Active p) ∧
      ∀ p, (s.heap p).isSome → (ensureRoom s).heap p = s.heap p := by
  have hle : s.cm.used ≤ s.cm.ptr.length := h.ok.used_le
  have hsize := h.size
  have ha := allocConns_spec 128 s h.fresh
  have hgrow : ∀ s', s' = { (allocConns 128 s).2 with
        cm := ⟨s.cm.ptr ++ (allocConns 128 s).1, s.cm.size + 128, s.cm.used⟩ } →
      Tidy s' ∧ s'.cm.used < s'.cm.ptr.length ∧ (∀ p, s'.Active p ↔ s.Active p) ∧
        ∀ p, (s.heap p).isSome → s'.heap p = s.heap p := by
    intro s' hs'
    obtain ⟨htidy, hpool, hheap⟩ := grown_spec h ha hs'
    refine ⟨htidy, ?_, ?_, hheap⟩
    · have hlen := ha.length
      rw [hs']
      simp only [List.length_append]
      omega
    · intro p
      rw [Conns.Active, hpool]
      exact active_grow h.ok _
  unfold ensureRoom
  split
  · rename_i hzero
    refine hgrow _ ?_
    have hnil : s.cm.ptr = [] := List.length_eq_zero_iff.mp (hsize.trans hzero)
    simp [hnil, hzero, ha.cm]
  · split
    · refine hgrow _ ?_
      simp [ha.cm]
    · exact ⟨h, by omega, fun p => Iff.rfl, fun p _ => rfl⟩

/-! ## The calls -/

/-- What an addition does: one object that was not in use stands for the connection. -/
def Adds (s : Conns) (sock : Int) (bev : Option Bev) (s' : Conns) : Prop :=
  ∃ p, ¬ s.Active p ∧ (∀ q, s'.Active q ↔ s.Active q ∨ q = p) ∧
    (∃ c, s'.heap p = some c ∧ c.fd = sock ∧ c.bev = bev) ∧
    ∀ q, s.Active q → s'.heap q = s.heap q

/-- The socket, the bufferevent and the queues are the same. -/
def SameConn (c c' : Conn) : Prop :=
  c'.fd = c.fd ∧ c'.bev = c.bev ∧ c'.readQ = c.readQ ∧ c'.writeQ = c.writeQ

/-- What the deletion of a connection does: the object is no longer in use, its socket is
closed and its bufferevent freed, and the other connections keep theirs. -/
def Deletes (s : Conns) (p : ConnPtr) (s' : Conns) : Prop :=
  (∀ q, s'.Active q ↔ s.Active q ∧ q ≠ p) ∧
    (∃ c, s.heap p = some c ∧ s'.closed = c.fd :: s.closed ∧ s'.freed = c.bev :: s.freed) ∧
    ∀ q, q ≠ p → ∀ c, s.heap q = some c → ∃ c', s'.heap q = some c' ∧ SameConn c c'

theorem connMgrAddConn_spec (h : Tidy s) (sock : Int) (bev : Option Bev) :
    ∃ s', connMgrAddConn s sock bev = some s' ∧ Tidy s' ∧ Adds s sock bev s' := by
  obtain ⟨htidy, hroom, hact, hheap⟩ := ensureRoom_spec h
  generalize ht : ensureRoom s = t at htidy hroom hact hheap
  obtain ⟨p, hp⟩ : ∃ p, t.cm.ptr[t.cm.used]? = some p := ⟨_, List.getElem?_eq_getElem hroom⟩
  obtain ⟨c, hc⟩ := Option.isSome_iff_exists.mp ((htidy.mem p).mp (List.mem_of_getElem? hp))
  have hfree : ¬ t.Active p := not_active_of_free htidy.ok hp
  let c' : Conn := { c with ndx := t.cm.used, fd := sock, bev := bev }
  let s' : Conns := { t.set p c' with cm := { t.cm with used := t.cm.used + 1 } }
  have hndx : s'.ndx = Function.update t.ndx p t.cm.used := ndx_set t p c'
  have hpool : s'.pool = take t.pool p := by
    simp only [Conns.pool, take, hndx]
    rfl
  refine ⟨s', ?_, ⟨?_, htidy.size, ?_, ?_⟩, p, ?_, ?_, ⟨c', heap_set_self t p c', rfl, rfl⟩, ?_⟩
  · simp only [connMgrAddConn, ht, hp, hc, Option.bind_eq_bind, Option.bind_some, Option.pure_def]
    rfl
  · rw [hpool]
    exact take_ok htidy.ok hp
  · exact fun q => (htidy.mem q).trans (isSome_heap_set hc c' q).symm
  · exact fun q hq => htidy.fresh q ((isSome_heap_set hc c' q).mp hq)
  · rwa [← hact p]
  · intro q
    rw [Conns.Active, hpool, active_take hp]
    exact or_congr_left (hact q)
  · intro q hq
    have hqp : q ≠ p := fun hqp => hfree ((hact p).mpr (hqp ▸ hq))
    have hsome := (h.mem q).mp hq.mem
    exact (heap_set_of_ne hqp t c').trans (hheap q hsome)

/-- What `conn_reset` leaves of an object. -/
def Conn.reset (c : Conn) : Conn :=
  ⟨-1, -1, c.bev, chunkqueueReset c.readQ, chunkqueueReset c.writeQ⟩

theorem connReset_eq {c : Conn} (hc : s.heap p = some c) :
    connReset s p = some { s.set p c.reset with
      freed := c.bev :: s.freed
      closed := c.fd :: s.closed } := by
  simp only [connReset, hc, Option.bind_eq_bind, Option.bind_some, Option.pure_def]
  rfl

/-- A deletion is a release in the abstract pool. -/
theorem released_spec (h : Tidy s) {i : Nat} {q : ConnPtr} {c : Conn} (hc : s.heap p = some c)
    (hi : i < s.cm.used) (hp : s.cm.ptr[i]? = some p) (hq : s.cm.ptr[s.cm.used - 1]? = some q)
    (hpool : s'.pool = release s.pool i p q) (hsize : s'.cm.size = s.cm.size)
    (hfresh : s'.fresh = s.fresh) (hheap : ∀ r, (s'.heap r).isSome ↔ (s.heap r).isSome)
    (hsame : ∀ r, r ≠ p → ∀ d, s.heap r = some d → ∃ d', s'.heap r = some d' ∧ SameConn d d')
    (hclosed : s'.closed = c.fd :: s.closed) (hfreed : s'.freed = c.bev :: s.freed) :
    Tidy s' ∧ Deletes s p s' := by
  have hslots : s'.cm.ptr = (release s.pool i p q).slots := congrArg Pool.slots hpool
  refine ⟨⟨?_, ?_, ?_, ?_⟩, ?_, ⟨c, hc, hclosed, hfreed⟩, hsame⟩
  · rw [hpool]
    exact release_ok h.ok hi hp hq
  · rw [hslots, hsize, ← h.size]
    simp [release, Conns.pool]
  · intro r
    rw [hslots, mem_release h.ok hi hp hq, hheap r]
    exact h.mem r
  · intro r hr
    rw [hfresh]
    exact h.fresh r ((hheap r).mp hr)
  · intro r
    rw [Conns.Active, hpool]
    exact active_release h.ok hi hp hq

/-- The last connection in use is deleted. -/
theorem delLast_spec (h : Tidy s) {c : Conn} (hc : s.heap p = some c) (hpos : 0 < s.cm.used)
    (hp : s.cm.ptr[s.cm.used - 1]? = some p) (hs' : s' = { s.set p c.reset with
      cm := { s.cm with used := s.cm.used - 1 }
      freed := c.bev :: s.freed
      closed := c.fd :: s.closed }) : Tidy s' ∧ Deletes s p s' := by
  subst hs'
  refine released_spec h hc (by omega) hp hp ?_ rfl rfl (isSome_heap_set hc c.reset) ?_ rfl rfl
  · obtain ⟨hlt, hget⟩ := List.getElem?_eq_some_iff.mp hp
    have hslots : (s.cm.ptr.set (s.cm.used - 1) p).set (s.cm.used - 1) p = s.cm.ptr := by
      rw [List.set_set, ← hget]
      exact List.set_getElem_self hlt
    have hndx : Function.update (Function.update s.ndx p (s.cm.used - 1 : Nat)) p (-1) =
        Function.update s.ndx p (-1) := Function.update_idem _ _ _
    exact (congrArg₂ (fun l f => (⟨l, s.cm.used - 1, f⟩ : Pool ConnPtr)) hslots
      (hndx.trans (ndx_set s p c.reset).symm)).symm
  · intro r hr d hd
    exact ⟨d, (heap_set_of_ne hr s _).trans hd, rfl, rfl, rfl, rfl⟩

/-- A connection is deleted, and the last one moves into its slot. -/
theorem delSwap_spec (h : Tidy s) {i : Nat} {q : ConnPtr} {c d : Conn} (hc : s.heap p = some c)
    (hd : s.heap q = some d) (hi : i < s.cm.used) (hp : s.cm.ptr[i]? = some p)
    (hq : s.cm.ptr[s.cm.used - 1]? = some q) (hqp : q ≠ p)
    (hs' : s' = { (s.set q { d with ndx := i }).set p c.reset with
      cm := { s.cm with ptr := (s.cm.ptr.set i q).set (s.cm.used - 1) p, used := s.cm.used - 1 }
      freed := c.bev :: s.freed
      closed := c.fd :: s.closed }) : Tidy s' ∧ Deletes s p s' := by
  subst hs'
  have hc' : (s.set q { d with ndx := i }).heap p = some c :=
    (heap_set_of_ne hqp.symm s _).trans hc
  refine released_spec h hc hi hp hq ?_ rfl rfl ?_ ?_ rfl rfl
  · have hndx := ndx_set (s.set q { d with ndx := i }) p c.reset
    rw [ndx_set s q] at hndx
    exact congrArg (Pool.mk ((s.cm.ptr.set i q).set (s.cm.used - 1) p) (s.cm.used - 1)) hndx
  · intro r
    exact (isSome_heap_set hc' c.reset r).trans (isSome_heap_set hd _ r)
  · intro r hr e he
    by_cases hrq : r = q
    · subst hrq
      rw [hd] at he
      cases he
      exact ⟨_, (heap_set_of_ne hr _ _).trans (heap_set_self s _ _), rfl, rfl, rfl, rfl⟩
    · exact ⟨e, ((heap_set_of_ne hr _ _).trans (heap_set_of_ne hrq s _)).trans he, rfl, rfl, rfl,
        rfl⟩

theorem connMgrDelConn_spec (h : Tidy s) (hact : s.Active p) :
    ∃ s', connMgrDelConn s p = some s' ∧ Tidy s' ∧ Deletes s p s' := by
  obtain ⟨i, hi, hp⟩ := hact
  change i < s.cm.used at hi
  change s.cm.ptr[i]? = some p at hp
  have hle : s.cm.used ≤ s.cm.ptr.length := h.ok.used_le
  obtain ⟨c, hc⟩ := Option.isSome_iff_exists.mp ((h.mem p).mp (List.mem_of_getElem? hp))
  have hcndx : c.ndx = i := by
    have hindex : s.ndx p = if i < s.cm.used then (i : Int) else -1 := h.ok.index i p hp
    rw [if_pos hi] at hindex
    simpa [Conns.ndx, hc] using hindex
  have hne : ¬ c.ndx = -1 := by omega
  by_cases hlast : i = s.cm.used - 1
  · have hcond : c.ndx = s.cm.used - 1 := by omega
    have hreset := connReset_eq (heap_set_self s p { c with ndx := -1 })
    obtain ⟨htidy, hdel⟩ := delLast_spec h hc (by omega) (hlast ▸ hp) rfl
    refine ⟨_, ?_, htidy, hdel⟩
    simp only [connMgrDelConn, hc, Option.bind_eq_bind, Option.bind_some, if_neg hne,
      if_pos hcond, hreset]
    simp [Conns.set, Conn.reset]
  · have hcond : ¬ c.ndx = s.cm.used - 1 := by omega
    obtain ⟨q, hq⟩ : ∃ q, s.cm.ptr[s.cm.used - 1]? = some q :=
      ⟨_, List.getElem?_eq_getElem (by omega)⟩
    have hqp : q ≠ p := fun hqp => hlast (h.ok.slot_inj hp (hqp ▸ hq))
    obtain ⟨d, hd⟩ := Option.isSome_iff_exists.mp ((h.mem q).mp (List.mem_of_getElem? hq))
    obtain ⟨htidy, hdel⟩ := delSwap_spec h hc hd hi hp hq hqp rfl
    refine ⟨_, ?_, htidy, hdel⟩
    have hc' : (s.set q { d with ndx := c.ndx }).heap p = some c :=
      (heap_set_of_ne hqp.symm s _).trans hc
    simp only [connMgrDelConn, hc, Option.bind_eq_bind, Option.bind_some, if_neg hne,
      if_neg hcond, hq, hd, hc']
    refine (connReset_eq (c := { c with ndx := -1 }) ?_).trans ?_
    · exact heap_set_self _ _ _
    · simp [Conns.set, Conn.reset, hcndx]

theorem connMgrDelConn_inactive (h : Tidy s) (hmem : p ∈ s.cm.ptr) (hact : ¬ s.Active p) :
    connMgrDelConn s p = some s := by
  obtain ⟨c, hc⟩ := Option.isSome_iff_exists.mp ((h.mem p).mp hmem)
  have hndx : s.ndx p = -1 := by
    by_contra hne
    exact hact ((h.ok.active_iff hmem).mpr hne)
  have hcndx : c.ndx = -1 := by simpa [Conns.ndx, hc] using hndx
  simp [connMgrDelConn, hc, hcndx]

/-! ## Runs -/

/-- The invariant of the pool: `used` does not exceed `size`, the slots hold every allocated
object once, and the objects in use, and only they, know their slots. -/
structure PoolOk (s : Conns) : Prop where
  used_le : s.cm.used ≤ s.cm.size
  size : s.cm.ptr.length = s.cm.size
  nodup : s.cm.ptr.Nodup
  mem : ∀ p, p ∈ s.cm.ptr ↔ (s.heap p).isSome
  ndx : ∀ i p c, s.cm.ptr[i]? = some p → s.heap p = some c →
    c.ndx = if i < s.cm.used then (i : Int) else -1

/-- What a call has to do, a deletion with an object of the pool. -/
def CallOk (s : Conns) : PoolAct → Prop
  | .add sock bev => ∃ s', poolStep s (.add sock bev) = some s' ∧ Adds s sock bev s'
  | .del p => p ∈ s.cm.ptr →
    (s.Active p → ∃ s', poolStep s (.del p) = some s' ∧ Deletes s p s') ∧
      (¬ s.Active p → poolStep s (.del p) = some s)

theorem Tidy.poolOk (h : Tidy s) : PoolOk s where
  used_le := h.size ▸ h.ok.used_le
  size := h.size
  nodup := h.ok.nodup
  mem := h.mem
  ndx := by
    intro i p c hp hc
    have hindex : s.ndx p = if i < s.cm.used then (i : Int) else -1 := h.ok.index i p hp
    simpa [Conns.ndx, hc] using hindex

theorem tidy_poolStart : Tidy poolStart where
  ok := ⟨List.nodup_nil, Nat.le_refl _, fun i a ha => by cases ha⟩
  size := rfl
  mem := by simp [poolStart, connMgrNew]
  fresh := by simp [poolStart]

theorem Tidy.poolStep {a : PoolAct} (h : Tidy s) (hs : poolStep s a = some s') : Tidy s' := by
  cases a with
  | add sock bev =>
    obtain ⟨t, ht, htidy, -⟩ := connMgrAddConn_spec h sock bev
    cases ht.symm.trans hs
    exact htidy
  | del p =>
    obtain ⟨c, hc, -⟩ := Option.bind_eq_some_iff.mp hs
    have hmem : p ∈ s.cm.ptr := (h.mem p).mpr (by simp [hc])
    by_cases hact : s.Active p
    · obtain ⟨t, ht, htidy, -⟩ := connMgrDelConn_spec h hact
      cases ht.symm.trans hs
      exact htidy
    · cases (connMgrDelConn_inactive h hmem hact).symm.trans hs
      exact h

theorem Tidy.callOk (h : Tidy s) (a : PoolAct) : CallOk s a := by
  cases a with
  | add sock bev =>
    obtain ⟨t, ht, -, hadds⟩ := connMgrAddConn_spec h sock bev
    exact ⟨t, ht, hadds⟩
  | del p =>
    intro hmem
    constructor
    · intro hact
      obtain ⟨t, ht, -, hdel⟩ := connMgrDelConn_spec h hact
      exact ⟨t, ht, hdel⟩
    · exact connMgrDelConn_inactive h hmem

end Donkeyji.MultiProgress
