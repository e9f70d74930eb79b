/-
Donkeyji.ServerMaps.ClientTableTheorems — when the client table is kept.

The table refines `SwapPool`: an addition puts a new element into the first
free slot, and the deletion of a client that is not in the last used slot
releases its element. `Tidy` is the invariant. The deletion of the client in
the last used slot resets the object behind it, or reads beyond the table, and
leaves the client its index (`del_last_wrong`).
-/
import Donkeyji.Lib.Runs
import Donkeyji.Lib.SwapPool
import Donkeyji.ServerMaps.ClientTable

namespace Donkeyji.ServerMaps

open Memory Runs SwapPool

/-! ## What is right -/

/-- Every used slot has a client that knows it, and every active client has one used slot. -/
structure ClientTable.TableOk (cm : ClientTable) : Prop where
  idx : ∀ i < cm.used, ∃ c n, cm.ptr[i]? = some c ∧ cm.heap c = some n ∧ n.idx = i
  one : ∀ c, cm.Active c → ∃! i, i < cm.used ∧ cm.ptr[i]? = some c

/-- The socket and the buffers of a client are the same. -/
def SameClient (cm cm' : ClientTable) (c : Nat) : Prop :=
  ∃ n n', cm.heap c = some n ∧ cm'.heap c = some n' ∧ n'.sock = n.sock ∧ n'.wbuf = n.wbuf ∧
    n'.rbuf = n.rbuf

/-- A client that was reset. -/
def ClientTable.IsReset (cm : ClientTable) (c : Nat) : Prop :=
  ∃ n, cm.heap c = some n ∧ n.idx = -1 ∧ n.srvIdx = -1 ∧ n.sock = -1 ∧ n.wbuf.used = 0 ∧
    n.rbuf.used = 0

/-- A call is right: it stays inside the table, which is in order after it. An addition leaves
the other clients alone, a deletion resets the client and no other, or does nothing to a client
that is not active. -/
def ClientCallOk (cm : ClientTable) (call : ClientCall) : Prop :=
  ∃ cm', clientStep cm call = some cm' ∧ cm'.TableOk ∧ match call with
    | .add _ _ => ∀ d, cm.Active d → SameClient cm cm' d
    | .del c =>
      (cm.Active c → cm'.IsReset c ∧ ∀ d, cm.Active d → d ≠ c → SameClient cm cm' d) ∧
        (¬ cm.Active c → cm' = cm)
    | .change _ _ _ => True

/-- An active client that is deleted is not in the last used slot; and an `int` can number a
client that is added. -/
def ClientTable.NotLast (cm : ClientTable) : ClientCall → Prop
  | .add _ _ => cm.used < 2 ^ 31
  | .del c => cm.Active c → cm.ptr[cm.used - 1]? ≠ some c
  | .change _ _ _ => True

/-! ## The invariant -/

/-- The index that an object has in the pool. -/
def ClientTable.index (cm : ClientTable) (c : Nat) : Int := (cm.heap c).elim (-1) Client.idx

/-- The abstract pool. -/
def ClientTable.pool (cm : ClientTable) : Pool Nat := ⟨cm.ptr, cm.used, cm.index⟩

/-- The slots hold objects; the active clients, and only they among those added, are in use. -/
structure ClientTable.Tidy (cm : ClientTable) : Prop where
  ok : Ok cm.pool
  size : cm.ptr.length = cm.size
  live : ∀ c ∈ cm.ptr, (cm.heap c).isSome
  fresh : ∀ c, (cm.heap c).isSome → c < cm.fresh
  added : ∀ c ∈ cm.added, (cm.heap c).isSome
  active : ∀ c ∈ cm.added, c ∉ cm.deleted ↔ SwapPool.Active cm.pool c
  deleted : ∀ c ∈ cm.deleted, c ∈ cm.added
  gone : ∀ c ∈ cm.deleted, cm.index c = -1
  bound : cm.used ≤ 2 ^ 31

variable {cm cm' : ClientTable} {c : Nat}

theorem clientMgrNew_tidy : connClientMgrNew.Tidy where
  ok := ⟨List.nodup_nil, Nat.le_refl _, fun i a ha => by cases ha⟩
  size := rfl
  live := fun c hc => by cases hc
  fresh := fun c hc => by cases hc
  added := fun c hc => by cases hc
  active := fun c hc => by cases hc
  deleted := fun c hc => by cases hc
  gone := fun c hc => by cases hc
  bound := Nat.zero_le _

@[simp] theorem clientHeap_set_self (cm : ClientTable) (c : Nat) (n : Client) :
    (cm.set c n).heap c = some n := Function.update_self c _ _

theorem clientHeap_set_of_ne {d : Nat} (h : d ≠ c) (cm : ClientTable) (n : Client) :
    (cm.set c n).heap d = cm.heap d := Function.update_of_ne h _ _

theorem index_set (cm : ClientTable) (c : Nat) (n : Client) :
    (cm.set c n).index = Function.update cm.index c n.idx := by
  funext d
  by_cases hd : d = c
  · subst hd
    simp [ClientTable.index]
  · simp [ClientTable.index, clientHeap_set_of_ne hd, hd]

theorem isSome_clientHeap_set {n : Client} (hn : cm.heap c = some n) (n' : Client)
    (d : Nat) : ((cm.set c n').heap d).isSome ↔ (cm.heap d).isSome := by
  by_cases hd : d = c
  · subst hd
    simp [hn]
  · rw [clientHeap_set_of_ne hd]

/-- No object is at an address that is not used yet. -/
theorem ClientTable.Tidy.none_of_fresh (h : cm.Tidy) (hc : cm.fresh ≤ c) : cm.heap c = none := by
  cases hheap : cm.heap c with
  | none => rfl
  | some n =>
    have hlt := h.fresh c (by simp [hheap])
    omega

/-- The object in a used slot knows the slot. -/
theorem ClientTable.Tidy.heap_of_slot (h : cm.Tidy) {i : Nat} (hi : i < cm.used)
    (hslot : cm.ptr[i]? = some c) : ∃ n, cm.heap c = some n ∧ n.idx = i := by
  obtain ⟨n, hn⟩ := Option.isSome_iff_exists.mp (h.live c (List.mem_of_getElem? hslot))
  have hindex : cm.index c = if i < cm.used then (i : Int) else -1 := h.ok.index i c hslot
  rw [if_pos hi, ClientTable.index, hn] at hindex
  exact ⟨n, hn, hindex⟩

/-- The table of a tidy state is in order. -/
theorem ClientTable.Tidy.tableOk (h : cm.Tidy) : cm.TableOk := by
  have hle : cm.used ≤ cm.ptr.length := h.ok.used_le
  constructor
  · intro i hi
    obtain ⟨c, hc⟩ : ∃ c, cm.ptr[i]? = some c := ⟨_, List.getElem?_eq_getElem (by omega)⟩
    obtain ⟨n, hn, hidx⟩ := h.heap_of_slot hi hc
    exact ⟨c, n, hc, hn, hidx⟩
  · intro c hc
    obtain ⟨i, hi, hslot⟩ := (h.active c hc.1).mp hc.2
    refine ⟨i, ⟨hi, hslot⟩, ?_⟩
    rintro j ⟨-, hj⟩
    exact h.ok.slot_inj hj hslot

/-- The object of an active client, and its slot. -/
theorem ClientTable.Tidy.slot (h : cm.Tidy) (hc : cm.Active c) :
    ∃ i n, i < cm.used ∧ cm.ptr[i]? = some c ∧ cm.heap c = some n ∧ n.idx = i := by
  obtain ⟨i, hi, hslot⟩ := (h.active c hc.1).mp hc.2
  obtain ⟨n, hn, hidx⟩ := h.heap_of_slot hi hslot
  exact ⟨i, n, hi, hslot, hn, hidx⟩

theorem SameClient.of_heap (hc : (cm.heap c).isSome) (h : cm'.heap c = cm.heap c) :
    SameClient cm cm' c := by
  obtain ⟨n, hn⟩ := Option.isSome_iff_exists.mp hc
  exact ⟨n, n, hn, h.trans hn, rfl, rfl, rfl⟩

/-! ## Additions -/

/-- New objects do not change the old ones. -/
theorem alloc_heap (h : cm.Tidy) (n : Nat) (hc : (cm.heap c).isSome) :
    (cm.alloc n).heap c = cm.heap c := by
  have hlt := h.fresh c hc
  exact if_neg (by omega)

/-- New objects have no index. -/
theorem alloc_index (h : cm.Tidy) (n : Nat) : (cm.alloc n).index = cm.index := by
  funext c
  unfold ClientTable.index
  by_cases hnew : cm.fresh ≤ c ∧ c < cm.fresh + n
  · have hself : (cm.alloc n).heap c = some connClientNew := if_pos hnew
    rw [hself, h.none_of_fresh hnew.1]
    rfl
  · have hother : (cm.alloc n).heap c = cm.heap c := if_neg hnew
    rw [hother]

theorem isSome_alloc (h : cm.Tidy) (n : Nat) :
    ((cm.alloc n).heap c).isSome → c < cm.fresh + n := by
  intro hc
  by_cases hnew : cm.fresh ≤ c ∧ c < cm.fresh + n
  · exact hnew.2
  · have hother : (cm.alloc n).heap c = cm.heap c := if_neg hnew
    rw [hother] at hc
    have hlt := h.fresh c hc
    omega

/-- The table grows by new objects. -/
theorem grow_tidy (h : cm.Tidy) (n : Nat) (hcm' : cm' = { cm.alloc n with
    size := cm.size + n, ptr := cm.ptr ++ List.range' cm.fresh n }) : cm'.Tidy := by
  have hpool : cm'.pool = grow cm.pool (List.range' cm.fresh n) := by
    have hindex : cm'.index = cm.index := by
      subst hcm'
      exact alloc_index h n
    subst hcm'
    simp only [ClientTable.pool, grow, Pool.mk.injEq]
    exact ⟨trivial, rfl, hindex⟩
  have hnew : ∀ c ∈ List.range' cm.fresh n, cm.fresh ≤ c ∧ c < cm.fresh + n := by
    intro c hc
    obtain ⟨h1, h2⟩ := List.mem_range'_1.mp hc
    exact ⟨h1, h2⟩
  have hnone : ∀ c ∈ List.range' cm.fresh n, cm.heap c = none := fun c hc =>
    h.none_of_fresh (hnew c hc).1
  have hheap : ∀ c, (cm.heap c).isSome → cm'.heap c = cm.heap c := by
    subst hcm'
    exact fun c hc => alloc_heap h n hc
  refine ⟨?_, ?_, ?_, ?_, ?_, ?_, ?_, ?_, ?_⟩
  · rw [hpool]
    refine grow_ok h.ok List.nodup_range' ?_ ?_
    · intro c hc hmem
      have hlive := h.live c hmem
      rw [hnone c hc] at hlive
      cases hlive
    · intro c hc
      simp [ClientTable.pool, ClientTable.index, hnone c hc]
  · subst hcm'
    simp [h.size]
  · intro c hc
    have hmem : c ∈ cm.ptr ∨ c ∈ List.range' cm.fresh n := by
      subst hcm'
      exact List.mem_append.mp hc
    rcases hmem with hold | hnewc
    · rw [hheap c (h.live c hold)]
      exact h.live c hold
    · subst hcm'
      have hself : (cm.alloc n).heap c = some connClientNew := if_pos (hnew c hnewc)
      show ((cm.alloc n).heap c).isSome = true
      rw [hself]
      rfl
  · intro c hc
    subst hcm'
    exact isSome_alloc h n hc
  · intro c hc
    have hcm : c ∈ cm.added := by
      subst hcm'
      exact hc
    rw [hheap c (h.added c hcm)]
    exact h.added c hcm
  · intro c hc
    subst hcm'
    rw [hpool, active_grow h.ok]
    exact h.active c hc
  · intro c hc
    subst hcm'
    exact h.deleted c hc
  · intro c hc
    subst hcm'
    exact (congrFun (alloc_index h n) c).trans (h.gone c hc)
  · subst hcm'
    exact h.bound

/-- There is room for one more client, and the objects are the same. -/
theorem ensureRoom_spec (h : cm.Tidy) :
    cm.ensureRoom.Tidy ∧ cm.ensureRoom.used < cm.ensureRoom.ptr.length ∧
      cm.ensureRoom.used = cm.used ∧ cm.ensureRoom.added = cm.added ∧
      cm.ensureRoom.deleted = cm.deleted ∧ (∀ c ∈ cm.ensureRoom.ptr, c ∈ cm.ptr ∨ cm.fresh ≤ c) ∧
      ∀ c, (cm.heap c).isSome → cm.ensureRoom.heap c = cm.heap c := by
  have hle : cm.used ≤ cm.ptr.length := h.ok.used_le
  have hsize := h.size
  have hgrow : ∀ cm', cm' = { cm.alloc 128 with
        size := cm.size + 128, ptr := cm.ptr ++ List.range' cm.fresh 128 } →
      cm'.Tidy ∧ cm'.used < cm'.ptr.length ∧ cm'.used = cm.used ∧ cm'.added = cm.added ∧
        cm'.deleted = cm.deleted ∧ (∀ c ∈ cm'.ptr, c ∈ cm.ptr ∨ cm.fresh ≤ c) ∧
        ∀ c, (cm.heap c).isSome → cm'.heap c = cm.heap c := by
    intro cm' hcm'
    have htidy := grow_tidy h 128 hcm'
    subst hcm'
    refine ⟨htidy, ?_, rfl, rfl, rfl, ?_, fun c hc => alloc_heap h 128 hc⟩
    · show cm.used < (cm.ptr ++ List.range' cm.fresh 128).length
      simp only [List.length_append, List.length_range']
      omega
    · intro c hc
      rcases List.mem_append.mp hc with hold | hnew
      · exact Or.inl hold
      · exact Or.inr (List.mem_range'_1.mp hnew).1
  unfold ClientTable.ensureRoom
  split
  · rename_i hzero
    have hnil : cm.ptr = [] := List.length_eq_zero_iff.mp (hsize.trans hzero)
    exact hgrow _ (by simp [hnil])
  · split
    · exact hgrow _ rfl
    · exact ⟨h, by omega, rfl, rfl, rfl, fun c hc => Or.inl hc, fun c _ => rfl⟩

/-- The new client of `conn_server_add_client`, before it is in the table. -/
theorem newClient_tidy (h : cm.Tidy) (n : Client) (hidx : n.idx = -1)
    (hcm' : cm' = (cm.alloc 1).set cm.fresh n) :
    cm'.Tidy ∧ (∀ c, (cm.heap c).isSome → cm'.heap c = cm.heap c) := by
  have hnone : cm.heap cm.fresh = none := h.none_of_fresh (Nat.le_refl _)
  have hheap : ∀ c, (cm.heap c).isSome → cm'.heap c = cm.heap c := by
    intro c hc
    have hne : c ≠ cm.fresh := by
      rintro rfl
      rw [hnone] at hc
      cases hc
    rw [hcm', clientHeap_set_of_ne hne, alloc_heap h 1 hc]
  have hindex : cm'.index = cm.index := by
    rw [hcm', index_set, alloc_index h 1, hidx, Function.update_eq_self_iff]
    rw [ClientTable.index, hnone]
    rfl
  have hpool : cm'.pool = cm.pool := by
    simp only [ClientTable.pool, hindex]
    rw [hcm']
    rfl
  have hptr : cm'.ptr = cm.ptr := congrArg Pool.slots hpool
  have hused : cm'.used = cm.used := congrArg Pool.used hpool
  have hadded : cm'.added = cm.added := by rw [hcm']; rfl
  have hdeleted : cm'.deleted = cm.deleted := by rw [hcm']; rfl
  refine ⟨⟨?_, ?_, ?_, ?_, ?_, ?_, ?_, ?_, ?_⟩, hheap⟩
  · rw [hpool]
    exact h.ok
  · rw [hptr, h.size, hcm']
    rfl
  · intro c hc
    rw [hptr] at hc
    rw [hheap c (h.live c hc)]
    exact h.live c hc
  · intro c hc
    have hfresh : cm'.fresh = cm.fresh + 1 := by rw [hcm']; rfl
    rw [hfresh]
    by_cases hcf : c = cm.fresh
    · omega
    · rw [hcm', clientHeap_set_of_ne hcf] at hc
      exact isSome_alloc h 1 hc
  · intro c hc
    rw [hadded] at hc
    rw [hheap c (h.added c hc)]
    exact h.added c hc
  · intro c hc
    rw [hadded] at hc
    rw [hpool, hdeleted]
    exact h.active c hc
  · intro c hc
    rw [hdeleted] at hc
    rw [hadded]
    exact h.deleted c hc
  · intro c hc
    rw [hdeleted] at hc
    rw [hindex]
    exact h.gone c hc
  · rw [hused]
    exact h.bound

/-- What `conn_client_mgr_add` does. -/
theorem connClientMgrAdd_eq {n : Client} (h : cm.Tidy) (hn : cm.heap c = some n) :
    connClientMgrAdd cm c = some { cm.ensureRoom.set c { n with idx := wrap32 cm.used } with
      ptr := cm.ensureRoom.ptr.set cm.used c, used := cm.used + 1 } := by
  obtain ⟨-, hroom, hused, -, -, -, hheap⟩ := ensureRoom_spec h
  have hlen : ∀ m, (cm.ensureRoom.set c m).ptr = cm.ensureRoom.ptr := fun m => rfl
  have hsame : ∀ m, (cm.ensureRoom.set c m).used = cm.ensureRoom.used := fun m => rfl
  rw [hused] at hroom
  simp only [connClientMgrAdd, hheap c (by simp [hn]), hn, Option.bind_eq_bind, Option.bind_some,
    hlen, hsame, hused]
  rw [if_pos hroom]
  rfl

/-- A client put into the first free slot. -/
theorem insert_tidy {n : Client} (h : cm.Tidy) (hroom : cm.used < cm.ptr.length)
    (hn : cm.heap c = some n) (hidx : n.idx = -1) (hptr : c ∉ cm.ptr) (hadded : c ∉ cm.added)
    (hused : cm.used < 2 ^ 31) (hcm' : cm' = { cm.set c { n with idx := cm.used } with
      ptr := cm.ptr.set cm.used c, used := cm.used + 1, added := cm.added ++ [c] }) :
    cm'.Tidy := by
  have hindex : cm.pool.index c = -1 := by
    show cm.index c = -1
    rw [ClientTable.index, hn]
    exact hidx
  have hindex' : cm'.index = Function.update cm.index c cm.used := by
    subst hcm'
    exact index_set cm c { n with idx := cm.used }
  have hpool : cm'.pool = put cm.pool c := by
    subst hcm'
    simp only [ClientTable.pool, put, take, hindex']
  subst hcm'
  have hsome : ∀ d, ((cm.set c { n with idx := cm.used }).heap d).isSome ↔ (cm.heap d).isSome :=
    isSome_clientHeap_set hn _
  have hdeleted : c ∉ cm.deleted := fun hc => hadded (h.deleted c hc)
  refine ⟨?_, ?_, ?_, ?_, ?_, ?_, ?_, ?_, ?_⟩
  · rw [hpool]
    exact put_ok h.ok hroom hptr hindex
  · simp [h.size, ClientTable.set]
  · intro d hd
    refine (hsome d).mpr ?_
    rcases List.mem_or_eq_of_mem_set hd with hold | rfl
    · exact h.live d hold
    · simp [hn]
  · intro d hd
    exact h.fresh d ((hsome d).mp hd)
  · intro d hd
    refine (hsome d).mpr ?_
    rcases List.mem_append.mp hd with hold | hnew
    · exact h.added d hold
    · rw [List.mem_singleton.mp hnew]
      simp [hn]
  · intro d hd
    rw [hpool, active_put hroom]
    show d ∉ cm.deleted ↔ _
    rcases List.mem_append.mp hd with hold | hnew
    · have hne : d ≠ c := fun heq => hadded (heq ▸ hold)
      simp only [hne, or_false]
      exact h.active d hold
    · simp [List.mem_singleton.mp hnew, hdeleted]
  · intro d hd
    exact List.mem_append_left _ (h.deleted d hd)
  · intro d hd
    have hne : d ≠ c := fun heq => hdeleted (heq ▸ hd)
    rw [hindex', Function.update_of_ne hne]
    exact h.gone d hd
  · show cm.used + 1 ≤ 2 ^ 31
    omega

/-- **An addition** puts the new client into the first free slot, and leaves the others alone. -/
theorem add_spec (h : cm.Tidy) (srvIdx fd : Int) :
    ∃ cm' n, clientStep cm (.add srvIdx fd) = some cm' ∧
      (∀ d, cm.Active d → SameClient cm cm' d) ∧ cm'.used = cm.used + 1 ∧
      cm'.ptr[cm.used]? = some cm.fresh ∧ cm'.heap cm.fresh = some n ∧
      n.idx = wrap32 cm.used ∧ (cm.used < 2 ^ 31 → cm'.Tidy) := by
  obtain ⟨h1, hheap1⟩ := newClient_tidy h { connClientNew with srvIdx, sock := fd } rfl rfl
  have hself := clientHeap_set_self (cm.alloc 1) cm.fresh { connClientNew with srvIdx, sock := fd }
  have hadd := connClientMgrAdd_eq h1 hself
  generalize hcm1 : (cm.alloc 1).set cm.fresh { connClientNew with srvIdx, sock := fd } = cm1
    at h1 hheap1 hself hadd
  have hused1 : cm1.used = cm.used := by rw [← hcm1]; rfl
  have hptr1 : cm1.ptr = cm.ptr := by rw [← hcm1]; rfl
  have hadded1 : cm1.added = cm.added := by rw [← hcm1]; rfl
  have hfresh1 : cm1.fresh = cm.fresh + 1 := by rw [← hcm1]; rfl
  obtain ⟨h2, hroom, hused2, hadded2, -, hptr2, hheap2⟩ := ensureRoom_spec h1
  generalize hcm2 : cm1.ensureRoom = cm2 at h2 hroom hused2 hadded2 hptr2 hheap2 hadd
  have hself2 : cm2.heap cm.fresh = some { connClientNew with srvIdx, sock := fd } := by
    rw [hheap2 _ (by simp [hself]), hself]
  rw [hused1] at hadd hused2
  rw [hused2] at hroom
  have hnot : ∀ c, (cm.heap c).isSome → c ≠ cm.fresh := by
    rintro c hc rfl
    exact Nat.lt_irrefl _ (h.fresh _ hc)
  refine ⟨{ cm2.set cm.fresh { connClientNew with srvIdx, sock := fd, idx := wrap32 cm.used } with
      ptr := cm2.ptr.set cm.used cm.fresh, used := cm.used + 1, added := cm2.added ++ [cm.fresh] },
    { connClientNew with srvIdx, sock := fd, idx := wrap32 cm.used }, ?_, ?_, rfl,
    List.getElem?_set_self hroom, clientHeap_set_self cm2 cm.fresh _, rfl, ?_⟩
  · simp only [clientStep, connServerAddClient, hcm1, hadd, Option.map_some, Option.bind_eq_bind,
      Option.bind_some]
    rfl
  · intro d hd
    have hsome := h.added d hd.1
    have hsame : (cm2.set cm.fresh { connClientNew with
        srvIdx, sock := fd, idx := wrap32 cm.used }).heap d = cm.heap d := by
      rw [clientHeap_set_of_ne (hnot d hsome), hheap2 d (by rw [hheap1 d hsome]; exact hsome),
        hheap1 d hsome]
    exact SameClient.of_heap hsome hsame
  · intro hused
    have hwrap : wrap32 cm.used = cm.used := wrap32_of_bounds (by omega) (by omega)
    refine insert_tidy h2 (by omega) hself2 rfl ?_ ?_ (by omega) ?_
    · intro hmem
      rcases hptr2 _ hmem with hold | hnew
      · rw [hptr1] at hold
        exact hnot _ (h.live _ hold) rfl
      · omega
    · rw [hadded2, hadded1]
      exact fun hmem => hnot _ (h.added _ hmem) rfl
    · simp only [hused2, hwrap]

/-! ## Deletions -/

/-- The deletion of a client that is not active does nothing. -/
theorem del_inactive (h : cm.Tidy) (hadded : c ∈ cm.added) (hc : ¬ cm.Active c) :
    clientStep cm (.del c) = some cm := by
  have hdel : c ∈ cm.deleted := by
    by_contra hnot
    exact hc ⟨hadded, hnot⟩
  obtain ⟨n, hn⟩ := Option.isSome_iff_exists.mp (h.added c hadded)
  have hindex := h.gone c hdel
  rw [ClientTable.index, hn] at hindex
  have hidx : n.idx = -1 := hindex
  simp [clientStep, connClientMgrDel, hn, hidx, hdel]

/-- **The deletion of the client in the last used slot** does not reset it. -/
theorem del_last_wrong (h : cm.Tidy) (hc : cm.Active c) (hlast : cm.ptr[cm.used - 1]? = some c)
    (hstep : clientStep cm (.del c) = some cm') : ¬ cm'.IsReset c := by
  obtain ⟨i, n, hi, hslot, hn, hidx⟩ := h.slot hc
  have hbound := h.bound
  have hilast : i = cm.used - 1 := h.ok.slot_inj hslot hlast
  have hne : ¬ n.idx = -1 := by omega
  have hcond : toU64 n.idx = toU64 ((cm.used : Int) - 1) := by
    congr 1
    omega
  obtain ⟨cm1, hdel, hstep⟩ := Option.bind_eq_some_iff.mp hstep
  simp only [connClientMgrDel, hn, Option.bind_eq_bind, Option.bind_some, if_neg hne,
    if_pos hcond] at hdel
  obtain ⟨next, hnext, hdel⟩ := Option.bind_eq_some_iff.mp hdel
  obtain ⟨cm2, hreset, hdel⟩ := Option.bind_eq_some_iff.mp hdel
  obtain ⟨m, -, hreset⟩ := Option.bind_eq_some_iff.mp hreset
  -- the object behind is another one
  have hcnext : c ≠ next := by
    rintro rfl
    have := h.ok.slot_inj hslot hnext
    omega
  have hheap : cm'.heap c = some n := by
    cases hstep
    cases hdel
    cases hreset
    have hsame := (clientHeap_set_of_ne hcnext cm m.reset).trans hn
    split <;> exact hsame
  rintro ⟨n', hn', hidx', -⟩
  rw [hheap, Option.some.injEq] at hn'
  rw [← hn'] at hidx'
  exact hne hidx'

/-- The table after the deletion of the client `c` in the slot `i`, where `q` was in the last used
slot. -/
def ClientTable.swapped (cm : ClientTable) (i c q : Nat) (n m : Client) : ClientTable :=
  { (cm.set q { m with idx := n.idx }).set c n.reset with
    ptr := (cm.ptr.set i q).set (cm.used - 1) c
    used := cm.used - 1
    deleted := cm.deleted ++ [c] }

/-- What the deletion of an active client does that is not in the last used slot. -/
theorem del_swap_eq {i q : Nat} {n m : Client} (hi : i < cm.used) (hused : cm.used ≤ 2 ^ 31)
    (hc : c ∉ cm.deleted) (hslot : cm.ptr[i]? = some c) (hn : cm.heap c = some n)
    (hidx : n.idx = i) (hq : cm.ptr[cm.used - 1]? = some q) (hm : cm.heap q = some m)
    (hqc : q ≠ c) : clientStep cm (.del c) = some (cm.swapped i c q n m) := by
  have hilast : i ≠ cm.used - 1 := by
    rintro rfl
    exact hqc (Option.some.inj (hq.symm.trans hslot))
  have hne : ¬ n.idx = -1 := by omega
  have hcond : ¬ toU64 n.idx = toU64 ((cm.used : Int) - 1) := by
    rw [toU64_of_bounds (by omega) (by omega), toU64_of_bounds (by omega) (by omega)]
    omega
  have htoNat : n.idx.toNat = i := by omega
  have hn1 : (ClientTable.set { cm with ptr := cm.ptr.set i q } q { m with idx := n.idx }).heap c =
      some n := (clientHeap_set_of_ne hqc.symm cm _).trans hn
  have hdel : connClientMgrDel cm c =
      some { cm.swapped i c q n m with deleted := cm.deleted } := by
    simp only [connClientMgrDel, hn, Option.bind_eq_bind, Option.bind_some, if_neg hne,
      if_neg hcond, hq, htoNat, hslot, hm, connClientReset]
    rw [hn1]
    rfl
  simp only [clientStep, hdel, Option.bind_eq_bind, Option.bind_some, if_neg hc]
  rfl

/-- An active client has an index, so one that was deleted is in no used slot. -/
theorem ClientTable.Tidy.not_deleted (h : cm.Tidy) {i : Nat} (hi : i < cm.used)
    (hslot : cm.ptr[i]? = some c) : c ∉ cm.deleted := by
  intro hc
  obtain ⟨n, hn, hidx⟩ := h.heap_of_slot hi hslot
  have hgone := h.gone c hc
  rw [ClientTable.index, hn] at hgone
  have hidx' : n.idx = -1 := hgone
  omega

/-- The deletion releases the element in the pool. -/
theorem swapped_tidy {i q : Nat} {n m : Client} (h : cm.Tidy) (hi : i < cm.used)
    (hadded : c ∈ cm.added) (hslot : cm.ptr[i]? = some c) (hn : cm.heap c = some n)
    (hidx : n.idx = i) (hq : cm.ptr[cm.used - 1]? = some q) (hm : cm.heap q = some m)
    (hqc : q ≠ c) : (cm.swapped i c q n m).Tidy := by
  have hn' : (cm.set q { m with idx := n.idx }).heap c = some n :=
    (clientHeap_set_of_ne hqc.symm cm _).trans hn
  have hsome : ∀ d, ((cm.swapped i c q n m).heap d).isSome ↔ (cm.heap d).isSome := fun d =>
    (isSome_clientHeap_set hn' n.reset d).trans (isSome_clientHeap_set hm _ d)
  have hindex : (cm.swapped i c q n m).index =
      Function.update (Function.update cm.index q i) c (-1) := by
    have hset := index_set (cm.set q { m with idx := n.idx }) c n.reset
    rw [index_set cm q] at hset
    refine hset.trans ?_
    rw [hidx]
    rfl
  have hpool : (cm.swapped i c q n m).pool = release cm.pool i c q :=
    congrArg (Pool.mk ((cm.ptr.set i q).set (cm.used - 1) c) (cm.used - 1)) hindex
  have hbound := h.bound
  refine ⟨?_, ?_, ?_, ?_, ?_, ?_, ?_, ?_, ?_⟩
  · rw [hpool]
    exact release_ok h.ok hi hslot hq
  · show ((cm.ptr.set i q).set (cm.used - 1) c).length = cm.size
    rw [List.length_set, List.length_set, h.size]
  · intro d hd
    exact (hsome d).mpr (h.live d ((mem_release h.ok hi hslot hq).mp hd))
  · intro d hd
    exact h.fresh d ((hsome d).mp hd)
  · intro d hd
    exact (hsome d).mpr (h.added d hd)
  · intro d hd
    rw [hpool, active_release h.ok hi hslot hq, ← h.active d hd]
    show d ∉ cm.deleted ++ [c] ↔ _
    rw [List.mem_append, List.mem_singleton, not_or]
  · intro d hd
    rcases List.mem_append.mp hd with hold | hnew
    · exact h.deleted d hold
    · rw [List.mem_singleton.mp hnew]
      exact hadded
  · intro d hd
    rw [hindex]
    rcases List.mem_append.mp hd with hold | hnew
    · have hdc : d ≠ c := by
        rintro rfl
        exact h.not_deleted hi hslot hold
      have hdq : d ≠ q := by
        rintro rfl
        exact h.not_deleted (by omega) hq hold
      rw [Function.update_of_ne hdc, Function.update_of_ne hdq, h.gone d hold]
    · rw [List.mem_singleton.mp hnew, Function.update_self]
  · show cm.used - 1 ≤ 2 ^ 31
    omega

/-- **The deletion of another active client** resets it and leaves the other clients alone. -/
theorem del_swap_spec (h : cm.Tidy) (hc : cm.Active c) (hlast : cm.ptr[cm.used - 1]? ≠ some c) :
    ∃ cm', clientStep cm (.del c) = some cm' ∧ cm'.Tidy ∧ cm'.IsReset c ∧
      ∀ d, cm.Active d → d ≠ c → SameClient cm cm' d := by
  obtain ⟨i, n, hi, hslot, hn, hidx⟩ := h.slot hc
  have hle : cm.used ≤ cm.ptr.length := h.ok.used_le
  obtain ⟨q, hq⟩ : ∃ q, cm.ptr[cm.used - 1]? = some q :=
    ⟨_, List.getElem?_eq_getElem (by omega)⟩
  have hqc : q ≠ c := fun heq => hlast (heq ▸ hq)
  obtain ⟨m, hm⟩ := Option.isSome_iff_exists.mp (h.live q (List.mem_of_getElem? hq))
  have hself : (cm.swapped i c q n m).heap c = some n.reset := clientHeap_set_self _ c n.reset
  refine ⟨_, del_swap_eq hi h.bound hc.2 hslot hn hidx hq hm hqc,
    swapped_tidy h hi hc.1 hslot hn hidx hq hm hqc,
    ⟨n.reset, hself, rfl, rfl, rfl, rfl, rfl⟩, ?_⟩
  intro d hd hdc
  by_cases hdq : d = q
  · subst hdq
    have hmoved : (cm.swapped i c d n m).heap d = some { m with idx := n.idx } :=
      (clientHeap_set_of_ne hdc _ _).trans (clientHeap_set_self cm d _)
    exact ⟨m, { m with idx := n.idx }, hm, hmoved, rfl, rfl, rfl⟩
  · have hother : (cm.swapped i c q n m).heap d = cm.heap d :=
      (clientHeap_set_of_ne hdc _ _).trans (clientHeap_set_of_ne hdq cm _)
    exact SameClient.of_heap (h.added d hd.1) hother

/-! ## Runs -/

/-- A change of a client's buffers. -/
theorem change_spec (h : cm.Tidy) (hadded : c ∈ cm.added) (wbuf rbuf : Buffer) :
    ∃ cm', clientStep cm (.change c wbuf rbuf) = some cm' ∧ cm'.Tidy := by
  obtain ⟨n, hn⟩ := Option.isSome_iff_exists.mp (h.added c hadded)
  have hsome := isSome_clientHeap_set hn { n with wbuf, rbuf }
  have hindex : (cm.set c { n with wbuf, rbuf }).index = cm.index := by
    rw [index_set, Function.update_eq_self_iff, ClientTable.index, hn]
    rfl
  have hpool : (cm.set c { n with wbuf, rbuf }).pool = cm.pool :=
    congrArg (Pool.mk cm.ptr cm.used) hindex
  refine ⟨cm.set c { n with wbuf, rbuf }, by simp [clientStep, hn], ?_⟩
  refine ⟨?_, h.size, ?_, ?_, ?_, ?_, h.deleted, ?_, h.bound⟩
  · rw [hpool]
    exact h.ok
  · exact fun d hd => (hsome d).mpr (h.live d hd)
  · exact fun d hd => h.fresh d ((hsome d).mp hd)
  · exact fun d hd => (hsome d).mpr (h.added d hd)
  · intro d hd
    rw [hpool]
    exact h.active d hd
  · intro d hd
    rw [hindex]
    exact h.gone d hd

/-- **One call** is right exactly if it does not delete the client in the last used slot, nor add
one that an `int` cannot number. -/
theorem client_call_iff (h : cm.Tidy) (call : ClientCall) (hadm : cm.Admits call) :
    ClientCallOk cm call ↔ cm.NotLast call := by
  cases call with
  | add srvIdx fd =>
    obtain ⟨cm', n, hstep, hsame, hused, hslot, hn, hidx, htidy⟩ := add_spec h srvIdx fd
    constructor
    · rintro ⟨cm1, hstep1, hok, -⟩
      cases hstep.symm.trans hstep1
      obtain ⟨c, m, hc, hm, hmidx⟩ := hok.idx cm.used (by omega)
      cases hslot.symm.trans hc
      cases hn.symm.trans hm
      have hbounds := wrap32_bounds cm.used
      show cm.used < 2 ^ 31
      omega
    · intro hlt
      exact ⟨cm', hstep, (htidy hlt).tableOk, hsame⟩
  | del c =>
    by_cases hc : cm.Active c
    · constructor
      · rintro ⟨cm', hstep, -, hright⟩ - hlast
        exact del_last_wrong h hc hlast hstep (hright.1 hc).1
      · intro hnot
        obtain ⟨cm', hstep, htidy, hreset, hsame⟩ := del_swap_spec h hc (hnot hc)
        exact ⟨cm', hstep, htidy.tableOk, fun _ => ⟨hreset, hsame⟩, fun hnc => absurd hc hnc⟩
    · refine iff_of_true ?_ fun hactive => absurd hactive hc
      exact ⟨cm, del_inactive h hadm hc, h.tableOk, fun hactive => absurd hactive hc, fun _ => rfl⟩
  | change c wbuf rbuf =>
    obtain ⟨cm', hstep, htidy⟩ := change_spec h hadm wbuf rbuf
    exact iff_of_true ⟨cm', hstep, htidy.tableOk, trivial⟩ trivial

/-- A call that is right keeps the invariant. -/
theorem clientStep_tidy (h : cm.Tidy) (call : ClientCall) (hadm : cm.Admits call)
    (hnot : cm.NotLast call) (hstep : clientStep cm call = some cm') : cm'.Tidy := by
  cases call with
  | add srvIdx fd =>
    obtain ⟨cm1, n, hstep1, -, -, -, -, -, htidy⟩ := add_spec h srvIdx fd
    cases hstep1.symm.trans hstep
    exact htidy hnot
  | del c =>
    by_cases hc : cm.Active c
    · obtain ⟨cm1, hstep1, htidy, -⟩ := del_swap_spec h hc (hnot hc)
      cases hstep1.symm.trans hstep
      exact htidy
    · cases (del_inactive h hadm hc).symm.trans hstep
      exact h
  | change c wbuf rbuf =>
    obtain ⟨cm1, hstep1, htidy⟩ := change_spec h hadm wbuf rbuf
    cases hstep1.symm.trans hstep
    exact htidy

end Donkeyji.ServerMaps
