/-
Donkeyji.ServerMaps.ClientTable — the clients of a server and their table
(`common/conn.cc`).

A client is an object at an address, a number; an access where no object is, or
outside the table, has no result. `conn_client_new` has no return statement;
it is taken to return the object. Allocation does not fail, and objects are
not freed. What `bufferevent_disable` does is libevent's; it does not change a
client.

`added` and `deleted` are no part of the table: they record the clients that
were added to it and those that were deleted since.
-/
import Mathlib.Logic.Function.Basic
import Donkeyji.ServerMaps.Buffer

namespace Donkeyji.ServerMaps

open Memory

/-- `struct _conn_client`, without its bufferevent. -/
structure Client where
  srvIdx : Int
  idx : Int
  sock : Int
  wbuf : Buffer
  rbuf : Buffer
deriving DecidableEq, Repr

/-- `conn_client_new`: the object comes from `calloc`. -/
def connClientNew : Client := ⟨0, -1, -1, bufferNew, bufferNew⟩

/-- `conn_client_reset`. -/
def Client.reset (c : Client) : Client := ⟨-1, -1, -1, bufferReset c.wbuf, bufferReset c.rbuf⟩

/-- `struct _conn_client_mgr`, the objects there are and the address of the next one. -/
structure ClientTable where
  ptr : List Nat
  size : Nat
  used : Nat
  heap : Nat → Option Client
  fresh : Nat
  added : List Nat
  deleted : List Nat

/-- `conn_client_mgr_new`. -/
def connClientMgrNew : ClientTable := ⟨[], 0, 0, fun _ => none, 0, [], []⟩

/-- Writes an object. -/
def ClientTable.set (cm : ClientTable) (c : Nat) (n : Client) : ClientTable :=
  { cm with heap := Function.update cm.heap c (some n) }

/-- `n` calls of `conn_client_new`. -/
def ClientTable.alloc (cm : ClientTable) (n : Nat) : ClientTable :=
  { cm with
    heap := fun c => if cm.fresh ≤ c ∧ c < cm.fresh + n then some connClientNew else cm.heap c
    fresh := cm.fresh + n }

/-- The first half of `conn_client_mgr_add`: 128 clients for the first slots, and 128 more when
all are used. -/
def ClientTable.ensureRoom (cm : ClientTable) : ClientTable :=
  if cm.size = 0 then
    { cm.alloc 128 with size := cm.size + 128, ptr := List.range' cm.fresh 128 }
  else if cm.size = cm.used then
    { cm.alloc 128 with size := cm.size + 128, ptr := cm.ptr ++ List.range' cm.fresh 128 }
  else
    cm

/-- `conn_client_mgr_add`. -/
def connClientMgrAdd (cm : ClientTable) (c : Nat) : Option ClientTable := do
  let cm := cm.ensureRoom
  let n ← cm.heap c
  let cm := cm.set c { n with idx := wrap32 cm.used }
  if cm.used < cm.ptr.length then
    return { cm with ptr := cm.ptr.set cm.used c, used := cm.used + 1 }
  else
    none

/-- `conn_server_add_client`. -/
def connServerAddClient (cm : ClientTable) (srvIdx fd : Int) : Option (Nat × ClientTable) :=
  let c := cm.fresh
  let cm := (cm.alloc 1).set c { connClientNew with srvIdx, sock := fd }
  (connClientMgrAdd cm c).map fun cm => (c, cm)

/-- `conn_client_reset` of an object. -/
def connClientReset (cm : ClientTable) (c : Nat) : Option ClientTable := do
  let n ← cm.heap c
  return cm.set c n.reset

/-- `conn_client_mgr_del`: for the client in the last used slot it resets the one behind. -/
def connClientMgrDel (cm : ClientTable) (c : Nat) : Option ClientTable := do
  let n ← cm.heap c
  if n.idx = -1 then
    return cm
  if toU64 n.idx = toU64 (cm.used - 1) then
    let next ← cm.ptr[cm.used]?
    let cm ← connClientReset cm next
    return { cm with used := cm.used - 1 }
  else
    let last ← cm.ptr[cm.used - 1]?
    let _ ← cm.ptr[n.idx.toNat]?
    let cm := { cm with ptr := cm.ptr.set n.idx.toNat last }
    let m ← cm.heap last
    let cm := cm.set last { m with idx := n.idx }
    let cm := { cm with ptr := cm.ptr.set (cm.used - 1) c }
    let cm ← connClientReset cm c
    return { cm with used := cm.used - 1 }

/-! ## Runs -/

/-- The calls on the table, and a change of a client's buffers. -/
inductive ClientCall where
  | add (srvIdx fd : Int)
  | del (c : Nat)
  | change (c : Nat) (wbuf rbuf : Buffer)
deriving DecidableEq, Repr

/-- A step of a run. -/
def clientStep (cm : ClientTable) : ClientCall → Option ClientTable
  | .add srvIdx fd => do
    let (c, cm) ← connServerAddClient cm srvIdx fd
    return { cm with added := cm.added ++ [c] }
  | .del c => do
    let cm ← connClientMgrDel cm c
    return if c ∈ cm.deleted then cm else { cm with deleted := cm.deleted ++ [c] }
  | .change c wbuf rbuf => do
    let n ← cm.heap c
    return cm.set c { n with wbuf, rbuf }

/-- A client that was added and not deleted since. -/
def ClientTable.Active (cm : ClientTable) (c : Nat) : Prop := c ∈ cm.added ∧ c ∉ cm.deleted

instance (cm : ClientTable) (c : Nat) : Decidable (cm.Active c) := by
  unfold ClientTable.Active
  infer_instance

/-- The clients that are deleted and changed were added. -/
def ClientTable.Admits (cm : ClientTable) : ClientCall → Prop
  | .add _ _ => True
  | .del c => c ∈ cm.added
  | .change c _ _ => c ∈ cm.added

instance (cm : ClientTable) (call : ClientCall) : Decidable (cm.Admits call) := by
  cases call <;> unfold ClientTable.Admits <;> infer_instance

end Donkeyji.ServerMaps
