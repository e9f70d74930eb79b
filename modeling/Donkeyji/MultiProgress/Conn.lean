/-
Donkeyji.MultiProgress.Conn — connections, their pool and the writing of
responses in `multi_progress/conn.c`.

`conn` objects are allocated once and used again; an object is an address in
the heap. What `bufferevent_new` returns, possibly NULL, is given from outside,
and the bufferevents that were freed and the sockets that were closed are
recorded. Allocation does not fail (the code asserts it).

The array of the pool is the list of its slots. `ndx` does not wrap: every
connection in use has an open socket, which is a nonnegative `int`.
-/
import Mathlib.Logic.Function.Basic
import Donkeyji.MultiProgress.Chunk

namespace Donkeyji.MultiProgress

open Memory

/-- The address of a `conn`. -/
abbrev ConnPtr := Nat

/-- The address of a `struct bufferevent`. -/
abbrev Bev := Nat

/-- `struct _conn`. -/
structure Conn where
  fd : Int
  ndx : Int
  bev : Option Bev
  readQ : ChunkQueue
  writeQ : ChunkQueue
deriving DecidableEq, Repr

/-- `conn_new`. -/
def connNew : Conn := ⟨-1, -1, none, chunkqueueNew, chunkqueueNew⟩

/-- `struct _conn_mgr`. -/
structure ConnMgr where
  ptr : List ConnPtr
  size : Nat
  used : Nat
deriving DecidableEq, Repr

/-- `conn_mgr_new`. -/
def connMgrNew : ConnMgr := ⟨[], 0, 0⟩

/-- The pool, the allocated objects, the address of the next one, and what was freed and
closed. -/
structure Conns where
  cm : ConnMgr
  heap : ConnPtr → Option Conn
  fresh : ConnPtr
  freed : List (Option Bev)
  closed : List Int

/-- Writes an object. -/
def Conns.set (s : Conns) (p : ConnPtr) (c : Conn) : Conns :=
  { s with heap := Function.update s.heap p (some c) }

/-- A call of `conn_new`. -/
def Conns.alloc (s : Conns) : Conns := { s.set s.fresh connNew with fresh := s.fresh + 1 }

/-! ## The pool -/

/-- The loops of `conn_mgr_add_conn` that call `conn_new` for `n` slots. -/
def allocConns : Nat → Conns → List ConnPtr × Conns
  | 0, s => ([], s)
  | n + 1, s =>
    let (ps, s') := allocConns n s.alloc
    (s.fresh :: ps, s')

/-- The first half of `conn_mgr_add_conn`: 128 objects are allocated for the first
connection, and 128 more when all are in use. -/
def ensureRoom (s : Conns) : Conns :=
  if s.cm.size = 0 then
    let (ps, s) := allocConns 128 s
    { s with cm := { s.cm with size := 128, ptr := ps } }
  else if s.cm.size = s.cm.used then
    let (ps, s) := allocConns 128 s
    { s with cm := { s.cm with size := s.cm.size + 128, ptr := s.cm.ptr ++ ps } }
  else
    s

/-- `conn_mgr_add_conn`, with the result of `bufferevent_new`. -/
def connMgrAddConn (s : Conns) (sock : Int) (bev : Option Bev) : Option Conns := do
  let s := ensureRoom s
  let p ← s.cm.ptr[s.cm.used]?
  let c ← s.heap p
  let s := s.set p { c with ndx := s.cm.used, fd := sock, bev := bev }
  return { s with cm := { s.cm with used := s.cm.used + 1 } }

/-- `conn_reset`: the bufferevent is freed and the socket is closed. -/
def connReset (s : Conns) (p : ConnPtr) : Option Conns := do
  let c ← s.heap p
  let s := s.set p
    { c with
      readQ := chunkqueueReset c.readQ
      writeQ := chunkqueueReset c.writeQ
      fd := -1
      ndx := -1 }
  return { s with freed := c.bev :: s.freed, closed := c.fd :: s.closed }

/-- `conn_mgr_del_conn`. -/
def connMgrDelConn (s : Conns) (p : ConnPtr) : Option Conns := do
  let c ← s.heap p
  if c.ndx = -1 then
    return s
  if c.ndx = s.cm.used - 1 then
    let s ← connReset (s.set p { c with ndx := -1 }) p
    return { s with cm := { s.cm with used := s.cm.used - 1 } }
  -- the last connection in use changes places with this one
  let last ← s.cm.ptr[s.cm.used - 1]?
  let d ← s.heap last
  let s := s.set last { d with ndx := c.ndx }
  let c ← s.heap p
  let s := s.set p { c with ndx := -1 }
  connReset
    { s with
      cm := { s.cm with
        ptr := (s.cm.ptr.set c.ndx.toNat last).set (s.cm.used - 1) p
        used := s.cm.used - 1 } } p

/-- A call of the pool's functions. -/
inductive PoolAct where
  | add (sock : Int) (bev : Option Bev)
  | del (p : ConnPtr)
deriving DecidableEq, Repr

/-- A call. -/
def poolStep (s : Conns) : PoolAct → Option Conns
  | .add sock bev => connMgrAddConn s sock bev
  | .del p => connMgrDelConn s p

/-- The pool before the first call. -/
def poolStart : Conns := ⟨connMgrNew, fun _ => none, 0, [], []⟩

/-! ## Responses -/

/-- `off_t` arithmetic. -/
def wrap64 (x : Int) : Int := (x + 9223372036854775808) % 18446744073709551616 - 9223372036854775808

/-- The loop of `_conn_write_response` from a chunk on, given `fuel` tests of its condition:
the chunks it leaves, and the bytes that it hands to `bufferevent_write`. `ok` says which calls
of `bufferevent_write` succeed (0) and which fail (-1, or the largest `size_t`). Nothing in the
loop moves `ck` on. -/
def writeLoop (ok : Nat → Bool) : Nat → Nat → List Chunk → List UInt8 →
    Option (List Chunk × List UInt8)
  | 0, _, _, _ => none
  | _ + 1, _, [], out => some ([], out)
  | fuel + 1, calls, ck :: rest, out => do
    let bytes ← readAt ck.mem.ptr ck.offset (toU64 (ck.mem.used - ck.offset))
    let size := if ok calls then 0 else 18446744073709551615
    writeLoop ok fuel (calls + 1) ({ ck with offset := wrap64 (ck.offset + size) } :: rest)
      (out ++ bytes)

/-- What is written behind every response. -/
def hello : List UInt8 := [104, 101, 108, 108, 111]

/-- `_conn_write_response`: the write queue, and the bytes handed to `bufferevent_write`. -/
def connWriteResponse (ok : Nat → Bool) (fuel : Nat) (wcq : ChunkQueue) :
    Option (ChunkQueue × List UInt8) := do
  let wcq := chunkqueueRemoveFinishedChunks wcq
  let (chunks, out) ← writeLoop ok fuel 0 wcq.chunks []
  return ({ wcq with chunks := chunks }, out ++ hello)

end Donkeyji.MultiProgress
