/-
Donkeyji.Mydb.Buf — the byte queue of `mydb/buf.c`.

A `DbBuf` is the C struct: its pointers `h` and `t` are offsets from `START`, so `END` is
`total`, and `mem` is the array behind the header. Lengths are `size_t`s; the differences of
pointers are converted to it. Every copy goes through `Memory.readAt` / `Memory.writeAt`.

`db_buf_AllocLess` and `db_buf_Chunk` are called by nobody, and `db_buf_alloc_pack` has no
body; `db_buf_full` hands out what was never written. They are left out.
-/
import Donkeyji.Lib.Memory
import Donkeyji.Lib.Runs

namespace Donkeyji.Mydb

open Memory

/-- `struct db_buf`. -/
structure DbBuf where
  mem : List UInt8
  h : Int
  t : Int
  total : Nat
deriving DecidableEq, Repr

/-- `sizeof(db_buf)`. -/
def sizeofDbBuf : Nat := 32

namespace DbBuf

/-- `LEFT()`. -/
def left (b : DbBuf) : Int := toU64 (b.total - b.t)

/-- `SIZE()`. -/
def size (b : DbBuf) : Int := toU64 (b.t - b.h)

/-- `db_buf_Clear`. -/
def clear (b : DbBuf) : DbBuf := { b with h := 0, t := 0 }

/-- `db_buf_new`. `malloc` has no block of 2^63 bytes; `junk` is what the block holds. -/
def new (junk : Nat → UInt8) (total : Nat) : Option DbBuf :=
  if total + sizeofDbBuf < 2 ^ 63 then
    some (clear { mem := (List.range total).map junk, h := 0, t := 0, total })
  else none

/-- `db_buf_Move`: the live bytes move to the front. -/
def move (b : DbBuf) : Option DbBuf := do
  let sz := b.size
  let live ← readAt b.mem b.h sz
  let mem ← writeAt b.mem 0 live
  return { b with mem, t := sz, h := 0 }

/-- `db_buf_alloc`: the pointer, or `none` for `NULL`. -/
def alloc (b : DbBuf) (len : Nat) : Option (Option Int × DbBuf) := do
  let b ← (if b.left < len then b.move else some b)
  return (if b.left ≥ len then some b.t else none, b)

/-- `db_buf_seek_tail`. -/
def seekTail (b : DbBuf) (len : Nat) : Option Int × DbBuf :=
  if len ≤ b.left then (some (b.t + len), { b with t := b.t + len }) else (none, b)

/-- `db_buf_seek_head`. -/
def seekHead (b : DbBuf) (len : Nat) : Option Int × DbBuf :=
  if len > b.size then (none, b)
  else
    let b := { b with h := b.h + len }
    (some b.h, if b.h = b.t then b.clear else b)

end DbBuf

/-! ## Runs -/

/-- What the owner of a buffer does: `write` puts bytes where the last `db_buf_alloc` said and
calls `db_buf_seek_tail`. -/
inductive FifoOp where
  | alloc (len : Nat)
  | write (bytes : List UInt8)
  | seekHead (len : Nat)
deriving DecidableEq, Repr

/-- A buffer, what the last `db_buf_alloc` gave (the pointer and the length), and the bytes that
were written and not yet skipped. A buffer that rewinds takes the pointer back. -/
structure Fifo where
  buf : DbBuf
  held : Option (Int × Nat)
  queue : List UInt8
deriving DecidableEq, Repr

/-- One step. -/
def fifoStep (s : Fifo) : FifoOp → Option Fifo
  | .alloc len => do
    let (p, buf) ← s.buf.alloc len
    return { s with buf, held := p.map fun p => (p, len) }
  | .write bytes => do
    let (p, _) ← s.held
    let mem ← writeAt s.buf.mem p bytes
    let (_, buf) := { s.buf with mem }.seekTail bytes.length
    return { buf, held := none, queue := s.queue ++ bytes }
  | .seekHead len =>
    let (p, buf) := s.buf.seekHead len
    some {
      buf
      held := if p.isSome ∧ buf.h = buf.t then none else s.held
      queue := if p.isSome then s.queue.drop len else s.queue }

/-- At most the allocated length is written. -/
def FifoAdmits (s : Fifo) : FifoOp → Prop
  | .write bytes => ∃ p ∈ s.held, bytes.length ≤ p.2
  | _ => True

instance (s : Fifo) (op : FifoOp) : Decidable (FifoAdmits s op) := by
  unfold FifoAdmits
  split <;> infer_instance

end Donkeyji.Mydb
