/-
Donkeyji.MyEvent.Evbuffer — the byte buffers of my_event
(src/cs/my_event/buffer.c) and the reading end of its bufferevents
(src/cs/my_event/evbuffer.c).

An `Evbuffer` is the C structure: the block at `orig_buffer`, where in it
`buffer` points, and the sizes. Every copy goes through `Memory.readAt` and
`Memory.writeAt`, so an operation that would leave the block has no result.
Sizes are natural numbers: no block is as large as 2^63 bytes, so `size_t`
does not wrap. The callback `cb` is left out: it starts as NULL and
`evbuffer_setcb` has an empty body, so it is never called.

What the system does is part of the input: the number of pending bytes that
`ioctl` reports (`none` when it fails), whether `realloc` succeeds and what
the new bytes hold, the bytes that `recv` finds (`none` for -1) and how many
`send` takes (`none` for -1).
-/
import Donkeyji.Lib.Memory

namespace Donkeyji.MyEvent

open Memory

/-- `struct evbuffer`; `buffer` is relative to `orig_buffer`, and the block
is empty while that is NULL. -/
structure Evbuffer where
  block : List UInt8
  buffer : Nat
  misalign : Nat
  totallen : Nat
  off : Nat
deriving DecidableEq, Repr

/-- `evbuffer_new`. -/
def evbufferNew : Evbuffer := ⟨[], 0, 0, 0, 0⟩

/-- `evbuffer_drain`. -/
def evbufferDrain (buf : Evbuffer) (len : Nat) : Evbuffer :=
  if buf.off ≤ len then
    { buf with off := 0, buffer := 0, misalign := 0 }
  else
    { buf with
      buffer := buf.buffer + len
      misalign := buf.misalign + len
      off := buf.off - len }

/-- `evbuffer_align`. -/
def evbufferAlign (buf : Evbuffer) : Option Evbuffer := do
  let live ← readAt buf.block buf.buffer buf.off
  let block ← writeAt buf.block 0 live
  return { buf with block := block, buffer := 0, misalign := 0 }

/-- The loop of `evbuffer_expand` that doubles the length. -/
def doubleLength : Nat → Nat → Nat → Nat
  | 0, length, _ => length
  | fuel + 1, length, need =>
    if length < need then doubleLength fuel (length * 2) need else length

/-- `realloc`: the old bytes, then whatever the new ones hold. -/
def resized (junk : Nat → UInt8) (block : List UInt8) (length : Nat) : List UInt8 :=
  block.take length ++ (List.range (length - block.length)).map junk

/-- `evbuffer_expand`. -/
def evbufferExpand (realloc : Option (Nat → UInt8)) (buf : Evbuffer) (datlen : Nat) :
    Option (Int × Evbuffer) := do
  let need := buf.misalign + buf.off + datlen
  if need ≤ buf.totallen then
    return (0, buf)
  if datlen ≤ buf.misalign then
    let buf ← evbufferAlign buf
    return (0, buf)
  let length := doubleLength need (if buf.totallen < 256 then 256 else buf.totallen) need
  let buf ← (if buf.buffer ≠ 0 then evbufferAlign buf else some buf)
  match realloc with
  | none => return (-1, buf)
  | some junk =>
    return (0, { buf with
      block := resized junk buf.block length, totallen := length, buffer := 0 })

/-- `EVBUFFER_MAX_READ`. -/
def evbufferMaxRead : Nat := 4096

/-- How many bytes `evbuffer_read` asks `recv` for. -/
def readLength (pending : Option Nat) (howmuch : Int) : Nat :=
  let n : Nat := match pending with
    | none => evbufferMaxRead
    | some 0 => evbufferMaxRead
    | some n => n
  if howmuch < 0 ∨ (n : Int) < howmuch then n else howmuch.toNat

/-- `evbuffer_read`; `recv` finds the bytes `found` and hands over as many as
were asked for. -/
def evbufferRead (buf : Evbuffer) (pending : Option Nat) (howmuch : Int)
    (realloc : Option (Nat → UInt8)) (found : Option (List UInt8)) :
    Option (Int × Evbuffer) := do
  let howmuch := readLength pending howmuch
  let (r, buf) ← evbufferExpand realloc buf howmuch
  if r = -1 then
    return (-1, buf)
  match found with
  | none => return (-1, buf)
  | some bytes =>
    let bytes := bytes.take howmuch
    if bytes.length = 0 then
      return (0, buf)
    let block ← writeAt buf.block (buf.buffer + buf.off) bytes
    return (bytes.length, { buf with block := block, off := buf.off + bytes.length })

/-- `evbuffer_write`; `send` takes the first `sent` bytes of the `off` it is
offered, and its result is kept in an `int`. -/
def evbufferWrite (buf : Evbuffer) (sent : Option Nat) : Option (Int × Evbuffer) := do
  let _ ← readAt buf.block buf.buffer buf.off
  let n := wrap32 (match sent with
    | none => -1
    | some sent => sent)
  if n = -1 then
    return (-1, buf)
  if n = 0 then
    return (0, buf)
  return (n, evbufferDrain buf (toU64 n).toNat)

/-- `evbuffer_add`. -/
def evbufferAdd (realloc : Option (Nat → UInt8)) (buf : Evbuffer) (data : List UInt8) :
    Option (Int × Evbuffer) := do
  let need := buf.misalign + buf.off + data.length
  let (r, buf) ← (if buf.totallen < need then evbufferExpand realloc buf data.length
    else some (0, buf))
  if r = -1 then
    return (-1, buf)
  let block ← writeAt buf.block (buf.buffer + buf.off) data
  return (0, { buf with block := block, off := buf.off + data.length })

/-- `bufferevent_read` on the input buffer: the bytes copied out. The buffer
is not drained. -/
def buffereventRead (buf : Evbuffer) (size : Nat) : Option (List UInt8) :=
  let size := if buf.off < size then buf.off else size
  readAt buf.block buf.buffer size

/-- What happens to the input buffer of a bufferevent. -/
inductive InputCall where
  | receive (pending : Option Nat) (howmuch : Int) (realloc : Option (Nat → UInt8))
      (found : Option (List UInt8))
  | read (size : Nat)

/-- The input buffer, with all bytes received into it and all bytes that
`bufferevent_read` has returned so far. -/
structure Input where
  buf : Evbuffer
  received : List UInt8
  delivered : List UInt8
deriving DecidableEq, Repr

/-- A step of a run. -/
def inputStep (s : Input) : InputCall → Option Input
  | .receive pending howmuch realloc found => do
    let (r, buf) ← evbufferRead s.buf pending howmuch realloc found
    return { s with buf := buf, received := s.received ++ (found.getD []).take r.toNat }
  | .read size => do
    let chunk ← buffereventRead s.buf size
    return { s with delivered := s.delivered ++ chunk }

/-- A new bufferevent's input. -/
def inputNew : Input := ⟨evbufferNew, [], []⟩

end Donkeyji.MyEvent
