/-
Donkeyji.ServerMaps.Buffer — the byte buffers of `server_maps`
(`common/buffer.cc`) and the sending of responses in `login/login.cc`.

The lengths are `size_t`s, the growth of a full buffer is computed in an
`int`. `malloc` and `realloc` give a block of every size up to the largest
`ptrdiff_t` and fail above it; the block of a null pointer is the empty list.
An access outside a block has no result. `junk` is what new memory holds.
-/
import Donkeyji.Lib.Memory

namespace Donkeyji.ServerMaps

open Memory

/-- `struct _buffer`. -/
structure Buffer where
  ptr : List UInt8
  size : Nat
  used : Nat
  offset : Nat
deriving DecidableEq, Repr

/-- `buffer_new`. -/
def bufferNew : Buffer := ⟨[], 0, 0, 0⟩

/-- `buffer_reset`: the block is kept. -/
def bufferReset (b : Buffer) : Buffer :=
  { b with ptr := if b.size > 0 then b.ptr.set 0 0 else b.ptr, used := 0, offset := 0 }

/-- There is a block of this size. -/
def Allocates (size : Nat) : Prop := 0 < size ∧ size < 9223372036854775808

instance (size : Nat) : Decidable (Allocates size) := by
  unfold Allocates
  infer_instance

/-- `realloc`, and `malloc` for an empty block. -/
def realloc (junk : Nat → UInt8) (ptr : List UInt8) (size : Nat) : List UInt8 :=
  ptr.take size ++ (List.range (size - ptr.length)).map junk

/-- The `memcpy` of `buffer_append`. -/
def Buffer.store (b : Buffer) (buf : List UInt8) : Option (Int × Buffer) := do
  let ptr ← writeAt b.ptr b.used buf
  return (0, { b with ptr, used := b.used + buf.length })

/-- A block of another size, and the `memcpy` if there is one. -/
def Buffer.grow (junk : Nat → UInt8) (b : Buffer) (size : Nat) (buf : List UInt8) :
    Option (Int × Buffer) :=
  if Allocates size then { b with ptr := realloc junk b.ptr size, size }.store buf
  else some (-1, { b with ptr := [], size })

/-- The size of the first block. -/
def firstSize (n : Nat) : Nat := (toU64 (n + (128 - n % 128))).toNat

/-- The size after a full buffer has grown by `less` and something. -/
def grownSize (size : Nat) (less : Int) : Nat :=
  (toU64 (size + wrap32 (less + (128 - less.tmod 128)))).toNat

/-- `buffer_append`. -/
def bufferAppend (junk : Nat → UInt8) (b : Buffer) (buf : List UInt8) : Option (Int × Buffer) :=
  let size : Int := buf.length
  let space := toU64 (b.size - b.used)
  if b.size = 0 then b.grow junk (firstSize buf.length) buf
  else if space < size then
    let less := wrap32 (size - space)
    b.grow junk (grownSize b.size less) buf
  else b.store buf

/-! ## Any outcome of the allocation -/

/-- A block of another size, if the allocation gives one, and the `memcpy`. The fields are
written before the pointer is looked at. -/
def Buffer.growWith (mem : Option (Nat → UInt8)) (b : Buffer) (size : Nat) (buf : List UInt8) :
    Option (Int × Buffer) :=
  match mem with
  | some junk => { b with ptr := realloc junk b.ptr size, size }.store buf
  | none => some (-1, { b with ptr := [], size })

/-- `buffer_append`, where `mem` is what `malloc` or `realloc` gives if it is called. -/
def bufferAppendWith (mem : Option (Nat → UInt8)) (b : Buffer) (buf : List UInt8) :
    Option (Int × Buffer) :=
  let size : Int := buf.length
  let space := toU64 (b.size - b.used)
  if b.size = 0 then b.growWith mem (firstSize buf.length) buf
  else if space < size then
    let less := wrap32 (size - space)
    b.growWith mem (grownSize b.size less) buf
  else b.store buf

/-- `buffer_reset` on memory: a buffer that has a size but no block is written to through a null
pointer. -/
def bufferResetMem (b : Buffer) : Option Buffer := do
  let ptr ← (if b.size > 0 then writeAt b.ptr 0 [0] else some b.ptr)
  return { b with ptr, used := 0, offset := 0 }

/-! ## Responses -/

/-- `conn_client_send`: the bytes handed to `bufferevent_write`. The difference is unsigned. -/
def connClientSend (wbuf : Buffer) : Option (List UInt8) :=
  let size := toU64 (wbuf.used - wbuf.offset)
  if size ≤ 0 then some [] else readAt wbuf.ptr 0 size

/-- Responses one after the other, each appended and then sent: all the bytes that are handed to
`bufferevent_write`. The result of `buffer_append` is not looked at. -/
def respondAll (junk : Nat → UInt8) : Buffer → List (List UInt8) → Option (List UInt8)
  | _, [] => some []
  | wbuf, buf :: bufs => do
    let (_, wbuf) ← bufferAppend junk wbuf buf
    let sent ← connClientSend wbuf
    let rest ← respondAll junk wbuf bufs
    return sent ++ rest

end Donkeyji.ServerMaps
