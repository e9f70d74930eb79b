/-
Donkeyji.Xy3.DataBuf — the growable byte queue of `cs/my_xy3/databuf.cpp`,
and the receive half of `cs/my_xy3/client.cpp` that reads packs out of it.

A `DataBuf` is the C++ object field by field: the block `_data`, its size
`_len`, and the three `int`s `_head`, `_tail` and `_left`. Every `memcpy`
goes through `Memory.readAt` / `Memory.writeAt`, so an operation that would
touch memory outside the block has no result. `int` arithmetic wraps, as
the machine's does.

`junk` stands for what a fresh `new char[]` block happens to hold. No result
of the later modules depends on it.
-/
import Donkeyji.Lib.Memory

namespace Donkeyji.Xy3

open Memory

/-- `class DataBuf`. -/
structure DataBuf where
  data : List UInt8
  len : Int
  head : Int
  tail : Int
  left : Int
deriving DecidableEq, Repr

namespace DataBuf

/-- A block from `new char[n]`, with whatever it holds. A negative size throws. -/
def fresh (junk : Nat → UInt8) (n : Int) : Option (List UInt8) :=
  if n < 0 then none else some ((List.range n.toNat).map junk)

/-- `DataBuf::DataBuf(int len)`; the default is 1024. -/
def new (junk : Nat → UInt8) (len : Int) : Option DataBuf := do
  let data ← fresh junk len
  return { data, len, head := 0, tail := 0, left := len }

/-- `DataBuf::moveHead`: the live bytes move to the front of the block. -/
def moveHead (b : DataBuf) : Option DataBuf := do
  let live ← readAt b.data b.head (wrap32 (b.tail - b.head))
  let data ← writeAt b.data 0 live
  return { b with
    data, tail := wrap32 (b.tail - b.head), left := wrap32 (b.left + b.head), head := 0 }

/-- The doubling loop of `expandBuf`. After 32 doublings an `int` is 0 and
stays 0, so a loop still running after 33 tests never ends. -/
def doubleLen : Nat → Int → Int → Option Int
  | 0, _, _ => none
  | n + 1, newLen, realNeed =>
    if newLen < realNeed then doubleLen n (wrap32 (newLen * 2)) realNeed else some newLen

/-- `DataBuf::expandBuf`. -/
def expandBuf (junk : Nat → UInt8) (b : DataBuf) (need : Int) : Option (Int × DataBuf) := do
  let b ← b.moveHead
  if need ≤ b.left then
    return (0, b)
  let newLen ← doubleLen 33 (wrap32 (b.len * 2)) (wrap32 (b.len + need))
  let newData ← fresh junk newLen
  let old ← readAt b.data 0 b.len
  let data ← writeAt newData 0 old
  return (0, { b with data, len := newLen, left := wrap32 (newLen - b.tail) })

/-- `DataBuf::appendRawData`; the result of `expandBuf` is not looked at. -/
def appendRawData (junk : Nat → UInt8) (b : DataBuf) (bytes : List UInt8) :
    Option (Int × DataBuf) := do
  let (_, b) ← b.expandBuf junk bytes.length
  let data ← writeAt b.data b.tail bytes
  return (0, { b with
    data, tail := wrap32 (b.tail + bytes.length), left := wrap32 (b.left - bytes.length) })

/-- `DataBuf::cutData`. -/
def cutData (b : DataBuf) (len : Int) : Int × DataBuf :=
  if len > wrap32 (b.tail - b.head) then (-1, b)
  else (0, { b with head := wrap32 (b.head + len) })

/-- `DataBuf::getDataSize`. -/
def getDataSize (b : DataBuf) : Int := wrap32 (b.tail - b.head)

/-- `DataBuf::getPack`: the size and the offset of the first pack's body, or
`none` for the `NULL` it returns when it sees no complete pack. The test adds
the first byte of the header, as a signed `char`, to a `size_t`. -/
def getPack (b : DataBuf) : Option (Option (Int × Int)) := do
  let valid := toU64 (wrap32 (b.tail - b.head))
  if valid < 2 then
    return none
  let first ← readAt b.data b.head 1
  if valid < toU64 ((first.map schar).sum + 2) then
    return none
  let header ← readAt b.data b.head 2
  return some (wrap16 (leNat header), b.head + 2)

/-- `DataBuf::appendPack`: a two-byte length header, then the body, or nothing
at all. The total is computed in a `short`. -/
def appendPack (b : DataBuf) (bytes : List UInt8) : Option (Int × DataBuf) := do
  let size := wrap16 (bytes.length + 2)
  let b ← (if size > b.left then b.moveHead else some b)
  if size > b.left then
    return (-1, b)
  let data ← writeAt b.data b.tail (leBytes 2 bytes.length)
  let b := { b with data, tail := wrap32 (b.tail + 2), left := wrap32 (b.left - 2) }
  let data ← writeAt b.data b.tail bytes
  return (0, { b with
    data, tail := wrap32 (b.tail + bytes.length), left := wrap32 (b.left - bytes.length) })

/-- `Client::doRecv` on the receive buffer: the next pack, copied out, or
`none` for `NULL`. The result of `cutData` is not looked at. -/
def doRecv (b : DataBuf) : Option (Option (List UInt8) × DataBuf) := do
  match ← b.getPack with
  | none => return (none, b)
  | some (size, p) =>
    let pack ← readAt b.data p size
    return (some pack, (b.cutData (wrap32 (size + 2))).2)

/-! ## Calling sequences -/

/-- The loop `while ((p = doRecv(size)) != NULL)`, given `fuel` calls. -/
def drain : Nat → DataBuf → Option (List (List UInt8) × DataBuf)
  | 0, _ => none
  | fuel + 1, b => do
    match ← b.doRecv with
    | (none, b) => return ([], b)
    | (some p, b) =>
      let (ps, b) ← drain fuel b
      return (p :: ps, b)

/-- Chunks handed one after another to `appendRawData`, each followed by the
`doRecv` loop: the packs each loop returned. -/
def recvRun (junk : Nat → UInt8) (fuel : Nat) :
    DataBuf → List (List UInt8) → Option (List (List (List UInt8)) × DataBuf)
  | b, [] => some ([], b)
  | b, c :: cs => do
    let (_, b) ← b.appendRawData junk c
    let (ps, b) ← b.drain fuel
    let (rest, b) ← recvRun junk fuel b cs
    return (ps :: rest, b)

/-- What the sending side does with its buffer: queue a payload, or hand the
first `n` bytes to the wire and cut them. -/
inductive WriteOp where
  | append (payload : List UInt8)
  | sent (n : Nat)
deriving DecidableEq, Repr

/-- A run of the sending side: the payloads `appendPack` accepted, the bytes
that went to the wire, and the buffer at the end. -/
def writeRun : DataBuf → List WriteOp → Option (List (List UInt8) × List UInt8 × DataBuf)
  | b, [] => some ([], [], b)
  | b, .append p :: ops => do
    let (r, b) ← b.appendPack p
    let (ps, wire, b) ← writeRun b ops
    return (if r = 0 then p :: ps else ps, wire, b)
  | b, .sent n :: ops => do
    let bytes ← (if n ≤ b.getDataSize then readAt b.data b.head n else none)
    let (ps, wire, b) ← writeRun (b.cutData n).2 ops
    return (ps, bytes ++ wire, b)

end DataBuf

end Donkeyji.Xy3
