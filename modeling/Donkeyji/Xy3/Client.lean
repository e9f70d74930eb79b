/-
Donkeyji.Xy3.Client — the connection object of `cs/my_xy3/client.cpp`.

What a system call answers is given from outside. `recv` and `send` work on a
nonblocking socket; of the values of `errno` only those the code compares it
with are told apart.
-/
import Donkeyji.Xy3.DataBuf

namespace Donkeyji.Xy3

open Memory

/-- The values of `errno`. `EAGAIN` is `EWOULDBLOCK`. -/
inductive Errno where
  | eintr
  | ewouldblock
  | einprogress
  | other (code : Nat)
deriving DecidableEq, Repr

/-- What `recv` answers: some bytes, none of them for an orderly shutdown, or -1. -/
inductive RecvAnswer where
  | ret (bytes : List UInt8)
  | fail (errno : Errno)
deriving DecidableEq, Repr

/-- What `send` answers: how many bytes it took, or -1. -/
inductive SendAnswer where
  | ret (n : Nat)
  | fail (errno : Errno)
deriving DecidableEq, Repr

/-- `class Client`. `_active` and `_errc` decide nothing here. -/
structure Client where
  sock : Int
  rbuf : DataBuf
  wbuf : DataBuf
  state : Int
  hid : Nat
deriving DecidableEq, Repr

namespace Client

/-- `Client::Client`. `_hid` is not set; the server sets it before it is read. -/
def new (junk : Nat → UInt8) : Option Client := do
  let rbuf ← DataBuf.new junk 1024
  let wbuf ← DataBuf.new junk 1024
  return { sock := -1, rbuf, wbuf, state := 0, hid := 0 }

/-- `Client::doClose`: the socket stays open. -/
def doClose (c : Client) : Client := { c with state := 0 }

/-- `Client::assign`. -/
def assign (c : Client) (sock : Int) : Client := { c.doClose with sock := sock, state := 2 }

/-- `Client::tryRecv`. Every path through the loop leaves it after one `recv`. -/
def tryRecv (junk : Nat → UInt8) (c : Client) : RecvAnswer → Option Client
  | .ret [] => some c.doClose
  | .ret bytes => do
    let (_, rbuf) ← c.rbuf.appendRawData junk bytes
    return { c with rbuf }
  | .fail .eintr => some c
  | .fail .ewouldblock => some c
  | .fail _ => some c.doClose

/-- `Client::trySend`: the bytes that `send` took, and the object. -/
def trySend (c : Client) (answer : SendAnswer) : Option (List UInt8 × Client) :=
  let size := c.wbuf.getDataSize
  if size = 0 then some ([], c)
  else do
    let offered ← readAt c.wbuf.data c.wbuf.head size
    match answer with
    | .fail .ewouldblock => return ([], c)
    | .fail .eintr => return ([], c)
    | .fail .einprogress => return ([], c)
    | .fail (.other _) => return ([], c.doClose)
    | .ret n => return (offered.take n, { c with wbuf := (c.wbuf.cutData n).2 })

/-- `Client::doSend`. -/
def doSend (c : Client) (data : List UInt8) : Option (Int × Client) := do
  let (r, wbuf) ← c.wbuf.appendPack data
  return (r, { c with wbuf })

end Client

/-! ## The sending side -/

/-- A call on the sending side. -/
inductive SendAct where
  | doSend (data : List UInt8)
  | trySend (answer : SendAnswer)
deriving DecidableEq, Repr

/-- A client, the payloads whose `doSend` returned 0, and the bytes that `send` took. -/
structure Sender where
  client : Client
  queued : List (List UInt8)
  wire : List UInt8

/-- One call. -/
def sendStep (s : Sender) : SendAct → Option Sender
  | .doSend data => do
    let (r, client) ← s.client.doSend data
    return { s with client, queued := if r = 0 then s.queued ++ [data] else s.queued }
  | .trySend answer => do
    let (bytes, client) ← s.client.trySend answer
    return { s with client, wire := s.wire ++ bytes }

/-- Payloads are at most as long as the buffer of `marshal`, and `send` takes no more than it
was offered. -/
def SendOk (s : Sender) : SendAct → Prop
  | .doSend data => data.length ≤ 100
  | .trySend (.ret n) => (n : Int) ≤ s.client.wbuf.getDataSize
  | .trySend (.fail _) => True

instance (s : Sender) (a : SendAct) : Decidable (SendOk s a) := by
  unfold SendOk
  split <;> infer_instance

end Donkeyji.Xy3
