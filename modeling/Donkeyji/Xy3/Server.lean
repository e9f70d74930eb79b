/-
Donkeyji.Xy3.Server — `cs/my_xy3/server.cpp` with `op_epoll.cpp`.

`_clients` is the list of its 3600 slots and `_fpos` a function from sockets.
What the system calls answer in the handling of one event is part of the
event. `pushed` records every event that was ever put into `_queue`.

`dispatch` works through the events of one `epoll_wait`; one that fails is a
batch without events. The loop over the packs of a client need not end, so it
has `fuel` turns. Times are left out: `dispatch` only writes them.

`startUp` calls `shutDown` first, which on a new server takes an element out of
the empty `_queue`; that is undefined. The state given here is the one from
which the rest of the code sets out, with nothing in `_queue`.
-/
import Mathlib.Logic.Function.Basic
import Donkeyji.Lib.Runs
import Donkeyji.Xy3.Client

namespace Donkeyji.Xy3

/-- The kinds of events; `NET_TIMER` is not for connections. -/
inductive NetKind where
  | netNew
  | netData
  | netLeave
deriving DecidableEq, Repr

/-- `struct Event`, with the valid bytes of `_data`. -/
structure Event where
  event : NetKind
  hid : Nat
  data : List UInt8
deriving DecidableEq, Repr

/-- A `NET_DATA` event. `addData` refuses more than 100 bytes. -/
def Event.ofPack (hid : Nat) (packData : List UInt8) : Event :=
  ⟨.netData, hid, if packData.length > 100 then [] else packData⟩

/-- `MAXEPOLLSIZE`, and with it `_max`. -/
def maxEpollSize : Nat := 3600

/-- `class Server`, with the counter of its `EpollOp`. -/
structure Server where
  clients : List (Option Client)
  count : Int
  fpos : Int → Option Nat
  queue : List Event
  listenSock : Int
  fdCnt : Int
  pushed : List Event

/-- An event that `epoll_wait` reports, and what the calls made for it answer: `accept`,
`epoll_ctl` for the new socket, `recv`, `send`, and `epoll_ctl` for the removal. -/
structure Ready where
  fd : Int
  accepted : Int
  addOk : Bool
  recv : RecvAnswer
  send : SendAnswer
  rmOk : Bool
deriving DecidableEq, Repr

/-- The loop of `dispatch` over the packs in a receive buffer. An empty pack ends it too. -/
def takePacks : Nat → DataBuf → Option (List (List UInt8) × DataBuf)
  | 0, _ => none
  | fuel + 1, b => do
    match ← b.doRecv with
    | (none, b) => return ([], b)
    | (some [], b) => return ([], b)
    | (some packData, b) =>
      let (packs, b) ← takePacks fuel b
      return (packData :: packs, b)

namespace Server

/-- `Server::startUp`; `addOk` is what `epoll_ctl` answers for the listening socket. -/
def startUp (listenSock : Int) (addOk : Bool) : Server where
  clients := List.replicate maxEpollSize none
  count := 0
  fpos := fun _ => none
  queue := []
  listenSock := listenSock
  fdCnt := if addOk then 1 else 0
  pushed := []

/-- The loop `while (_queue.empty()) _queue.pop()`: `pop` of an empty queue is
undefined, and of a queue that is not empty nothing is taken. -/
def drainQueue (queue : List Event) : Option (List Event) :=
  if queue.isEmpty then none else some queue

/-- `Server::shutDown`. -/
def shutDown (s : Server) : Option Server := do
  let queue ← drainQueue s.queue
  return { s with
    listenSock := -1, clients := s.clients.map fun _ => none, queue, count := 0 }

/-- `_queue.push` for some events. -/
def push (s : Server) (es : List Event) : Server :=
  { s with queue := s.queue ++ es, pushed := s.pushed ++ es }

/-- The first empty slot. -/
def freePos (s : Server) : Option Nat := s.clients.findIdx? (·.isNone)

/-- The branch of `dispatch` for the listening socket. -/
def dispatchListen (junk : Nat → UInt8) (s : Server) (r : Ready) : Option Server :=
  if r.accepted < 0 then some s
  else if s.count ≥ maxEpollSize then some s
  else
    match s.freePos with
    | none => some s
    | some pos =>
      if r.addOk then do
        let cc ← Client.new junk
        let cc := { cc.assign r.accepted with hid := pos }
        return push
          { s with
            clients := s.clients.set pos (some cc)
            count := s.count + 1
            fpos := Function.update s.fpos r.accepted (some pos)
            fdCnt := s.fdCnt + 1 }
          [⟨.netNew, pos, []⟩]
      else some s

/-- The end of the other branch: a connection that is marked closed is removed. -/
def dropClosed (s : Server) (r : Ready) (pos : Nat) (ct : Client) : Server :=
  if ct.state = 0 ∧ r.rmOk then
    push
      { s with
        clients := s.clients.set pos none
        count := s.count - 1
        fpos := Function.update s.fpos r.fd none
        fdCnt := s.fdCnt - 1 }
      [⟨.netLeave, ct.hid, []⟩]
  else s

/-- The branch of `dispatch` for a connection. `operator[]` makes an entry if there is none. -/
def dispatchConn (junk : Nat → UInt8) (fuel : Nat) (s : Server) (r : Ready) : Option Server := do
  let pos := (s.fpos r.fd).getD 0
  let s := { s with fpos := Function.update s.fpos r.fd (some pos) }
  match ← s.clients[pos]? with
  | none => return s
  | some ct =>
    let ct ← ct.tryRecv junk r.recv
    let (_, ct) ← ct.trySend r.send
    let (packs, rbuf) ← takePacks fuel ct.rbuf
    let ct := { ct with rbuf }
    let s := push { s with clients := s.clients.set pos (some ct) } (packs.map (Event.ofPack ct.hid))
    return s.dropClosed r pos ct

/-- The handling of one event. -/
def dispatchEvent (junk : Nat → UInt8) (fuel : Nat) (s : Server) (r : Ready) : Option Server :=
  if r.fd = s.listenSock then s.dispatchListen junk r else s.dispatchConn junk fuel r

/-- `Server::dispatch`. -/
def dispatch (junk : Nat → UInt8) (fuel : Nat) (s : Server) (events : List Ready) :
    Option Server := Runs.run (dispatchEvent junk fuel) s events

/-- `Server::doRead`. -/
def doRead (s : Server) : Server := { s with queue := s.queue.tail }

/-- `Server::doSend`. -/
def doSend (s : Server) (hid : Int) (data : List UInt8) : Option Server :=
  if hid < 0 ∨ hid > 1024 then some s
  else do
    match ← s.clients[hid.toNat]? with
    | none => return s
    | some c =>
      let (_, c) ← c.doSend data
      return { s with clients := s.clients.set hid.toNat (some c) }

/-- The loop of `Server::doBroadcast`. -/
def broadcastLoop (data : List UInt8) : List (Option Client) → Option (List (Option Client))
  | [] => some []
  | none :: cs => (broadcastLoop data cs).map (none :: ·)
  | some c :: cs => do
    let (_, c) ← c.doSend data
    let cs ← broadcastLoop data cs
    return some c :: cs

/-- `Server::doBroadcast`. -/
def doBroadcast (s : Server) (data : List UInt8) : Option Server :=
  (broadcastLoop data s.clients).map fun clients => { s with clients }

end Server

/-- A call of the server's functions. -/
inductive ServerAct where
  | dispatch (fuel : Nat) (events : List Ready)
  | doRead
  | doSend (hid : Int) (data : List UInt8)
  | doBroadcast (data : List UInt8)
deriving DecidableEq, Repr

/-- One call. -/
def serverStep (junk : Nat → UInt8) (s : Server) : ServerAct → Option Server
  | .dispatch fuel events => s.dispatch junk fuel events
  | .doRead => some s.doRead
  | .doSend hid data => s.doSend hid data
  | .doBroadcast data => s.doBroadcast data

end Donkeyji.Xy3
