/-
Donkeyji.Xy3.RemoteCalls — the client programs and the server of `cs/my_xy3`
together.

Program `k` is the one whose connection `accept` returns as the k-th. Its
script calls stubs: `Pto_c::pack` queues a pack in its `cc`, and `cc.process`
hands bytes to `send` (`main_c.cpp`). What `send` took and `recv` has not
taken yet is on the `wire`. The server is that of `MainLoop`; for a `NET_DATA`
event `on_data` calls `unpackData` (`main_s.cpp`), and the handlers that this
calls are logged with the program whose pack it was.

What a program receives is left out: it does not touch what is sent. A call of
`process` that finds the connection closed while it receives is one after
which there are no more of them.
-/
import Donkeyji.Xy3.CodecErrors
import Donkeyji.Xy3.MainLoop
import Donkeyji.Xy3.ProtoTheorems
import Donkeyji.Xy3.Readiness

namespace Donkeyji.Xy3

open Memory

namespace Proto

/-- `hook_send_c`: whether `doSend` took the bytes. -/
def hookSendC (cc : Client) (data : List UInt8) (len : Int) : Option (Bool × Client) := do
  let data ← readAt data 0 len
  let (r, cc) ← cc.doSend data
  return (r = 0, cc)

/-- A call of a stub of `cc`. A Lua error of `marshal` ends the call, and nothing is sent. -/
def callStub (lua : Lua) (p : Pto) (L : List LuaValue) (ret : Nat → Int) (buf : List UInt8)
    (cc : Client) : Option (Bool × Client) :=
  match Pto_c.pack lua p L ret buf with
  | .raise | .done none => some (false, cc)
  | .fault => none
  | .done (some (usedLen, buf)) => hookSendC cc buf usedLen

end Proto

open Proto

/-- A call of a stub: the protocol and the integers. -/
abbrev Call := Nat × List Int

/-- The programs and the server. -/
structure CallNet where
  loop : MainLoop
  program : Nat → Client
  called : Nat → List Call
  wire : Nat → List UInt8
  handled : Nat → List (Nat × List LuaValue)

/-- What happens. `ret`, `buf` and `high` are values that the code takes from nowhere. -/
inductive CallAct where
  | call (k i : Nat) (xs : List Int) (ret : Nat → Int) (buf : List UInt8)
  | process (k : Nat) (answer : SendAnswer)
  | event (fuel : Nat) (r : Ready)
  | doRead (high : Nat → Nat)
  | hookSendS (vfd : Int) (data : List UInt8)

/-- The programs have connected with their new `cc`, and the server has just started. -/
def CallNet.start (cc : Client) (listenSock : Int) (addOk : Bool) : CallNet where
  loop := .start listenSock addOk
  program _ := { cc with state := 2 }
  called _ := []
  wire _ := []
  handled _ := []

section

variable (lua : Lua) (junk : Nat → UInt8) (raises : Nat → List LuaValue → Bool)
  {files : List PtoFile} (t : Tables files)

/-- One step. -/
def callStep (n : CallNet) : CallAct → Option CallNet
  | .call k i xs ret buf => do
    let p ← (t.ptos .c)[i]?
    let (taken, cc) ← callStub lua p (xs.map .ofInt) ret buf (n.program k)
    return { n with
      program := Function.update n.program k cc
      called := if taken then Function.update n.called k (n.called k ++ [(i, xs)]) else n.called }
  | .process k answer =>
    if (n.program k).state ≠ 2 then some n
    else do
      let (bytes, cc) ← (n.program k).trySend answer
      return { n with
        program := Function.update n.program k cc
        wire := Function.update n.wire k (n.wire k ++ bytes) }
  | .event fuel r => do
    let loop ← loopStep junk n.loop (.event fuel r)
    if r.fd = n.loop.server.listenSock then
      return { n with loop }
    let k := n.loop.peer r.fd
    return { n with
      loop, wire := Function.update n.wire k ((n.wire k).drop r.recv.bytes.length) }
  | .doRead high => do
    let loop ← loopStep junk n.loop .doRead
    match loop.current with
    | none => return { n with loop }
    | some (e, k) =>
      if e.event = .netData then do
        let (_, calls) ← ProtoMgr_s.unpackData (t.ptos .s) e.data (.ofInt e.hid) high raises
        return { n with loop, handled := Function.update n.handled k (n.handled k ++ calls) }
      return { n with loop }
  | .hookSendS vfd data => do
    let loop ← loopStep junk n.loop (.hookSendS vfd data)
    return { n with loop }

end

/-- The stub exists on a side, takes these integers, and its pack fits the 100 bytes of `pack`. -/
def CallableFrom {files : List PtoFile} (t : Tables files) (sender : Side) (c : Call) : Prop :=
  c.1 < 256 ∧ (∀ x ∈ c.2, IsInt32 x) ∧ 1 + 4 * c.2.length ≤ 100 ∧
    ∃ p ∈ (t.ptos sender)[c.1]?, p.isMaker = false ∧ p.args = c.2.map fun _ => .dword

/-- A call of a stub of `Pto_c::pack`. -/
def Callable {files : List PtoFile} (t : Tables files) (c : Call) : Prop := CallableFrom t .c c

/-- More turns than a receive buffer ever has bytes. -/
def recvTurns : Nat := 1126

/-- Stubs are called with their integers, `send` takes no more than it was offered, and `recv` gives
what was sent, at most the 1024 bytes it was asked for, or fails, or finds the connection closed. -/
def CallOk {files : List PtoFile} (t : Tables files) (n : CallNet) : CallAct → Prop
  | .call _ i xs _ buf => Callable t (i, xs) ∧ buf.length = 100
  | .process k (.ret m) => (m : Int) ≤ (n.program k).wbuf.getDataSize
  | .process _ (.fail _) => True
  | .event fuel r => LoopOk n.loop (.event fuel r) ∧ recvTurns ≤ fuel ∧
      (r.fd ≠ n.loop.server.listenSock →
        r.recv.bytes <+: n.wire (n.loop.peer r.fd) ∧ r.recv.bytes.length ≤ 1024)
  | .doRead _ => True
  | .hookSendS _ data => data.length ≤ 100

instance (x : Int) : Decidable (IsInt32 x) := by
  unfold IsInt32
  infer_instance

instance {files : List PtoFile} (t : Tables files) (sender : Side) (c : Call) :
    Decidable (CallableFrom t sender c) := by
  unfold CallableFrom
  infer_instance

instance {files : List PtoFile} (t : Tables files) (c : Call) : Decidable (Callable t c) :=
  inferInstanceAs (Decidable (CallableFrom t .c c))

instance {files : List PtoFile} (t : Tables files) (n : CallNet) (a : CallAct) :
    Decidable (CallOk t n a) := by
  unfold CallOk
  split <;> infer_instance

/-- Program `k` has the client of a slot. -/
def MainLoop.Has (l : MainLoop) (k pos : Nat) (c : Client) : Prop :=
  l.server.clients[pos]? = some (some c) ∧ l.peer c.sock = k

/-- The packs of a program that wait. -/
def MainLoop.packsOf (l : MainLoop) (k : Nat) : List (List UInt8) :=
  (l.waiting.filter fun x => x.2 = k ∧ x.1.event = .netData).map fun x => x.1.data

/-- What a program has sent and the server has not received. -/
def CallNet.ahead (n : CallNet) (k : Nat) : List UInt8 := n.wire k ++ (n.program k).wbuf.content

/-- Nothing that a program has sent is under way, and no pack of it waits. -/
def CallNet.Quiet (n : CallNet) (k : Nat) : Prop :=
  n.wire k = [] ∧ (n.program k).wbuf.content = [] ∧ n.loop.packsOf k = []

instance (n : CallNet) (k : Nat) : Decidable (n.Quiet k) := by
  unfold CallNet.Quiet
  infer_instance

/-- The calls of handlers without their first argument, the connection. -/
def CallNet.arrived (n : CallNet) (k : Nat) : List (Nat × List LuaValue) :=
  (n.handled k).map fun c => (c.1, c.2.tail)

/-- The calls of stubs as a handler should get them. -/
def CallNet.expected (n : CallNet) (k : Nat) : List (Nat × List LuaValue) :=
  (n.called k).map fun c => (c.1, c.2.map .ofInt)

end Donkeyji.Xy3
