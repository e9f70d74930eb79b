/-
Donkeyji.Mytimer.Timer — the timer loop and its callers
(src/mytimer/timer.c, src/mytimer/util.h).

What the environment chooses is part of the input: how long the program
waits, what `malloc`, `realloc` and the dispatch function return, and which
timers a callback creates. The clock counts microseconds and only advances
by these waits, so its readings never decrease. A timeout is the pair of
seconds and microseconds that `once_call` and `multi_call` compute from
their `double`.

Released memory keeps its contents until `malloc` hands it out again, and
fields that were never set hold arbitrary values. Reading a released
wrapper is recorded in `dangling` and the run goes on; following a pointer
that leads to no block at all is a crash, which ends the run.

The history `log` is not part of the program: it records, newest first,
when a wrapper was created, when its timer was armed and when its callback
was called.
-/
import Donkeyji.Mytimer.NodeList

namespace Donkeyji.Mytimer

/-- `util_timersub`. -/
def utilTimersub (a b : TimeVal) : TimeVal :=
  let res : TimeVal := ⟨a.tvSec - b.tvSec, a.tvUsec - b.tvUsec⟩
  if res.tvUsec < 0 then ⟨res.tvSec - 1, res.tvUsec + 1000000⟩ else res

/-- `util_timersmaller`. -/
def utilTimersmaller (a b : TimeVal) : Bool :=
  if a.tvSec = b.tvSec then a.tvUsec < b.tvUsec else a.tvSec < b.tvSec

/-- The fields of `struct timer_wrapper` other than the timer and the list
links. -/
structure TimerWrapper where
  cb : Nat
  arg : Nat
  timeout : TimeVal
deriving DecidableEq, Repr

/-- What happened in a run. -/
inductive Event where
  | created (mt : Addr) (kind : TimerCb)
  | armed (mt : Addr) (a : Nat) (tv : TimeVal)
  | called (mt : Addr) (cb arg : Nat) (t2 : Nat)
deriving DecidableEq, Repr

/-- Whether the loop still runs. -/
inductive Status where
  | running
  | returned
  | crashed
deriving DecidableEq, Repr

/-- The module variables `mh`, `tl` and `ml`, the wrappers, the memory the
allocator has handed out (`blocks`) and not got back (`live`), the variables
of `timer_loop`, and the history. -/
structure State where
  mh : MinHeap
  tl : NodeList
  ml : NodeList
  wrappers : Addr → TimerWrapper
  blocks : List Addr
  live : List Addr
  clock : Nat
  tv : Option TimeVal
  t2 : Nat
  status : Status
  dangling : Bool
  log : List Event

/-- The program goes on with `f`, unless it has crashed. -/
def State.andThen (s : State) (f : State → State) : State :=
  if s.status = .crashed then s else f s

/-- A pointer is followed. -/
def State.deref (s : State) (x : Option Addr) : State :=
  match x with
  | none => { s with status := .crashed }
  | some a =>
    if a ∉ s.blocks then { s with status := .crashed }
    else if a ∉ s.live then { s with dangling := true }
    else s

/-- Several pointers are followed. -/
def State.derefAll (s : State) (xs : List (Option Addr)) : State :=
  xs.foldl State.deref s

/-- The timers in the heap. -/
def MinHeap.members (s : MinHeap) : List Addr := (List.range s.n).map s.p

/-- `timer_set`. -/
def timerSet (s : State) (t : Addr) (cb : TimerCb) (arg : Addr) : State :=
  let timer := { s.mh.timers t with cb := cb, arg := arg }
  { s with mh := { s.mh with timers := Function.update s.mh.timers t timer } }

/-- A timeout is written into a timer. -/
def MinHeap.setTimeout (s : MinHeap) (t : Addr) (tv : TimeVal) : MinHeap :=
  { s with timers := Function.update s.timers t { s.timers t with timeout := tv } }

/-- `timer_add`. The heap code follows pointers of the heap only; all of
them are checked here. -/
def timerAdd (reallocOk : Bool) (s : State) (t : Addr) (tv : TimeVal) : State :=
  (s.derefAll (some t :: s.mh.members.map some)).andThen fun s =>
    match minHeapPush reallocOk (s.mh.setTimeout t tv) t with
    | none => { s with mh := s.mh.setTimeout t tv }
    | some mh => { s with mh := mh, log := .armed t s.clock tv :: s.log }

/-- A call of `once_call` or `multi_call`, with the time that has passed
since the clock was last read and what the allocator answers. -/
structure Call where
  kind : TimerCb
  timeout : TimeVal
  func : Nat
  arg : Nat
  delay : Nat
  addr : Option Addr
  reallocOk : Bool
deriving DecidableEq, Repr

/-- `timer_wrapper_new`: `malloc` answers with a block that is not in use,
or with NULL. -/
def timerWrapperNew (s : State) (addr : Option Addr) : Option (Addr × State) :=
  match addr with
  | none => none
  | some mt =>
    if mt ∈ s.live then none
    else some (mt, { s with live := mt :: s.live, blocks := mt :: s.blocks })

/-- `timer_wrapper_free`. -/
def timerWrapperFree (s : State) (mt : Addr) : State :=
  { s with live := s.live.filter (· ≠ mt) }

/-- The body of `once_call` and `multi_call`, which set the timer to call
`once_cb` and `multi_cb`. -/
def callWith (st_cb : TimerCb) (s : State) (c : Call) : State :=
  let s := { s with clock := s.clock + c.delay }
  match timerWrapperNew s c.addr with
  | none => s
  | some (mt, s) =>
    let s := { s with
      wrappers := Function.update s.wrappers mt ⟨c.func, c.arg, c.timeout⟩
      log := .created mt st_cb :: s.log }
    let s := timerSet s mt st_cb mt
    (timerAdd c.reallocOk s mt c.timeout).andThen fun s =>
      { s with ml := mListInsert s.ml mt }

/-- `multi_call`. -/
def multiCall (s : State) (c : Call) : State := callWith .multiCb s c

/-- `once_call`. -/
def onceCall (s : State) (c : Call) : State := callWith .onceCb s c

/-- One call of the interface. -/
def call (s : State) (c : Call) : State :=
  match c.kind with
  | .multiCb => multiCall s c
  | .onceCb => onceCall s c

/-- What a callback does: the timers it creates, the time it takes after the
last of them, and whether the `realloc` of its re-arming succeeds. -/
structure Reaction where
  calls : List Call
  delay : Nat
  reallocOk : Bool
deriving DecidableEq, Repr

/-- A callback that does nothing. -/
def Reaction.none : Reaction := ⟨[], 0, true⟩

/-- `cb(cb_arg)`. -/
def userCallback (s : State) (mt : Addr) (r : Reaction) : State :=
  let w := s.wrappers mt
  let s := { s with log := .called mt w.cb w.arg s.t2 :: s.log }
  let s := r.calls.foldl (fun s c => s.andThen fun s => call s c) s
  s.andThen fun s => { s with clock := s.clock + r.delay }

/-- `multi_cb`. -/
def multiCb (s : State) (mt : Addr) (r : Reaction) : State :=
  (s.deref (some mt)).andThen fun s =>
    let tv := (s.wrappers mt).timeout
    (userCallback s mt r).andThen fun s =>
      timerAdd r.reallocOk (timerSet s mt .multiCb mt) mt tv

/-- `once_cb`. -/
def onceCb (s : State) (mt : Addr) (r : Reaction) : State :=
  (s.deref (some mt)).andThen fun s =>
    (userCallback s mt r).andThen fun s =>
      (s.derefAll (s.ml.removeDerefs mt)).andThen fun s =>
        timerWrapperFree { s with ml := mListRemove s.ml mt } mt

/-- `(p->cb)(p->arg)`. -/
def timerCallback (s : State) (p : Addr) (r : Reaction) : State :=
  let t := s.mh.timers p
  match t.cb with
  | .multiCb => multiCb s t.arg r
  | .onceCb => onceCb s t.arg r

/-- One turn of the loop of `timer_process_actived`. -/
def activedTurn (s : State) (p : Addr) (r : Reaction) : State :=
  (s.deref (some p)).andThen fun s =>
    (timerCallback s p r).andThen fun s =>
      (s.derefAll (s.tl.removeDerefs p)).andThen fun s =>
        { s with tl := listRemove s.tl p }

/-- The loop of `timer_process_actived`: the link to the next timer is read
before the callback is called. The fuel is the length of the list. -/
def activedLoop : Nat → State → Option Addr → List Reaction → State
  | 0, s, _, _ => s
  | _ + 1, s, none, _ => s
  | fuel + 1, s, some p, rs =>
    let n := s.tl.next p
    (activedTurn s p (rs.headD Reaction.none)).andThen fun s => activedLoop fuel s n rs.tail

/-- `timer_process_actived`. -/
def timerProcessActived (s : State) (rs : List Reaction) : State :=
  if s.tl.len = 0 then s else activedLoop s.tl.len.toNat s s.tl.head rs

/-- The loop of `timer_process_timeout`; each turn takes a timer out of the
heap, so its size is enough fuel. -/
def timeoutLoop : Nat → State → State
  | 0, s => s
  | fuel + 1, s =>
    match minHeapTop s.mh with
    | none => s
    | some ev =>
      if utilTimersmaller ⟨0, 0⟩ (s.mh.timers ev).timeout then
        s
      else
        timeoutLoop fuel { s with mh := minHeapErase s.mh ev, tl := listInsert s.tl ev }

/-- `timer_process_timeout`. -/
def timerProcessTimeout (s : State) : State := timeoutLoop s.mh.n s

/-- One turn of the loop of `timer_update`. -/
def updateCell (delta : TimeVal) (s : MinHeap) (i : Nat) : MinHeap :=
  s.setTimeout (s.p i) (utilTimersub (s.timers (s.p i)).timeout delta)

/-- `timer_update`. -/
def timerUpdate (h : MinHeap) (s e : TimeVal) : MinHeap :=
  (List.range h.n).foldl (updateCell (utilTimersub e s)) h

/-- `timer_get_time` when the clock shows `t` microseconds. -/
def timerGetTime (t : Nat) : TimeVal := ⟨(t / 1000000 : Nat), (t % 1000000 : Nat)⟩

/-- `timer_get_next_timeout`: `*tv` stays NULL once the heap was empty. -/
def timerGetNextTimeout (s : State) : State :=
  match minHeapTop s.mh with
  | none => { s with tv := none }
  | some t =>
    match s.tv with
    | none => { s with status := .crashed }
    | some _ => { s with tv := some (s.mh.timers t).timeout }

/-- What the environment does in one turn of `timer_loop`: the time until
the first clock reading, whether the dispatch function succeeds and how long
it takes, and what the callbacks do, in the order in which they are called. -/
structure Iteration where
  idle : Nat
  dispatchOk : Bool
  wait : Nat
  reactions : List Reaction
deriving DecidableEq, Repr

/-- One turn of `timer_loop`; nothing happens when the loop has ended. -/
def timerLoopTurn (s : State) (it : Iteration) : State :=
  if s.status = .running then
    (timerGetNextTimeout s).andThen fun s =>
      let t1 := s.clock + it.idle
      let t2 := t1 + it.wait
      if it.dispatchOk then
        let s := { s with
          clock := t2
          t2 := t2
          mh := timerUpdate s.mh (timerGetTime t1) (timerGetTime t2) }
        timerProcessActived (timerProcessTimeout s) it.reactions
      else
        { s with clock := t2, status := .returned }
  else
    s

/-- The state after `timer_init` and the start of `timer_loop`: the lists
and the heap are empty and `tv` points to `tv_p`. All else is arbitrary. -/
structure State.Fresh (s : State) : Prop where
  heap : s.mh.n = 0
  heapCap : s.mh.a = 0
  tlHead : s.tl.head = none
  tlLen : s.tl.len = 0
  mlHead : s.ml.head = none
  mlLen : s.ml.len = 0
  blocks : s.blocks = []
  live : s.live = []
  tv : s.tv.isSome
  running : s.status = .running
  dangling : s.dangling = false
  log : s.log = []

/-- A fresh state over memory that is all zero. -/
def zeroMemory : State where
  mh := ⟨fun _ => 0, 0, 0, fun _ => ⟨0, ⟨0, 0⟩, .onceCb, 0⟩⟩
  tl := ⟨none, 0, fun _ => none, fun _ => none⟩
  ml := ⟨none, 0, fun _ => none, fun _ => none⟩
  wrappers := fun _ => ⟨0, 0, ⟨0, 0⟩⟩
  blocks := []
  live := []
  clock := 0
  tv := some ⟨0, 0⟩
  t2 := 0
  status := .running
  dangling := false
  log := []

/-- Memory that is all zero is one case of a fresh state. -/
theorem zeroMemory_fresh : zeroMemory.Fresh :=
  ⟨rfl, rfl, rfl, rfl, rfl, rfl, rfl, rfl, rfl, rfl, rfl, rfl⟩

/-- The state after the calls made before `timer_loop`. -/
def setup (s : State) (cs : List Call) : State := cs.foldl call s

/-- The state after some turns of `timer_loop`. -/
def timerLoop (s : State) (its : List Iteration) : State := its.foldl timerLoopTurn s

end Donkeyji.Mytimer
