/-
Donkeyji.Mytimer.LTimer — the Lua binding of the timers (src/mytimer/ltimer.c).

The state is what the binding holds on to: the stack of `gL`, the references
that `luaL_ref` has put into the registry, and the wrappers in `ml`. When a
wrapper's timer runs out is the subject of `Timer`; here a step fires any
wrapper of `ml`, by the functions that timer.c has set for it. A wrapper is
known by the number of its creation: two wrappers in `ml` never share an
address.

A script is what a callback does: the calls of the interface that it makes,
and whether it then returns or raises. A call that raises a Lua error inside
a script changes nothing; the script may catch the error or not. Lua takes a
C function's own frame off the stack when the function ends, so a call leaves
the stack of `gL` as it was.
-/
import Donkeyji.Lib.Lua
import Donkeyji.Mytimer.MinHeap

namespace Donkeyji.LTimer

open Mytimer (TimerCb)

/-- A Lua value, functions told apart from the others. -/
inductive Value where
  | function (f : Nat)
  | plain (v : LuaValue)

/-- `nil`. -/
def Value.nil : Value := .plain .nil

/-- `lua_isfunction`. -/
def Value.isFunction : Value → Bool
  | .function _ => true
  | .plain _ => false

/-- `lua_isnil`. -/
def Value.isNil : Value → Bool
  | .function _ => false
  | .plain v => v.isNil

/-- `luaL_checknumber`; `none` is a Lua error. -/
def Value.checknumber (lua : Lua) : Value → Option LuaNumber
  | .function _ => none
  | .plain v => lua.checknumber v

/-- A wrapper in `ml`: whether its timer calls `once_cb` or `multi_cb`, and
the reference that is the argument of its callback. -/
structure Wrapper where
  mt : Nat
  kind : TimerCb
  ref : Int
deriving DecidableEq, Repr

/-- The stack of `gL`, top first, the references of the registry from 1 on,
`ml`, and the number of the next wrapper. -/
structure State where
  stack : List Value
  refs : List Value
  ml : List Wrapper
  next : Nat

/-- `lua_getref`: the value of the reference. -/
def luaGetref (refs : List Value) (ref : Int) : Value :=
  if 0 < ref then refs.getD (ref.toNat - 1) .nil else .nil

/-- `luaL_ref` of a value that has been popped. No reference is ever given
back, so a new one is one more than the last; `nil` has the reference -1. -/
def luaLRef (refs : List Value) (v : Value) : Int × List Value :=
  if v.isNil then (-1, refs) else (refs.length + 1, refs ++ [v])

/-- `multi_call` and `once_call`, whose `malloc` may fail. -/
def callWith (kind : TimerCb) (s : State) (ref : Int) (mallocOk : Bool) : State :=
  if mallocOk then
    { s with ml := ⟨s.next, kind, ref⟩ :: s.ml, next := s.next + 1 }
  else
    s

/-- The body of `l_multi_call` and `l_once_call`; `none` is a Lua error. The
last argument is popped and the one below it becomes the reference. -/
def lCallWith (lua : Lua) (kind : TimerCb) (s : State) (args : List Value)
    (mallocOk : Bool) : Option State :=
  if (args.getD 0 .nil).isFunction then
    ((args.getD 1 .nil).checknumber lua).map fun _ =>
      let frame := args.dropLast
      let r := luaLRef s.refs (frame.getLastD .nil)
      callWith kind { s with refs := r.2 } r.1 mallocOk
  else
    none

/-- `l_multi_call`. -/
def lMultiCall (lua : Lua) (s : State) (args : List Value) (mallocOk : Bool) : Option State :=
  lCallWith lua .multiCb s args mallocOk

/-- `l_once_call`. -/
def lOnceCall (lua : Lua) (s : State) (args : List Value) (mallocOk : Bool) : Option State :=
  lCallWith lua .onceCb s args mallocOk

/-- A call of the interface. -/
structure Call where
  kind : TimerCb
  args : List Value
  mallocOk : Bool

/-- A call of the interface by a script. -/
def lCall (lua : Lua) (s : State) (c : Call) : State :=
  match c.kind with
  | .multiCb => (lMultiCall lua s c.args c.mallocOk).getD s
  | .onceCb => (lOnceCall lua s c.args c.mallocOk).getD s

/-- What a function does when it is called: its calls of the interface, and
the error it raises in the end, if any. -/
structure Script where
  calls : List Call
  raises : Option Value

/-- `lua_pcall(gL, 0, 0, 0)` with the function on top of the stack: an error
is left in its place. -/
def luaPcall (lua : Lua) (s : State) (script : Script) : State :=
  let s := script.calls.foldl (lCall lua) { s with stack := s.stack.tail }
  match script.raises with
  | none => s
  | some message => { s with stack := message :: s.stack }

/-- The body of `l_multi_cb` and `l_once_cb`. Both return at once after
`lua_pcall`, whether it has failed or not. -/
def callRef (lua : Lua) (s : State) (ref : Int) (script : Script) : State :=
  let v := luaGetref s.refs ref
  let s := { s with stack := v :: s.stack }
  if v.isFunction then luaPcall lua s script else s

/-- `l_multi_cb`. -/
def lMultiCb (lua : Lua) (s : State) (arg : Int) (script : Script) : State :=
  callRef lua s arg script

/-- `l_once_cb`. -/
def lOnceCb (lua : Lua) (s : State) (arg : Int) (script : Script) : State :=
  callRef lua s arg script

/-- `multi_cb`: the wrapper stays in `ml` and its timer is added again. -/
def multiCb (lua : Lua) (s : State) (w : Wrapper) (script : Script) : State :=
  lMultiCb lua s w.ref script

/-- `once_cb`: `m_list_remove` and `timer_wrapper_free`. -/
def onceCb (lua : Lua) (s : State) (w : Wrapper) (script : Script) : State :=
  let s := lOnceCb lua s w.ref script
  { s with ml := s.ml.filter (·.mt ≠ w.mt) }

/-- `(p->cb)(p->arg)`. -/
def timerCallback (lua : Lua) (s : State) (w : Wrapper) (script : Script) : State :=
  match w.kind with
  | .multiCb => multiCb lua s w script
  | .onceCb => onceCb lua s w script

/-- A script calls the interface, or a timer fires. -/
inductive Action where
  | call (c : Call)
  | fire (mt : Nat) (script : Script)

/-- One step. Only a wrapper in `ml` can fire. -/
def step (lua : Lua) (s : State) : Action → Option State
  | .call c => some (lCall lua s c)
  | .fire mt script =>
    (s.ml.find? fun w => w.mt = mt).map fun w => timerCallback lua s w script

/-- The state after `l_timer_init`: no reference has been taken and no timer
created. -/
structure State.Started (s : State) : Prop where
  refs : s.refs = []
  ml : s.ml = []

end Donkeyji.LTimer
