/-
Donkeyji.MyEvent.Epoll — the epoll bookkeeping of my_event
(src/cs/my_event/epoll.c).

`struct epollop` keeps, for every file descriptor below `nfds`, the event
that reads it and the event that writes it. The kernel keeps its own set of
registrations. `epoll_add` and `epoll_del` change the table and ask the
kernel for the matching change with one `epoll_ctl`.

An event is given by its address and the fields these functions read. The
signal branch of both functions is in `Donkeyji.MyEvent.Event`.
-/
import Mathlib.Logic.Function.Basic

namespace Donkeyji.MyEvent

/-- The address of a `struct event`. -/
abbrev EventPtr := Nat

/-- `struct evepoll`. -/
structure Evepoll where
  evread : Option EventPtr
  evwrite : Option EventPtr
deriving DecidableEq, Repr

/-- The bits `EPOLLIN` and `EPOLLOUT` of a set of epoll events. -/
structure EpollEvents where
  epollin : Bool
  epollout : Bool
deriving DecidableEq, Repr

/-- The operations of `epoll_ctl`. -/
inductive EpollOp where
  | add
  | mod
  | del
deriving DecidableEq, Repr

/-- The table of `struct epollop` and the registrations in the kernel. -/
structure Epollop where
  nfds : Nat
  fds : Nat → Evepoll
  kernel : Nat → Option EpollEvents

/-- What `epoll_add` and `epoll_del` read of an event that is no signal:
its address, `ev_fd`, and the bits `EV_READ` and `EV_WRITE` of `ev_events`. -/
structure IoEvent where
  ptr : EventPtr
  fd : Nat
  evRead : Bool
  evWrite : Bool
deriving DecidableEq, Repr

/-- The new registration of the descriptor when `epoll_ctl` succeeds; `none`
when it has to fail: the operation does not fit the registration, or there
is no event to register. -/
def registration (cur : Option EpollEvents) (op : EpollOp) (event : Option EpollEvents) :
    Option (Option EpollEvents) :=
  match op, cur, event with
  | .add, none, some e => some (some e)
  | .mod, some _, some e => some (some e)
  | .del, some _, _ => some none
  | _, _, _ => none

/-- `epoll_ctl`: it fails without effect when it has to, and when the system
does not let it succeed (`ok` is false). `none` is the return value -1. -/
def epollCtl (ok : Bool) (kernel : Nat → Option EpollEvents) (op : EpollOp) (fd : Nat)
    (event : Option EpollEvents) : Option (Nat → Option EpollEvents) :=
  match registration (kernel fd) op event with
  | none => none
  | some r => if ok then some (Function.update kernel fd r) else none

/-- `epoll_add`; the result of `epoll_ctl` is not looked at. -/
def epollAdd (ok : Bool) (eop : Epollop) (ev : IoEvent) : Int × Epollop :=
  if eop.nfds ≤ ev.fd then
    (-1, eop)
  else
    let evep := eop.fds ev.fd
    let op := if evep.evread.isSome || evep.evwrite.isSome then .mod else .add
    let epev : EpollEvents :=
      ⟨evep.evread.isSome || ev.evRead, evep.evwrite.isSome || ev.evWrite⟩
    let kernel := (epollCtl ok eop.kernel op ev.fd (some epev)).getD eop.kernel
    let evep : Evepoll :=
      ⟨if ev.evRead then some ev.ptr else evep.evread,
        if ev.evWrite then some ev.ptr else evep.evwrite⟩
    (0, { eop with fds := Function.update eop.fds ev.fd evep, kernel := kernel })

/-- `epoll_del`; the event that it prepares is not passed to `epoll_ctl`,
which gets NULL, and the table is updated before the call. -/
def epollDel (ok : Bool) (eop : Epollop) (ev : IoEvent) : Int × Epollop :=
  if eop.nfds ≤ ev.fd then
    (0, eop)
  else
    let evep := eop.fds ev.fd
    let (op, needreaddelete, needwritedelete) : EpollOp × Bool × Bool :=
      if !(ev.evRead && ev.evWrite) then
        if ev.evRead && evep.evwrite.isSome then (.mod, true, false)
        else if ev.evWrite && evep.evread.isSome then (.mod, false, true)
        else (.del, true, true)
      else
        (.del, true, true)
    let evep : Evepoll :=
      ⟨if needreaddelete then none else evep.evread,
        if needwritedelete then none else evep.evwrite⟩
    let eop := { eop with fds := Function.update eop.fds ev.fd evep }
    match epollCtl ok eop.kernel op ev.fd none with
    | none => (-1, eop)
    | some kernel => (0, { eop with kernel := kernel })

end Donkeyji.MyEvent
