/-
Donkeyji.MultiProgress.Process — the master of `multi_progress/process.c` and
its workers.

Of the processes the model has their numbers: the workers that run, and those
that have exited and were not waited for. Of the signals it has SIGCHLD:
whether it is pending, and how many deliveries have been caught for which
libevent has not called `_sig_callback` yet. A signal that is pending already
does not become pending twice. The workers' own side of the fork is not part
of the model, and `_master_exit` ends the master.
-/
import Mathlib.Tactic

namespace Donkeyji.MultiProgress

/-- The master, and what the kernel and libevent keep for it. -/
structure Master where
  workers : Nat
  exited : Nat
  pending : Bool
  caught : Nat
deriving DecidableEq, Repr

/-- The signals that `_sig_callback_master` tells apart. -/
inductive Sig where
  | sigchld
  | sigint
  | sigterm
  | sighup
  | other
deriving DecidableEq, Repr

/-- `_master_spawn_worker` in the master; `fork` can fail. -/
def masterSpawnWorker (forkOk : Bool) (m : Master) : Master :=
  if forkOk then { m with workers := m.workers + 1 } else m

/-- `_master_start_worker`. -/
def masterStartWorker (forkOk : Bool) (m : Master) : Master :=
  (List.range 2).foldl (fun m _ => masterSpawnWorker forkOk m) m

/-- How `wait` ends: it reaps an exited worker, it fails because there is no child, or it
does not return. -/
inductive WaitResult where
  | reaped
  | noChild
  | blocks
deriving DecidableEq, Repr

/-- `wait`. -/
def wait (m : Master) : WaitResult × Master :=
  if m.exited > 0 then (.reaped, { m with exited := m.exited - 1 })
  else if m.workers = 0 then (.noChild, m)
  else (.blocks, m)

/-- `_sig_callback_master`; `none` when it does not return. -/
def sigCallbackMaster (forkOk : Bool) (sig : Sig) (m : Master) : Option Master :=
  match sig with
  | .sigchld =>
    match wait m with
    | (.noChild, m) => some m
    | (.reaped, m) => some (masterSpawnWorker forkOk m)
    | (.blocks, _) => none
  | .sigint => none
  | .sigterm => none
  | .sighup => some m
  | .other => some m

/-- What happens: a worker exits, a pending SIGCHLD is delivered, or libevent runs the
callback for a delivery. -/
inductive Act where
  | exit
  | deliver
  | callback
deriving DecidableEq, Repr

/-- One step; `none` when it cannot happen, or when the callback does not return. Every
`fork` succeeds. -/
def masterStep (m : Master) : Act → Option Master
  | .exit =>
    if m.workers = 0 then none
    else some { m with workers := m.workers - 1, exited := m.exited + 1, pending := true }
  | .deliver =>
    if m.pending then some { m with pending := false, caught := m.caught + 1 } else none
  | .callback =>
    if m.caught = 0 then none
    else sigCallbackMaster true .sigchld { m with caught := m.caught - 1 }

/-- The master when `master_cycle` enters its event loop. -/
def masterStart : Master := masterStartWorker true ⟨0, 0, false, 0⟩

end Donkeyji.MultiProgress
