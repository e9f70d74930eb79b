/-
Donkeyji.MyEvent.EpollTheorems — when the epoll table agrees with the
kernel.

A call is right (`CallOk`) if afterwards the kernel watches the descriptor
for reading exactly when the table has a reading event, likewise for
writing, and if a call that returns -1 changed neither. `calls_ok_iff` says
for which sequences of calls every call is right: `epoll_add` does not look
at the result of `epoll_ctl`, so the call has to succeed unless the table
had an event for the direction already; and `epoll_del` clears its half of
the table before it asks the kernel, and always asks in vain when the other
half is in use, because it passes no event to `EPOLL_CTL_MOD`.
-/
import Donkeyji.Lib.Runs
import Donkeyji.MyEvent.Epoll

namespace Donkeyji.MyEvent

open Runs

/-- A call of the backend; `ok` says whether the system lets `epoll_ctl`
succeed. -/
inductive EpollCall where
  | add (ok : Bool) (ev : IoEvent)
  | del (ok : Bool) (ev : IoEvent)
deriving DecidableEq, Repr

/-- The event that a call is about. -/
def EpollCall.event : EpollCall → IoEvent
  | .add _ ev => ev
  | .del _ ev => ev

/-- What the call returns and leaves. -/
def EpollCall.result (eop : Epollop) : EpollCall → Int × Epollop
  | .add ok ev => epollAdd ok eop ev
  | .del ok ev => epollDel ok eop ev

/-- A step of a run. -/
def callStep (eop : Epollop) (c : EpollCall) : Option Epollop := some (c.result eop).2

/-- The kernel watches the descriptor for what the table has events for. -/
def Agrees (eop : Epollop) (fd : Nat) : Prop :=
  ((∃ e, eop.kernel fd = some e ∧ e.epollin = true) ↔ (eop.fds fd).evread ≠ none) ∧
  ((∃ e, eop.kernel fd = some e ∧ e.epollout = true) ↔ (eop.fds fd).evwrite ≠ none)

/-- The call keeps the table and the kernel in step. -/
def CallOk (eop : Epollop) (c : EpollCall) : Prop :=
  Agrees (c.result eop).2 c.event.fd ∧
  ((c.result eop).1 = -1 → (c.result eop).2.kernel c.event.fd = eop.kernel c.event.fd ∧
    (c.result eop).2.fds c.event.fd = eop.fds c.event.fd)

/-- The event watches one direction only, on a descriptor of the table. -/
def OneDirection (nfds : Nat) (c : EpollCall) : Prop :=
  c.event.fd < nfds ∧ c.event.evRead ≠ c.event.evWrite

/-- The table's entry for the direction of the event. -/
def Evepoll.own (e : Evepoll) (ev : IoEvent) : Option EventPtr :=
  if ev.evRead then e.evread else e.evwrite

/-- The table's entry for the other direction. -/
def Evepoll.other (e : Evepoll) (ev : IoEvent) : Option EventPtr :=
  if ev.evRead then e.evwrite else e.evread

/-- The condition under which a call is right. -/
def Harmless (eop : Epollop) : EpollCall → Prop
  | .add ok ev => ok = true ∨ (eop.fds ev.fd).own ev ≠ none
  | .del ok ev => (eop.fds ev.fd).own ev = none ∨
      ((eop.fds ev.fd).other ev = none ∧ ok = true)

instance (eop : Epollop) (c : EpollCall) : Decidable (Harmless eop c) := by
  cases c <;> unfold Harmless <;> infer_instance

instance (nfds : Nat) (c : EpollCall) : Decidable (OneDirection nfds c) := by
  unfold OneDirection
  infer_instance

/-- What the kernel has registered when it agrees with the entry. -/
def Evepoll.expected (e : Evepoll) : Option EpollEvents :=
  if e.evread.isSome || e.evwrite.isSome then some ⟨e.evread.isSome, e.evwrite.isSome⟩
  else none

/-- The kernel has exactly the registrations that the table stands for. -/
def InStep (eop : Epollop) : Prop := ∀ fd, eop.kernel fd = (eop.fds fd).expected

/-- `epoll_ctl` changes nothing for other descriptors. -/
theorem epollCtl_other {ok : Bool} {kernel k : Nat → Option EpollEvents} {op : EpollOp}
    {fd fd' : Nat} {event : Option EpollEvents} (h : epollCtl ok kernel op fd event = some k)
    (hfd : fd' ≠ fd) : k fd' = kernel fd' := by
  unfold epollCtl at h
  split at h
  · cases h
  · split at h
    · cases h
      exact Function.update_of_ne hfd _ _
    · cases h

/-- A call changes nothing for other descriptors. -/
theorem result_other (eop : Epollop) (c : EpollCall) {fd : Nat} (hfd : fd ≠ c.event.fd) :
    (c.result eop).2.fds fd = eop.fds fd ∧ (c.result eop).2.kernel fd = eop.kernel fd := by
  cases c with
  | add ok ev =>
    have hne : fd ≠ ev.fd := hfd
    show (epollAdd ok eop ev).2.fds fd = _ ∧ (epollAdd ok eop ev).2.kernel fd = _
    unfold epollAdd
    split
    · exact ⟨rfl, rfl⟩
    · refine ⟨Function.update_of_ne hne _ _, ?_⟩
      dsimp only
      cases hc : epollCtl ok eop.kernel
          (if (eop.fds ev.fd).evread.isSome || (eop.fds ev.fd).evwrite.isSome then .mod else .add)
          ev.fd (some ⟨(eop.fds ev.fd).evread.isSome || ev.evRead,
            (eop.fds ev.fd).evwrite.isSome || ev.evWrite⟩) with
      | none => rfl
      | some k => exact epollCtl_other hc hne
  | del ok ev =>
    have hne : fd ≠ ev.fd := hfd
    show (epollDel ok eop ev).2.fds fd = _ ∧ (epollDel ok eop ev).2.kernel fd = _
    unfold epollDel
    split
    · exact ⟨rfl, rfl⟩
    · dsimp only
      split
      · exact ⟨Function.update_of_ne hne _ _, rfl⟩
      · rename_i k hk
        exact ⟨Function.update_of_ne hne _ _, epollCtl_other hk hne⟩

/-- A call that leaves its own descriptor in step leaves all in step. -/
theorem InStep.result {eop : Epollop} (h : InStep eop) {c : EpollCall}
    (hfd : (c.result eop).2.kernel c.event.fd = ((c.result eop).2.fds c.event.fd).expected) :
    InStep (c.result eop).2 := by
  intro fd
  by_cases he : fd = c.event.fd
  · rw [he]
    exact hfd
  · obtain ⟨hfds, hkernel⟩ := result_other eop c he
    rw [hfds, hkernel]
    exact h fd

/-- `epoll_add` is right exactly if `epoll_ctl` succeeds or the table had an
event for the direction. -/
theorem add_ok_iff {eop : Epollop} (h : InStep eop) {ok : Bool} {ev : IoEvent}
    (hone : OneDirection eop.nfds (.add ok ev)) :
    CallOk eop (.add ok ev) ↔ Harmless eop (.add ok ev) := by
  obtain ⟨hfd, hne⟩ := hone
  obtain ⟨ptr, fd, evRead, evWrite⟩ := ev
  simp only [EpollCall.event] at hfd hne
  have hk := h fd
  unfold CallOk Agrees Harmless EpollCall.result EpollCall.event epollAdd epollCtl
  cases evRead <;> cases evWrite
  · exact absurd rfl hne
  · cases hr : (eop.fds fd).evread <;> cases hw : (eop.fds fd).evwrite <;> cases ok <;>
      simp [Evepoll.expected, hr, hw] at hk <;>
      simp [Nat.not_le.mpr hfd, Evepoll.own, registration, hk, hr, hw]
  · cases hr : (eop.fds fd).evread <;> cases hw : (eop.fds fd).evwrite <;> cases ok <;>
      simp [Evepoll.expected, hr, hw] at hk <;>
      simp [Nat.not_le.mpr hfd, Evepoll.own, registration, hk, hr, hw]
  · exact absurd rfl hne

/-- A harmless `epoll_add` leaves its descriptor in step. -/
theorem add_inStep {eop : Epollop} (h : InStep eop) {ok : Bool} {ev : IoEvent}
    (hone : OneDirection eop.nfds (.add ok ev)) (hgood : Harmless eop (.add ok ev)) :
    InStep (epollAdd ok eop ev).2 := by
  apply h.result (c := .add ok ev)
  obtain ⟨hfd, hne⟩ := hone
  obtain ⟨ptr, fd, evRead, evWrite⟩ := ev
  simp only [EpollCall.event] at hfd hne
  have hk := h fd
  unfold Harmless at hgood
  unfold EpollCall.result EpollCall.event epollAdd epollCtl
  cases evRead <;> cases evWrite
  · exact absurd rfl hne
  · cases hr : (eop.fds fd).evread <;> cases hw : (eop.fds fd).evwrite <;> cases ok <;>
      simp [Evepoll.expected, hr, hw] at hk <;>
      simp [Evepoll.own, hw] at hgood <;>
      simp [Nat.not_le.mpr hfd, Evepoll.expected, registration, hk, hr, hw]
  · cases hr : (eop.fds fd).evread <;> cases hw : (eop.fds fd).evwrite <;> cases ok <;>
      simp [Evepoll.expected, hr, hw] at hk <;>
      simp [Evepoll.own, hr] at hgood <;>
      simp [Nat.not_le.mpr hfd, Evepoll.expected, registration, hk, hr, hw]
  · exact absurd rfl hne

/-- `epoll_del` is right exactly if the table has no event for the direction,
or none for the other one and `epoll_ctl` succeeds. -/
theorem del_ok_iff {eop : Epollop} (h : InStep eop) {ok : Bool} {ev : IoEvent}
    (hone : OneDirection eop.nfds (.del ok ev)) :
    CallOk eop (.del ok ev) ↔ Harmless eop (.del ok ev) := by
  obtain ⟨hfd, hne⟩ := hone
  obtain ⟨ptr, fd, evRead, evWrite⟩ := ev
  simp only [EpollCall.event] at hfd hne
  have hk := h fd
  have heta : ∀ r w, Evepoll.mk r w = eop.fds fd ↔
      r = (eop.fds fd).evread ∧ w = (eop.fds fd).evwrite := by
    intro r w
    cases eop.fds fd
    simp
  unfold CallOk Agrees Harmless EpollCall.result EpollCall.event epollDel epollCtl
  cases evRead <;> cases evWrite
  · exact absurd rfl hne
  · cases hr : (eop.fds fd).evread <;> cases hw : (eop.fds fd).evwrite <;> cases ok <;>
      simp [Evepoll.expected, hr, hw] at hk <;>
      simp [Nat.not_le.mpr hfd, Evepoll.own, Evepoll.other, registration, hk, hr, hw,
        heta]
  · cases hr : (eop.fds fd).evread <;> cases hw : (eop.fds fd).evwrite <;> cases ok <;>
      simp [Evepoll.expected, hr, hw] at hk <;>
      simp [Nat.not_le.mpr hfd, Evepoll.own, Evepoll.other, registration, hk, hr, hw,
        heta]
  · exact absurd rfl hne

/-- A harmless `epoll_del` leaves its descriptor in step. -/
theorem del_inStep {eop : Epollop} (h : InStep eop) {ok : Bool} {ev : IoEvent}
    (hone : OneDirection eop.nfds (.del ok ev)) (hgood : Harmless eop (.del ok ev)) :
    InStep (epollDel ok eop ev).2 := by
  apply h.result (c := .del ok ev)
  obtain ⟨hfd, hne⟩ := hone
  obtain ⟨ptr, fd, evRead, evWrite⟩ := ev
  simp only [EpollCall.event] at hfd hne
  have hk := h fd
  unfold Harmless at hgood
  unfold EpollCall.result EpollCall.event epollDel epollCtl
  cases evRead <;> cases evWrite
  · exact absurd rfl hne
  · cases hr : (eop.fds fd).evread <;> cases hw : (eop.fds fd).evwrite <;> cases ok <;>
      simp [Evepoll.expected, hr, hw] at hk <;>
      simp [Evepoll.own, Evepoll.other, hr, hw] at hgood <;>
      simp [Nat.not_le.mpr hfd, Evepoll.expected, registration, hk, hr, hw]
  · cases hr : (eop.fds fd).evread <;> cases hw : (eop.fds fd).evwrite <;> cases ok <;>
      simp [Evepoll.expected, hr, hw] at hk <;>
      simp [Evepoll.own, Evepoll.other, hr, hw] at hgood <;>
      simp [Nat.not_le.mpr hfd, Evepoll.expected, registration, hk, hr, hw]
  · exact absurd rfl hne

/-- No call changes the size of the table. -/
theorem result_nfds (eop : Epollop) (c : EpollCall) : (c.result eop).2.nfds = eop.nfds := by
  cases c with
  | add ok ev =>
    show (epollAdd ok eop ev).2.nfds = eop.nfds
    unfold epollAdd
    split <;> rfl
  | del ok ev =>
    show (epollDel ok eop ev).2.nfds = eop.nfds
    unfold epollDel
    split
    · rfl
    · dsimp only
      split <;> rfl

/-! ## Runs -/

/-- What `epoll_init` leaves: no event, and nothing registered. -/
def epollInit (nfds : Nat) : Epollop := ⟨nfds, fun _ => ⟨none, none⟩, fun _ => none⟩

/-- A single call is right exactly if it is harmless. -/
theorem callOk_iff {eop : Epollop} (h : InStep eop) {c : EpollCall}
    (hone : OneDirection eop.nfds c) : CallOk eop c ↔ Harmless eop c := by
  cases c with
  | add ok ev => exact add_ok_iff h hone
  | del ok ev => exact del_ok_iff h hone

/-- **When the table agrees with the kernel.** In a sequence of calls on
events that watch one direction each, every call keeps the table and the
kernel in step, and leaves both alone if it returns -1, exactly if every
`epoll_add` has its `epoll_ctl` succeed or finds an event for the direction
in the table, and every `epoll_del` finds none for the direction, or none for
the other one and has its `epoll_ctl` succeed. -/
theorem calls_ok_iff (nfds : Nat) (cs : List EpollCall) (hone : ∀ c ∈ cs, OneDirection nfds c) :
    AllSteps callStep CallOk (epollInit nfds) cs ↔
      AllSteps callStep Harmless (epollInit nfds) cs := by
  have hinit : InStep (epollInit nfds) ∧ (epollInit nfds).nfds = nfds :=
    ⟨fun _ => rfl, rfl⟩
  refine allSteps_iff_allSteps (fun eop => InStep eop ∧ eop.nfds = nfds)
    (fun _ c => OneDirection nfds c) ?_ ?_ hinit (allSteps_of_forall hone _)
  · intro eop c hinv hone
    obtain ⟨h, rfl⟩ := hinv
    exact callOk_iff h hone
  · intro eop c eop' hinv hone hgood hstep
    obtain ⟨h, rfl⟩ := hinv
    cases hstep
    refine ⟨?_, result_nfds eop c⟩
    cases c with
    | add ok ev => exact add_inStep h hone hgood
    | del ok ev => exact del_inStep h hone hgood

/-- Reading and writing of descriptor 5 are added, and a third `epoll_ctl`
fails for a descriptor that is watched already. -/
theorem calls_ok_iff_test :
    AllSteps callStep CallOk (epollInit 8)
      [.add true ⟨1, 5, true, false⟩, .add true ⟨2, 5, false, true⟩,
        .add false ⟨1, 5, true, false⟩] :=
  (calls_ok_iff 8 _ (by decide)).mpr (by decide)

/-- **Deleting one of two directions fails.** A reading and a writing event
of descriptor 5 are added and the reading one is deleted: the kernel still
watches for reading, the table does not, and the call returns -1. -/
theorem del_of_two_fails : ¬ AllSteps callStep CallOk (epollInit 8)
    [.add true ⟨1, 5, true, false⟩, .add true ⟨2, 5, false, true⟩,
      .del true ⟨1, 5, true, false⟩] := by
  intro h
  have hdel := ((h.2 _ rfl).2 _ rfl).1
  have hentry := (hdel.2 (by decide)).2
  revert hentry
  decide

end Donkeyji.MyEvent
