/-
Donkeyji.MultiProgress.ProcessTheorems — how many workers the master keeps.

`_sig_callback_master` waits for one child for each delivery of SIGCHLD. The
exits that found SIGCHLD pending are the ones it does not make up for:
`Account` counts them, and `workers_kept_iff` says that the master has its two
workers whenever no SIGCHLD is left exactly if there was no such exit.
-/
import Donkeyji.Lib.Runs
import Donkeyji.MultiProgress.Process

namespace Donkeyji.MultiProgress

open Runs

/-- No SIGCHLD is pending, delivered ones included. -/
def Master.Settled (m : Master) : Prop := m.pending = false ∧ m.caught = 0

/-- Two workers run, and none is left unreaped. -/
def Master.Full (m : Master) : Prop := m.workers = 2 ∧ m.exited = 0

instance (m : Master) : Decidable m.Settled := inferInstanceAs (Decidable (_ ∧ _))

instance (m : Master) : Decidable m.Full := inferInstanceAs (Decidable (_ ∧ _))

/-- A worker exits while SIGCHLD is pending. -/
def merged (m : Master) (a : Act) : Bool := a = .exit && m.pending

/-- Every exited worker has a delivery of its own, pending or caught, but for those whose
exit was merged. -/
structure Account (lost : Nat) (m : Master) : Prop where
  total : m.workers + m.exited = 2
  exited : m.exited = m.caught + (if m.pending then 1 else 0) + lost

theorem account_start : Account 0 masterStart := ⟨rfl, rfl⟩

/-- The callback finds the exited worker of its delivery. -/
theorem sigCallbackMaster_sigchld {lost : Nat} {m : Master} (h : Account lost m)
    (hcaught : m.caught ≠ 0) :
    sigCallbackMaster true .sigchld { m with caught := m.caught - 1 } =
      some { m with
        workers := m.workers + 1
        exited := m.exited - 1
        caught := m.caught - 1 } := by
  have hexited := h.exited
  have hpos : m.exited > 0 := by omega
  simp only [sigCallbackMaster, wait, if_pos hpos, masterSpawnWorker, if_true]

/-- What one step does to the account. -/
theorem account_step (lost : Nat) (m : Master) (a : Act) (m' : Master) (h : Account lost m)
    (hstep : masterStep m a = some m') :
    Account (lost + if merged m a then 1 else 0) m' := by
  obtain ⟨htotal, hexited⟩ := h
  cases a with
  | exit =>
    simp only [masterStep] at hstep
    split at hstep
    · cases hstep
    · cases hstep
      refine ⟨by simp only; omega, ?_⟩
      cases hp : m.pending <;> simp only [hp, merged] at hexited ⊢ <;> simp at hexited ⊢ <;> omega
  | deliver =>
    simp only [masterStep] at hstep
    split at hstep
    · rename_i hp
      cases hstep
      simp only [hp, if_true] at hexited
      exact ⟨htotal, by simp [merged, hexited]⟩
    · cases hstep
  | callback =>
    simp only [masterStep] at hstep
    split at hstep
    · cases hstep
    · rename_i hcaught
      rw [sigCallbackMaster_sigchld ⟨htotal, hexited⟩ hcaught] at hstep
      cases hstep
      have hmerged : merged m .callback = false := rfl
      refine ⟨by simp only; omega, ?_⟩
      simp only [hmerged, Bool.false_eq_true, if_false]
      omega

/-- When no SIGCHLD is left, the exited workers are those whose exit was merged. -/
theorem Account.full_iff {lost : Nat} {m : Master} (h : Account lost m) (hs : m.Settled) :
    m.Full ↔ lost = 0 := by
  obtain ⟨htotal, hexited⟩ := h
  obtain ⟨hpending, hcaught⟩ := hs
  simp only [hpending, hcaught] at hexited
  unfold Master.Full
  constructor
  · rintro ⟨-, h0⟩
    simp at hexited
    omega
  · intro h0
    simp at hexited
    omega

/-- **When the master keeps its workers.** In a run in which no worker exits while SIGCHLD is
pending, there are two workers and no unreaped one in every state without a SIGCHLD pending;
and in every run that arrives in such a state it is so there only then. -/
theorem workers_kept_iff (acts : List Act) :
    (AllSteps masterStep (fun m a => merged m a = false) masterStart acts →
      AllStates masterStep (fun m => m.Settled → m.Full) masterStart acts) ∧
    ∀ m, run masterStep masterStart acts = some m → m.Settled →
      (m.Full ↔ AllSteps masterStep (fun m a => merged m a = false) masterStart acts) := by
  constructor
  · intro h
    have hinv : AllStates masterStep (Account 0) masterStart acts := by
      refine allStates_of_allSteps ?_ account_start h
      intro m a m' hacc hgood hstep
      have hnext := account_step 0 m a m' hacc hstep
      rwa [hgood] at hnext
    exact hinv.mono fun m hacc hs => (hacc.full_iff hs).mpr rfl
  · intro m hrun hs
    have hacc := counted_of_run merged account_step account_start hrun
    rw [hacc.full_iff hs, Nat.zero_add, countSteps_eq_zero]

/-- Both workers exit one after the other, and both are replaced. -/
theorem workers_kept_iff_two :
    ∃ m, run masterStep masterStart [.exit, .deliver, .exit, .callback, .deliver, .callback] =
      some m ∧ m.Full := by
  refine ⟨⟨2, 0, false, 0⟩, rfl, ?_⟩
  exact ((workers_kept_iff [.exit, .deliver, .exit, .callback, .deliver, .callback]).2 _ rfl
    (by decide)).mpr (by decide)

/-- **A worker is lost.** Both workers exit before SIGCHLD is delivered; one is replaced. -/
theorem merged_exit_loses_worker :
    ∃ m, run masterStep masterStart [.exit, .exit, .deliver, .callback] = some m ∧
      m.Settled ∧ ¬ m.Full :=
  ⟨⟨1, 1, false, 0⟩, rfl, by decide, by decide⟩

end Donkeyji.MultiProgress
