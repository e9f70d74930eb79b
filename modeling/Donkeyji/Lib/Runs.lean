/-
Donkeyji.Lib.Runs — runs of a machine over a list of inputs.

A machine is a function from a state and an input to the next state; `none`
is a step that goes wrong. What the environment chooses is part of the input,
so a run is a list of inputs.

`AllSteps` says that every step of a run is taken in a state where its input
has a given property, `AllStates` that a property holds in every state of the
run. The rules turn what one step preserves into what a run preserves;
`allStates_iff_allSteps` is for a property that holds exactly as long as no
bad step was taken. `countSteps` counts the bad steps of a run, for invariants
that depend on their number.
-/
import Mathlib.Tactic

namespace Runs

variable {σ ι : Type*} (step : σ → ι → Option σ)

/-- The state after the inputs. -/
def run : σ → List ι → Option σ
  | s, [] => some s
  | s, i :: is => (step s i).bind fun s' => run s' is

/-- A run goes on where its first part arrives. -/
theorem run_append (s : σ) (is js : List ι) :
    run step s (is ++ js) = (run step s is).bind fun s' => run step s' js := by
  induction is generalizing s with
  | nil => rfl
  | cons i is ih => simp [run, ih, Option.bind_assoc]

/-- Every input of the run is good in the state it meets. -/
def AllSteps (good : σ → ι → Prop) : σ → List ι → Prop
  | _, [] => True
  | s, i :: is => good s i ∧ ∀ s', step s i = some s' → AllSteps good s' is

/-- The property holds in every state of the run, the first and the last included. -/
def AllStates (P : σ → Prop) : σ → List ι → Prop
  | s, [] => P s
  | s, i :: is => P s ∧ ∀ s', step s i = some s' → AllStates P s' is

/-- Whether all steps are good can be computed. -/
instance decidableAllSteps (good : σ → ι → Prop) [∀ s i, Decidable (good s i)] :
    ∀ s is, Decidable (AllSteps step good s is)
  | _, [] => isTrue trivial
  | s, i :: is =>
    match h : step s i with
    | none => decidable_of_iff (good s i) (by simp [AllSteps, h])
    | some s' =>
      have := decidableAllSteps good s' is
      decidable_of_iff (good s i ∧ AllSteps step good s' is) (by simp [AllSteps, h])

variable {step} {Inv P : σ → Prop} {good admits : σ → ι → Prop}

/-- A run is good for two properties at once. -/
theorem AllSteps.and {s : σ} {is : List ι} (h : AllSteps step good s is)
    (h' : AllSteps step admits s is) : AllSteps step (fun s i => good s i ∧ admits s i) s is := by
  induction is generalizing s with
  | nil => trivial
  | cons i is ih => exact ⟨⟨h.1, h'.1⟩, fun s' hs => ih (h.2 s' hs) (h'.2 s' hs)⟩

/-- A property of steps that follows from another follows along a run. -/
theorem AllSteps.mono {good' : σ → ι → Prop} (himp : ∀ s i, good s i → good' s i) {s : σ}
    {is : List ι} (h : AllSteps step good s is) : AllSteps step good' s is := by
  induction is generalizing s with
  | nil => trivial
  | cons i is ih => exact ⟨himp s i h.1, fun s' hs => ih (h.2 s' hs)⟩

/-- A property that all inputs have, in whatever state, holds of all steps. -/
theorem allSteps_of_forall {p : ι → Prop} {is : List ι} (h : ∀ i ∈ is, p i) (s : σ) :
    AllSteps step (fun _ i => p i) s is := by
  induction is generalizing s with
  | nil => trivial
  | cons i is ih => exact ⟨h i (by simp), fun s' _ => ih (fun j hj => h j (by simp [hj])) s'⟩

/-- The steps of a run in two parts. -/
theorem allSteps_append {s : σ} {is js : List ι} :
    AllSteps step good s (is ++ js) ↔
      AllSteps step good s is ∧ ∀ s', run step s is = some s' → AllSteps step good s' js := by
  induction is generalizing s with
  | nil => simp [AllSteps, run]
  | cons i is ih =>
    simp only [List.cons_append, AllSteps, run, Option.bind_eq_some_iff, ih, and_assoc]
    constructor
    · rintro ⟨hi, h⟩
      exact ⟨hi, fun s' hs => (h s' hs).1, fun t ⟨s', hs, hrun⟩ => (h s' hs).2 t hrun⟩
    · rintro ⟨hi, his, hjs⟩
      exact ⟨hi, fun s' hs => ⟨his s' hs, fun t hrun => hjs t ⟨s', hs, hrun⟩⟩⟩

/-- A property that holds of a state holds of the first state of a run from it. -/
theorem AllStates.head {s : σ} {is : List ι} (h : AllStates step P s is) : P s := by
  cases is with
  | nil => exact h
  | cons i is => exact h.1

/-- A property that holds in every state of a run holds in the last one. -/
theorem AllStates.last {s s' : σ} {is : List ι} (h : AllStates step P s is)
    (hrun : run step s is = some s') : P s' := by
  induction is generalizing s with
  | nil =>
    cases hrun
    exact h
  | cons i is ih =>
    obtain ⟨s1, hs, hrun⟩ := Option.bind_eq_some_iff.mp hrun
    exact ih (h.2 s1 hs) hrun

/-- **Invariant rule.** What every good step keeps holds in every state of a run of
good steps. -/
theorem allStates_of_allSteps
    (hstep : ∀ s i s', Inv s → good s i → step s i = some s' → Inv s')
    {s : σ} {is : List ι} (hinv : Inv s) (h : AllSteps step good s is) :
    AllStates step Inv s is := by
  induction is generalizing s with
  | nil => exact hinv
  | cons i is ih => exact ⟨hinv, fun s' hs => ih (hstep s i s' hinv h.1 hs) (h.2 s' hs)⟩

/-- A property that follows from another follows along a run. -/
theorem AllStates.mono {Q : σ → Prop} (himp : ∀ s, P s → Q s) {s : σ} {is : List ι}
    (h : AllStates step P s is) : AllStates step Q s is := by
  induction is generalizing s with
  | nil => exact himp s h
  | cons i is ih => exact ⟨himp s h.1, fun s' hs => ih (h.2 s' hs)⟩

/-- A property of steps that follows from one of the states they start in. -/
theorem allSteps_of_allStates {s : σ} {is : List ι} (h : AllStates step P s is)
    (himp : ∀ s i, P s → good s i) : AllSteps step good s is := by
  induction is generalizing s with
  | nil => trivial
  | cons i is ih => exact ⟨himp s i h.1, fun s' hs => ih (h.2 s' hs)⟩

/-- What every step keeps holds after a run. -/
theorem inv_of_run (hstep : ∀ s i s', Inv s → step s i = some s' → Inv s') {s s' : σ}
    {is : List ι} (hinv : Inv s) (hrun : run step s is = some s') : Inv s' := by
  induction is generalizing s with
  | nil =>
    cases hrun
    exact hinv
  | cons i is ih =>
    obtain ⟨s1, hs, hrun⟩ := Option.bind_eq_some_iff.mp hrun
    exact ih (hstep s i s1 hinv hs) hrun

/-- In a run that arrives no step goes wrong. -/
theorem allSteps_of_run {s s' : σ} {is : List ι} (hrun : run step s is = some s') :
    AllSteps step (fun s i => ∃ s', step s i = some s') s is := by
  induction is generalizing s with
  | nil => trivial
  | cons i is ih =>
    obtain ⟨s1, hs, hrun⟩ := Option.bind_eq_some_iff.mp hrun
    refine ⟨⟨s1, hs⟩, fun s2 hs2 => ?_⟩
    rw [hs] at hs2
    cases hs2
    exact ih hrun

/-- **Step rule.** If admitted steps keep the invariant and are right where it holds, all
steps of a run of admitted steps are right. -/
theorem allSteps_of_inv {right : σ → ι → Prop}
    (hright : ∀ s i, Inv s → admits s i → right s i)
    (hkeep : ∀ s i s', Inv s → admits s i → step s i = some s' → Inv s')
    {s : σ} {is : List ι} (hinv : Inv s) (h : AllSteps step admits s is) :
    AllSteps step right s is := by
  induction is generalizing s with
  | nil => trivial
  | cons i is ih =>
    exact ⟨hright s i hinv h.1, fun s' hs => ih (hkeep s i s' hinv h.1 hs) (h.2 s' hs)⟩

/-- **Progress.** If good steps keep the invariant and never go wrong, a run of good
steps arrives in a state with the invariant. -/
theorem run_of_allSteps (hstep : ∀ s i, Inv s → good s i → ∃ s', step s i = some s' ∧ Inv s')
    {s : σ} {is : List ι} (hinv : Inv s) (h : AllSteps step good s is) :
    ∃ s', run step s is = some s' ∧ Inv s' := by
  induction is generalizing s with
  | nil => exact ⟨s, rfl, hinv⟩
  | cons i is ih =>
    obtain ⟨s', hs, hinv'⟩ := hstep s i hinv h.1
    rw [run, hs]
    exact ih hinv' (h.2 s' hs)

/-- **Two machines.** If good steps on related inputs keep a relation of the states, runs of good
steps on related inputs arrive in related states. -/
theorem related_of_runs {τ κ : Type*} {step' : τ → κ → Option τ} {good' : τ → κ → Prop}
    {R : σ → τ → Prop} {S : ι → κ → Prop}
    (hstep : ∀ s t i j s' t', R s t → S i j → good s i → good' t j →
      step s i = some s' → step' t j = some t' → R s' t')
    {s s' : σ} {t t' : τ} {is : List ι} {js : List κ} (hinputs : List.Forall₂ S is js) (h : R s t)
    (hgood : AllSteps step good s is) (hgood' : AllSteps step' good' t js)
    (hrun : run step s is = some s') (hrun' : run step' t js = some t') : R s' t' := by
  induction hinputs generalizing s t with
  | nil =>
    cases hrun
    cases hrun'
    exact h
  | cons hij _ ih =>
    obtain ⟨s1, hs, hrun⟩ := Option.bind_eq_some_iff.mp hrun
    obtain ⟨t1, ht, hrun'⟩ := Option.bind_eq_some_iff.mp hrun'
    exact ih (hstep _ _ _ _ _ _ h hij hgood.1 hgood'.1 hs ht) (hgood.2 s1 hs) (hgood'.2 t1 ht)
      hrun hrun'

variable (Inv) in
/-- **Arrival.** If in a state with the invariant a step does not go wrong exactly if it is good,
a run arrives exactly if all its steps are good. -/
theorem exists_run_iff {ok : ι → Prop}
    (hstep : ∀ s i, Inv s → ok i → ((∃ s', step s i = some s') ↔ good s i))
    (hkeep : ∀ s i s', Inv s → step s i = some s' → Inv s') {s : σ} {is : List ι} (hinv : Inv s)
    (hok : ∀ i ∈ is, ok i) : (∃ s', run step s is = some s') ↔ AllSteps step good s is := by
  induction is generalizing s with
  | nil => exact iff_of_true ⟨s, rfl⟩ trivial
  | cons i is ih =>
    have hi := hstep s i hinv (hok i (by simp))
    have hrest : ∀ s', step s i = some s' →
        ((∃ t, run step s' is = some t) ↔ AllSteps step good s' is) :=
      fun s' hs => ih (hkeep s i s' hinv hs) fun j hj => hok j (by simp [hj])
    constructor
    · rintro ⟨t, hrun⟩
      obtain ⟨s', hs, hrun⟩ := Option.bind_eq_some_iff.mp hrun
      refine ⟨hi.mp ⟨s', hs⟩, fun s1 hs1 => ?_⟩
      rw [hs] at hs1
      cases hs1
      exact (hrest s' hs).mp ⟨t, hrun⟩
    · intro h
      obtain ⟨s', hs⟩ := hi.mpr h.1
      obtain ⟨t, hrun⟩ := (hrest s' hs).mpr (h.2 s' hs)
      exact ⟨t, by rw [run, hs]; exact hrun⟩

variable (Inv admits) in
/-- **Exactness.** If good steps keep the invariant, the invariant gives the property,
and a step that is not good breaks the property, then the property holds in every
state of a run exactly if all its steps are good. -/
theorem allStates_iff_allSteps
    (hgood : ∀ s i s', Inv s → admits s i → good s i → step s i = some s' → Inv s')
    (hP : ∀ s, Inv s → P s)
    (hbad : ∀ s i, Inv s → admits s i → ¬ good s i → ∃ s', step s i = some s' ∧ ¬ P s')
    {s : σ} {is : List ι} (hinv : Inv s) (hadm : AllSteps step admits s is) :
    AllStates step P s is ↔ AllSteps step good s is := by
  induction is generalizing s with
  | nil => exact iff_of_true (hP s hinv) trivial
  | cons i is ih =>
    constructor
    · intro h
      by_cases hi : good s i
      · exact ⟨hi, fun s' hs =>
          (ih (hgood s i s' hinv hadm.1 hi hs) (hadm.2 s' hs)).mp (h.2 s' hs)⟩
      · obtain ⟨s', hs, hnot⟩ := hbad s i hinv hadm.1 hi
        exact absurd (h.2 s' hs).head hnot
    · intro h
      exact ⟨hP s hinv, fun s' hs =>
        (ih (hgood s i s' hinv hadm.1 h.1 hs) (hadm.2 s' hs)).mpr (h.2 s' hs)⟩

variable (Inv admits) in
/-- **Exactness, for steps.** If in a state with the invariant a step is good exactly if
it is right, and good steps keep the invariant, then all steps of a run are right exactly
if all are good. -/
theorem allSteps_iff_allSteps {right : σ → ι → Prop}
    (hiff : ∀ s i, Inv s → admits s i → (right s i ↔ good s i))
    (hkeep : ∀ s i s', Inv s → admits s i → good s i → step s i = some s' → Inv s')
    {s : σ} {is : List ι} (hinv : Inv s) (hadm : AllSteps step admits s is) :
    AllSteps step right s is ↔ AllSteps step good s is := by
  induction is generalizing s with
  | nil => exact Iff.rfl
  | cons i is ih =>
    constructor
    · intro h
      have hi : good s i := (hiff s i hinv hadm.1).mp h.1
      refine ⟨hi, fun s' hs => ?_⟩
      exact (ih (hkeep s i s' hinv hadm.1 hi hs) (hadm.2 s' hs)).mp (h.2 s' hs)
    · intro h
      refine ⟨(hiff s i hinv hadm.1).mpr h.1, fun s' hs => ?_⟩
      exact (ih (hkeep s i s' hinv hadm.1 h.1 hs) (hadm.2 s' hs)).mpr (h.2 s' hs)

variable (Inv) in
/-- **Exactness, for runs that arrive.** If from a state with the invariant a good step arrives in
one with the invariant, and only a good step arrives with the property, then a run arrives and has
the property in every state exactly if all its steps are good. -/
theorem run_allStates_iff (ok : ι → Prop) (hP : ∀ s, Inv s → P s)
    (hgood : ∀ s i, Inv s → ok i → good s i → ∃ s', step s i = some s' ∧ Inv s')
    (hright : ∀ s i s', Inv s → ok i → step s i = some s' → P s' → good s i) {s : σ}
    {is : List ι} (hinv : Inv s) (hok : ∀ i ∈ is, ok i) :
    ((∃ s', run step s is = some s') ∧ AllStates step P s is) ↔ AllSteps step good s is := by
  induction is generalizing s with
  | nil => exact iff_of_true ⟨⟨s, rfl⟩, hP s hinv⟩ trivial
  | cons i is ih =>
    have hi := hok i (by simp)
    have his : ∀ j ∈ is, ok j := fun j hj => hok j (by simp [hj])
    constructor
    · rintro ⟨⟨t, hrun⟩, hall⟩
      obtain ⟨s', hs, hrun⟩ := Option.bind_eq_some_iff.mp hrun
      have hg := hright s i s' hinv hi hs (hall.2 s' hs).head
      refine ⟨hg, fun s1 hs1 => ?_⟩
      obtain ⟨s2, hs2, hinv'⟩ := hgood s i hinv hi hg
      rw [hs] at hs1 hs2
      cases hs1
      cases hs2
      exact (ih hinv' his).mp ⟨⟨t, hrun⟩, hall.2 s' hs⟩
    · intro h
      obtain ⟨s', hs, hinv'⟩ := hgood s i hinv hi h.1
      obtain ⟨⟨t, hrun⟩, hall⟩ := (ih hinv' his).mpr (h.2 s' hs)
      refine ⟨⟨t, by rw [run, hs]; exact hrun⟩, hP s hinv, fun s1 hs1 => ?_⟩
      rw [hs] at hs1
      cases hs1
      exact hall

/-! ## Counting -/

variable (step) in
/-- The number of bad steps of a run. -/
def countSteps (bad : σ → ι → Bool) : σ → List ι → Nat
  | _, [] => 0
  | s, i :: is =>
    (if bad s i then 1 else 0) +
      match step s i with
      | none => 0
      | some s' => countSteps bad s' is

/-- No step is bad exactly if their number is zero. -/
theorem countSteps_eq_zero {bad : σ → ι → Bool} {s : σ} {is : List ι} :
    countSteps step bad s is = 0 ↔ AllSteps step (fun s i => bad s i = false) s is := by
  induction is generalizing s with
  | nil => simp [countSteps, AllSteps]
  | cons i is ih =>
    rw [countSteps, AllSteps, Nat.add_eq_zero_iff]
    refine and_congr (by cases bad s i <;> simp) ?_
    cases hs : step s i with
    | none => simp
    | some s' => simp [ih]

/-- **Counting rule.** An invariant that counts the bad steps holds after a run with their
number. -/
theorem counted_of_run (bad : σ → ι → Bool) {Counted : Nat → σ → Prop}
    (hstep : ∀ n s i s', Counted n s → step s i = some s' →
      Counted (n + if bad s i then 1 else 0) s')
    {n : Nat} {s s' : σ} {is : List ι} (hinv : Counted n s) (hrun : run step s is = some s') :
    Counted (n + countSteps step bad s is) s' := by
  induction is generalizing n s with
  | nil =>
    cases hrun
    exact hinv
  | cons i is ih =>
    obtain ⟨s1, hs, hrun⟩ := Option.bind_eq_some_iff.mp hrun
    have hrest := ih (hstep n s i s1 hinv hs) hrun
    rw [countSteps, hs, ← Nat.add_assoc]
    exact hrest

/-- A loop whose turns can all be made, each under a condition about what is left to do. -/
theorem foldlM_todo {body : σ → ι → Option σ} (Inv : List ι → σ → Prop)
    (hturn : ∀ a todo s, Inv (a :: todo) s → ∃ s', body s a = some s' ∧ Inv todo s') :
    ∀ (todo : List ι) (s : σ), Inv todo s → ∃ s', todo.foldlM body s = some s' ∧ Inv [] s'
  | [], s, h => ⟨s, rfl, h⟩
  | a :: todo, s, h => by
      obtain ⟨s1, hs1, h1⟩ := hturn a todo s h
      obtain ⟨s', hs', h'⟩ := foldlM_todo Inv hturn todo s1 h1
      exact ⟨s', by rw [List.foldlM_cons, hs1]; exact hs', h'⟩

end Runs
