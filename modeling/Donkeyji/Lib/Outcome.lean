/-
Donkeyji.Lib.Outcome — what is true of a computation that may stop.

`Ends bad Q x` says that `x` does not stop with a bad error, and that its
result has the property `Q` if it has one. The rules follow the shape of the
computation, so that a proof about a function names what is true between its
steps.
-/
import Mathlib.Tactic

namespace Outcome

universe u

variable {ε : Type*} {α β : Type u} {bad : ε → Prop} {Q : α → Prop}

/-- The computation does not stop with a bad error, and its result has the property. -/
def Ends (bad : ε → Prop) (Q : α → Prop) : Except ε α → Prop
  | .ok a => Q a
  | .error e => ¬ bad e

@[simp] theorem ends_ok {a : α} : Ends bad Q (.ok a) ↔ Q a := Iff.rfl

@[simp] theorem ends_error {e : ε} : Ends bad Q (.error e) ↔ ¬ bad e := Iff.rfl

/-- What follows from the property of the result. -/
theorem Ends.mono {R : α → Prop} {x : Except ε α} (h : Ends bad Q x) (himp : ∀ a, Q a → R a) :
    Ends bad R x := by
  cases x with
  | error e => exact h
  | ok a => exact himp a h

/-- Sequencing. -/
theorem Ends.bind {R : β → Prop} {x : Except ε α} {f : α → Except ε β} (h : Ends bad Q x)
    (hf : ∀ a, Q a → Ends bad R (f a)) : Ends bad R (x >>= f) := by
  cases x with
  | error e => exact h
  | ok a => exact hf a h

/-- A function of the result. -/
theorem Ends.map {R : β → Prop} {x : Except ε α} {f : α → β} (h : Ends bad Q x)
    (hf : ∀ a, Q a → R (f a)) : Ends bad R (x.map f) := by
  cases x with
  | error e => exact h
  | ok a => exact hf a h

/-- The result, when there is one. -/
theorem Ends.of_ok {x : Except ε α} {a : α} (h : Ends bad Q x) (hx : x = .ok a) : Q a := by
  subst hx
  exact h

/-- The result, when errors are not told apart. -/
theorem Ends.of_toOption {x : Except ε α} {a : α} (h : Ends bad Q x) (hx : x.toOption = some a) :
    Q a := by
  cases x with
  | error e => cases hx
  | ok a' =>
    cases hx
    exact h

/-- Two properties of the result, of which the first comes with fewer errors. -/
theorem ends_of_both {bad' : ε → Prop} {R : α → Prop} {x : Except ε α} (h : Ends bad Q x)
    (h' : Ends bad' R x) : Ends bad' (fun a => Q a ∧ R a) x := by
  cases x with
  | error e => exact h'
  | ok a => exact ⟨h, h'⟩

/-- Two properties of the result. -/
theorem Ends.and {R : α → Prop} {x : Except ε α} (h : Ends bad Q x) (h' : Ends bad R x) :
    Ends bad (fun a => Q a ∧ R a) x := by
  cases x with
  | error e => exact h
  | ok a => exact ⟨h, h'⟩

/-- A computation, step by step, against the image of another: the first steps agree. -/
theorem bind_eq_map {β' : Type u} {x : Except ε α} {f : β → β'} {g : α → Except ε β'}
    {h : α → Except ε β} (heq : ∀ a, g a = (h a).map f) : x >>= g = (x >>= h).map f := by
  cases x with
  | error e => rfl
  | ok a => exact heq a

/-- The first step is the image of the other's. -/
theorem map_bind_eq {α' β' : Type u} {x : Except ε α} {t : α → α'} {f : β → β'}
    {g : α' → Except ε β'} {h : α → Except ε β} (heq : ∀ a, g (t a) = (h a).map f) :
    x.map t >>= g = (x >>= h).map f := by
  cases x with
  | error e => rfl
  | ok a => exact heq a

end Outcome
