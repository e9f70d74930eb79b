/-
Donkeyji.Lib.Raising — programs that change a state and may raise.

In `EStateM` what a program has done to the state stays done when it raises.
`after m s` is the state in which `m` ends, whether it returns or raises.
`Keeps view m` says that `m` leaves alone what `view` shows of the state; the
rules follow the shape of the program.
-/
import Mathlib.Tactic

namespace Raising

variable {ε σ α β γ : Type}

/-- The state at the end. -/
def after (m : EStateM ε σ α) (s : σ) : σ :=
  match m s with
  | .ok _ s' => s'
  | .error _ s' => s'

theorem after_ok {m : EStateM ε σ α} {s s' : σ} {a : α} (h : m s = .ok a s') : after m s = s' := by
  simp [after, h]

theorem after_error {m : EStateM ε σ α} {s s' : σ} {e : ε} (h : m s = .error e s') :
    after m s = s' := by
  simp [after, h]

@[simp] theorem after_pure (a : α) (s : σ) : after (pure a : EStateM ε σ α) s = s := rfl

@[simp] theorem after_throw (e : ε) (s : σ) : after (throw e : EStateM ε σ α) s = s := rfl

@[simp] theorem after_modify (f : σ → σ) (s : σ) :
    after (modify f : EStateM ε σ PUnit) s = f s := rfl

/-- A program goes on after a step that returns. -/
theorem after_bind_ok {m : EStateM ε σ α} {f : α → EStateM ε σ β} {s s' : σ} {a : α}
    (h : m s = .ok a s') : after (m >>= f) s = after (f a) s' := by
  simp [after, bind, EStateM.bind, h]

/-- A program ends with a step that raises. -/
theorem after_bind_error {m : EStateM ε σ α} {f : α → EStateM ε σ β} {s s' : σ} {e : ε}
    (h : m s = .error e s') : after (m >>= f) s = s' := by
  simp [after, bind, EStateM.bind, h]

@[simp] theorem after_bind_get (f : σ → EStateM ε σ β) (s : σ) :
    after (get >>= f) s = after (f s) s := rfl

@[simp] theorem after_bind_modify (g : σ → σ) (f : PUnit → EStateM ε σ β) (s : σ) :
    after (modify g >>= f) s = after (f ⟨⟩) (g s) := rfl

@[simp] theorem after_bind_throw (e : ε) (f : α → EStateM ε σ β) (s : σ) :
    after (throw e >>= f) s = s := rfl

/-! ## What a program leaves alone -/

/-- The program does not change what the view shows. -/
def Keeps (view : σ → γ) (m : EStateM ε σ α) : Prop := ∀ s, view (after m s) = view s

variable {view : σ → γ}

theorem keeps_pure (a : α) : Keeps view (pure a : EStateM ε σ α) := fun _ => rfl

theorem keeps_throw (e : ε) : Keeps view (throw e : EStateM ε σ α) := fun _ => rfl

theorem keeps_get : Keeps view (get : EStateM ε σ σ) := fun _ => rfl

theorem keeps_modify {f : σ → σ} (h : ∀ s, view (f s) = view s) :
    Keeps view (modify f : EStateM ε σ PUnit) := h

/-- Sequencing. -/
theorem Keeps.bind {m : EStateM ε σ α} {f : α → EStateM ε σ β} (hm : Keeps view m)
    (hf : ∀ a, Keeps view (f a)) : Keeps view (m >>= f) := by
  intro s
  have hs := hm s
  cases h : m s with
  | ok a s' =>
    rw [after_ok h] at hs
    rw [after_bind_ok h, hf a s', hs]
  | error e s' =>
    rw [after_error h] at hs
    rw [after_bind_error h, hs]

/-- A loop over a list. -/
theorem keeps_forM {l : List α} {f : α → EStateM ε σ PUnit} (h : ∀ a ∈ l, Keeps view (f a)) :
    Keeps view (l.forM f) := by
  induction l with
  | nil => exact keeps_pure _
  | cons a l ih =>
    show Keeps view (f a >>= fun _ => l.forM f)
    exact (h a List.mem_cons_self).bind fun _ => ih fun b hb => h b (List.mem_cons_of_mem a hb)

end Raising
