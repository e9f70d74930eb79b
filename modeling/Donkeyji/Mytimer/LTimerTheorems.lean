/-
Donkeyji.Mytimer.LTimerTheorems — what the Lua binding of the timers holds
on to.

`Balanced` is what should hold of a step: the stack of `gL` is as high after
it as before, and the registry holds one function for each wrapper of `ml`.
Of the three ways out of a callback only one leaves the stack as it was
(`callRef_height`): what is not a function stays on it, and so does an error.
The reference of a once timer is never given back. The invariant `Held`
carries the count through calls of the interface, and `balanced_iff` says
which runs are balanced.
-/
import Donkeyji.Lib.Runs
import Donkeyji.Mytimer.LTimer

namespace Donkeyji.LTimer

open Runs
open Mytimer (TimerCb)

variable {lua : Lua} {s : State}

/-- The references that the registry holds to functions. -/
def State.functionRefs (s : State) : Nat := s.refs.countP Value.isFunction

/-- After the step the stack has its old height and there is one reference
to a function for each pending timer. -/
def Balanced (lua : Lua) (s : State) (a : Action) : Prop :=
  ∀ s', step lua s a = some s' →
    s'.stack.length = s.stack.length ∧ s'.functionRefs = s'.ml.length

/-- The call raises a Lua error, or `malloc` succeeds and the argument below
the last one is a function, as it is when there are two arguments. -/
def Call.Ok (lua : Lua) (c : Call) : Prop :=
  (c.args.getD 0 .nil).isFunction = true → ((c.args.getD 1 .nil).checknumber lua).isSome →
    c.mallocOk = true ∧ (c.args.dropLast.getLastD .nil).isFunction = true

/-- All calls of the interface in the action are of this kind. -/
def Action.CallsOk (lua : Lua) : Action → Prop
  | .call c => c.Ok lua
  | .fire _ script => ∀ c ∈ script.calls, c.Ok lua

/-- A timer that fires is a multi timer, and its function returns. -/
def MultiReturns (s : State) : Action → Prop
  | .call _ => True
  | .fire mt script => ∀ w, (s.ml.find? fun w => w.mt = mt) = some w →
      w.kind = .multiCb ∧ script.raises = none

/-! ## The stack -/

/-- A call of the interface leaves the stack alone. -/
theorem lCallWith_stack (lua : Lua) (kind : TimerCb) (s : State) (args : List Value)
    (mallocOk : Bool) : ((lCallWith lua kind s args mallocOk).getD s).stack = s.stack := by
  unfold lCallWith callWith
  split
  · cases (args.getD 1 .nil).checknumber lua with
    | none => rfl
    | some x => cases mallocOk <;> rfl
  · rfl

@[simp] theorem lCall_stack (lua : Lua) (s : State) (c : Call) :
    (lCall lua s c).stack = s.stack := by
  unfold lCall
  cases c.kind with
  | multiCb => exact lCallWith_stack lua .multiCb s c.args c.mallocOk
  | onceCb => exact lCallWith_stack lua .onceCb s c.args c.mallocOk

@[simp] theorem calls_stack (lua : Lua) (cs : List Call) : ∀ s : State,
    (cs.foldl (lCall lua) s).stack = s.stack := by
  induction cs with
  | nil =>
    intro s
    rfl
  | cons c cs ih =>
    intro s
    rw [List.foldl_cons, ih, lCall_stack]

/-- The three ways out of a callback: only that of a function that returns
leaves the stack at its height. -/
theorem callRef_height (lua : Lua) (s : State) (ref : Int) (script : Script) :
    (callRef lua s ref script).stack.length = s.stack.length +
      if (luaGetref s.refs ref).isFunction = true ∧ script.raises = none then 0 else 1 := by
  unfold callRef luaPcall
  by_cases hf : (luaGetref s.refs ref).isFunction = true
  · cases hr : script.raises with
    | none => simp [hf]
    | some message => simp [hf]
  · simp [hf]

/-! ## Calls of the interface -/

/-- The references are functions, one for each wrapper, and a wrapper's
reference is one of them. -/
structure Held (s : State) : Prop where
  functions : ∀ v ∈ s.refs, v.isFunction = true
  count : s.refs.length = s.ml.length
  mem : ∀ w ∈ s.ml, 0 < w.ref ∧ w.ref ≤ s.refs.length

theorem Held.functionRefs (h : Held s) : s.functionRefs = s.ml.length := by
  rw [State.functionRefs, List.countP_eq_length.mpr h.functions, h.count]

/-- The reference of a pending timer leads to a function. -/
theorem Held.getref (h : Held s) {w : Wrapper} (hw : w ∈ s.ml) :
    (luaGetref s.refs w.ref).isFunction = true := by
  obtain ⟨hpos, hle⟩ := h.mem w hw
  have hlt : w.ref.toNat - 1 < s.refs.length := by omega
  rw [luaGetref, if_pos hpos, List.getD_eq_getElem?_getD, List.getElem?_eq_getElem hlt]
  exact h.functions _ (List.getElem_mem hlt)

/-- A new reference to a function for a new wrapper. -/
theorem Held.add (h : Held s) (kind : TimerCb) {v : Value} (hv : v.isFunction = true) :
    Held (callWith kind { s with refs := (luaLRef s.refs v).2 } (luaLRef s.refs v).1 true) := by
  have hnil : v.isNil = false := by
    cases v with
    | function f => rfl
    | plain v => simp [Value.isFunction] at hv
  simp only [callWith, luaLRef, hnil, if_true, Bool.false_eq_true, if_false]
  refine ⟨?_, ?_, ?_⟩
  · intro x hx
    cases List.mem_append.mp hx with
    | inl hx => exact h.functions x hx
    | inr hx => simpa [List.mem_singleton.mp hx] using hv
  · simp [h.count]
  · intro w hw
    dsimp only
    rw [List.length_append, List.length_singleton]
    cases List.mem_cons.mp hw with
    | inl he =>
      subst he
      dsimp only
      omega
    | inr hw =>
      obtain ⟨hpos, hle⟩ := h.mem w hw
      omega

/-- A call that is as it should be keeps the invariant and the pending
timers. -/
theorem lCallWith_held (h : Held s) (kind : TimerCb) {args : List Value} {mallocOk : Bool}
    (hok : Call.Ok lua ⟨kind, args, mallocOk⟩) :
    Held ((lCallWith lua kind s args mallocOk).getD s) ∧
      ∀ w ∈ s.ml, w ∈ ((lCallWith lua kind s args mallocOk).getD s).ml := by
  unfold lCallWith
  split
  · rename_i hf
    cases hn : (args.getD 1 .nil).checknumber lua with
    | none => exact ⟨h, fun _ hw => hw⟩
    | some x =>
      obtain ⟨hmalloc, hv⟩ := hok hf (by rw [hn]; rfl)
      dsimp only at hmalloc hv
      subst hmalloc
      refine ⟨h.add kind hv, ?_⟩
      intro w hw
      exact List.mem_cons_of_mem _ hw
  · exact ⟨h, fun _ hw => hw⟩

theorem lCall_held (h : Held s) {c : Call} (hok : c.Ok lua) :
    Held (lCall lua s c) ∧ ∀ w ∈ s.ml, w ∈ (lCall lua s c).ml := by
  obtain ⟨kind, args, mallocOk⟩ := c
  cases kind with
  | multiCb => exact lCallWith_held h .multiCb hok
  | onceCb => exact lCallWith_held h .onceCb hok

/-- The calls of a script. -/
theorem calls_held (cs : List Call) : ∀ {s : State}, Held s → (∀ c ∈ cs, c.Ok lua) →
    Held (cs.foldl (lCall lua) s) ∧ ∀ w ∈ s.ml, w ∈ (cs.foldl (lCall lua) s).ml := by
  induction cs with
  | nil =>
    intro s h _
    exact ⟨h, fun _ hw => hw⟩
  | cons c cs ih =>
    intro s h hok
    obtain ⟨h1, hml1⟩ := lCall_held h (hok c (by simp))
    obtain ⟨h2, hml2⟩ := ih h1 fun c' hc' => hok c' (by simp [hc'])
    exact ⟨h2, fun w hw => hml2 w (hml1 w hw)⟩

/-! ## Callbacks -/

/-- The callback of a pending timer keeps the invariant. -/
theorem callRef_held (h : Held s) {ref : Int} {script : Script}
    (hok : ∀ c ∈ script.calls, c.Ok lua) :
    Held (callRef lua s ref script) ∧ ∀ x ∈ s.ml, x ∈ (callRef lua s ref script).ml := by
  unfold callRef luaPcall
  by_cases hf : (luaGetref s.refs ref).isFunction = true
  · obtain ⟨hheld, hml⟩ := calls_held script.calls h hok
    rw [if_pos hf]
    cases script.raises with
    | none => exact ⟨hheld, hml⟩
    | some message => exact ⟨{ hheld with }, hml⟩
  · rw [if_neg hf]
    exact ⟨{ h with }, fun _ hx => hx⟩

/-- A pending timer that fires. -/
theorem fire_balanced_iff (h : Held s) {mt : Nat} {script : Script}
    (hok : ∀ c ∈ script.calls, c.Ok lua) :
    Balanced lua s (.fire mt script) ↔ MultiReturns s (.fire mt script) := by
  unfold Balanced MultiReturns step
  cases hfind : s.ml.find? fun w => w.mt = mt with
  | none => simp [hfind]
  | some w =>
    have hw : w ∈ s.ml := List.mem_of_find?_eq_some hfind
    have hcall : Held (callRef lua s w.ref script) ∧
        ∀ x ∈ s.ml, x ∈ (callRef lua s w.ref script).ml := callRef_held h hok
    obtain ⟨hheld, hml⟩ := hcall
    have hheight : (callRef lua s w.ref script).stack.length = s.stack.length ↔
        script.raises = none := by
      rw [callRef_height, h.getref hw]
      simp
    simp only [hfind, Option.map_some, Option.some.injEq, forall_eq']
    unfold timerCallback
    cases hk : w.kind with
    | multiCb =>
      show (callRef lua s w.ref script).stack.length = s.stack.length ∧ _ ↔ _
      simp only [hheight, true_and]
      exact and_iff_left hheld.functionRefs
    | onceCb =>
      -- the wrapper is gone and its reference is not
      have hless : ((callRef lua s w.ref script).ml.filter (·.mt ≠ w.mt)).length <
          (callRef lua s w.ref script).ml.length := by
        refine List.length_filter_lt_length_iff_exists.mpr ⟨w, hml w hw, ?_⟩
        simp
      refine iff_of_false ?_ ?_
      · intro hbal
        have hcount : (callRef lua s w.ref script).functionRefs =
            ((callRef lua s w.ref script).ml.filter (·.mt ≠ w.mt)).length := hbal.2
        rw [hheld.functionRefs] at hcount
        omega
      · intro hmulti
        exact absurd hmulti.1 (by simp)

/-- A step is balanced exactly when no once timer fires and no callback
raises. -/
theorem step_balanced_iff (h : Held s) {a : Action} (hok : a.CallsOk lua) :
    Balanced lua s a ↔ MultiReturns s a := by
  cases a with
  | call c =>
    refine iff_of_true ?_ trivial
    intro s' hs'
    cases hs'
    exact ⟨by rw [lCall_stack], (lCall_held h hok).1.functionRefs⟩
  | fire mt script => exact fire_balanced_iff h hok

/-- Such a step keeps the invariant. -/
theorem step_held (h : Held s) {a : Action} (hok : a.CallsOk lua) (hgood : MultiReturns s a)
    {s' : State} (hs : step lua s a = some s') : Held s' := by
  cases a with
  | call c =>
    cases hs
    exact (lCall_held h hok).1
  | fire mt script =>
    obtain ⟨w, hfind, heq⟩ := Option.map_eq_some_iff.mp hs
    rw [timerCallback, (hgood w hfind).1] at heq
    rw [← heq]
    exact (callRef_held h hok).1

instance (lua : Lua) (s : State) (a : Action) : Decidable (Balanced lua s a) :=
  match h : step lua s a with
  | none => isTrue (by simp [Balanced, h])
  | some s' =>
    decidable_of_iff (s'.stack.length = s.stack.length ∧ s'.functionRefs = s'.ml.length)
      (by simp [Balanced, h])

instance (s : State) : (a : Action) → Decidable (MultiReturns s a)
  | .call _ => isTrue trivial
  | .fire mt script =>
    match h : s.ml.find? fun w => w.mt = mt with
    | none => isTrue (by simp [MultiReturns, h])
    | some w =>
      decidable_of_iff (w.kind = .multiCb ∧ script.raises.isNone) (by simp [MultiReturns, h])

/-- The state after `l_timer_init`, with an empty stack. -/
def State.init : State := ⟨[], [], [], 0⟩

/-- A call with a function and one second. -/
def Call.second (kind : TimerCb) : Call :=
  ⟨kind, [.function 7, .plain (.number (.finite 1))], true⟩

-- an error stays on the stack
example : ¬ AllSteps (step Lua.x86) (Balanced Lua.x86) State.init
    [.call (.second .multiCb), .fire 0 ⟨[], some .nil⟩] := by
  decide

end Donkeyji.LTimer
