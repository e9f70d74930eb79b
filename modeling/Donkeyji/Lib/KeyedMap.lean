/-
Donkeyji.Lib.KeyedMap — entries stored under a key that is computed from them.

Storing an entry replaces what its key led to before, so after a list of entries
has been stored one after the other every entry is found under its key exactly
if the key tells the entries apart.
-/
import Mathlib.Tactic

namespace KeyedMap

variable {α κ : Type*} [DecidableEq κ] (key : α → κ)

/-- Store an entry under its key. -/
def put (m : κ → Option α) (e : α) : κ → Option α := Function.update m (key e) (some e)

/-- Store the entries one after the other. -/
def putAll (m : κ → Option α) (es : List α) : κ → Option α := es.foldl (put key) m

@[simp] theorem putAll_nil (m : κ → Option α) : putAll key m [] = m := rfl

@[simp] theorem putAll_cons (m : κ → Option α) (e : α) (es : List α) :
    putAll key m (e :: es) = putAll key (put key m e) es := rfl

theorem putAll_append (m : κ → Option α) (es es' : List α) :
    putAll key m (es ++ es') = putAll key (putAll key m es) es' := List.foldl_append

variable {key}

/-- A key of no entry keeps its value. -/
theorem putAll_of_notMem {es : List α} {k : κ} (h : ∀ e ∈ es, key e ≠ k) (m : κ → Option α) :
    putAll key m es k = m k := by
  induction es generalizing m with
  | nil => rfl
  | cons e es ih =>
    rw [putAll_cons, ih (fun e' he' => h e' (List.mem_cons_of_mem _ he'))]
    exact Function.update_of_ne (h e List.mem_cons_self).symm _ _

/-- An entry is found if no other entry has its key. -/
theorem putAll_of_mem {es : List α} {e : α} (he : e ∈ es)
    (hkey : ∀ e' ∈ es, key e' = key e → e' = e) (m : κ → Option α) :
    putAll key m es (key e) = some e := by
  induction es generalizing m with
  | nil => cases he
  | cons a es ih =>
    rw [putAll_cons]
    by_cases hmem : e ∈ es
    · exact ih hmem (fun e' he' => hkey e' (List.mem_cons_of_mem _ he')) _
    · have hea : e = a := (List.mem_cons.mp he).resolve_right hmem
      subst hea
      rw [putAll_of_notMem, put, Function.update_self]
      intro e' he' hk
      exact hmem (hkey e' (List.mem_cons_of_mem _ he') hk ▸ he')

/-- **Every entry is found exactly if the key tells the entries apart.** -/
theorem putAll_found_iff {es : List α} (m : κ → Option α) :
    (∀ e ∈ es, putAll key m es (key e) = some e) ↔ Set.InjOn key {e | e ∈ es} := by
  constructor
  · intro h e he e' he' hk
    have hfound := h e he
    rw [hk, h e' he'] at hfound
    exact (Option.some.inj hfound).symm
  · intro hinj e he
    exact putAll_of_mem he (fun e' he' hk => hinj he' he hk) m

end KeyedMap
