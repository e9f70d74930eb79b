/-
Donkeyji.Lib.Sessions — logs of sessions.

A session starts with one event, goes on with any number of another and ends
with a third. `Log` says that a list of events is a number of sessions, the
last of which may be unfinished. A list of events with keys is read one key at
a time: an event of one key leaves the logs of the others as they are. `Owned` is
for a queue of such events that are handled later: it tells the items of the
session that its key has now from those of earlier ones.
-/
import Mathlib.Tactic

namespace Sessions

variable {ε κ : Type*}

/-- The three events. -/
structure Alphabet (ε : Type*) where
  start : ε
  item : ε
  stop : ε

variable (A : Alphabet ε)

/-- A session so far, with `n` items. -/
def unfinished (n : Nat) : List ε := A.start :: List.replicate n A.item

/-- A session with `n` items. -/
def finished (n : Nat) : List ε := unfinished A n ++ [A.stop]

/-- Finished sessions, and an unfinished one behind them if `active`. -/
def Log (es : List ε) (active : Bool) : Prop :=
  ∃ (done : List Nat) (tail : List ε), es = done.flatMap (finished A) ++ tail ∧
    if active then ∃ n, tail = unfinished A n else tail = []

variable {A} {es : List ε}

theorem log_nil : Log A [] false := ⟨[], [], rfl, rfl⟩

theorem Log.start (h : Log A es false) : Log A (es ++ [A.start]) true := by
  obtain ⟨done, tail, hes, htail⟩ := h
  cases htail
  exact ⟨done, [A.start], by rw [hes, List.append_nil], 0, rfl⟩

theorem Log.items (h : Log A es true) (n : Nat) : Log A (es ++ List.replicate n A.item) true := by
  obtain ⟨done, tail, hes, k, htail⟩ := h
  refine ⟨done, tail ++ List.replicate n A.item, by rw [hes, List.append_assoc], k + n, ?_⟩
  rw [htail, unfinished, unfinished, List.replicate_add, List.cons_append]

theorem Log.stop (h : Log A es true) : Log A (es ++ [A.stop]) false := by
  obtain ⟨done, tail, hes, k, htail⟩ := h
  refine ⟨done ++ [k], [], ?_, rfl⟩
  rw [hes, htail, List.flatMap_append, List.flatMap_singleton, finished, List.append_nil,
    List.append_assoc]

/-! ## Whose an item is -/

variable {ι : Type*} {k : κ} {n : ι} {xs ys : List ((κ × ε) × ι)}

variable (A) in
/-- In a queue of events that are marked with the sessions they are of, an item of the key is of
session `n` exactly if no start of the key stands behind it. -/
def Owned (k : κ) (n : ι) : List ((κ × ε) × ι) → Prop
  | [] => True
  | x :: xs => (x.1 = (k, A.item) → (x.2 = n ↔ (k, A.start) ∉ xs.map Prod.fst)) ∧ Owned k n xs

theorem Owned.of_append (h : Owned A k n (xs ++ ys)) : Owned A k n ys := by
  induction xs with
  | nil => exact h
  | cons x xs ih => exact ih h.2

/-- Behind the queue come events that start nothing for the key, and its items are of the
session. -/
theorem Owned.append (h : Owned A k n xs)
    (hnew : ∀ y ∈ ys, y.1 ≠ (k, A.start) ∧ (y.1 = (k, A.item) → y.2 = n)) :
    Owned A k n (xs ++ ys) := by
  have hstart : (k, A.start) ∉ ys.map Prod.fst := by
    intro hmem
    obtain ⟨y, hy, heq⟩ := List.mem_map.mp hmem
    exact (hnew y hy).1 heq
  induction xs with
  | nil =>
    induction ys with
    | nil => trivial
    | cons y ys ih =>
      refine ⟨fun hitem => iff_of_true ((hnew y (by simp)).2 hitem) ?_, ?_⟩
      · exact fun hmem => hstart (List.mem_cons_of_mem _ hmem)
      · exact ih (fun z hz => hnew z (List.mem_cons_of_mem _ hz))
          (fun hmem => hstart (List.mem_cons_of_mem _ hmem))
  | cons x xs ih =>
    refine ⟨fun hitem => ?_, ih h.2⟩
    change x.2 = n ↔ (k, A.start) ∉ (xs ++ ys).map Prod.fst
    rw [h.1 hitem, List.map_append, List.mem_append, not_or, and_iff_left hstart]

/-- Behind the queue a session starts that nothing in it is of. -/
theorem Owned.start (hold : ∀ x ∈ xs, x.2 ≠ n) (hA : A.start ≠ A.item) :
    Owned A k n (xs ++ [((k, A.start), n)]) := by
  induction xs with
  | nil => exact ⟨fun heq => absurd (Prod.mk.inj heq).2 hA, trivial⟩
  | cons x xs ih =>
    refine ⟨fun _ => iff_of_false (hold x (by simp)) ?_, ih fun z hz => hold z (by simp [hz])⟩
    simp

/-! ## Keys -/

variable [DecidableEq κ]

/-- The events of a key. -/
def ofKey (es : List (κ × ε)) (k : κ) : List ε := (es.filter (·.1 = k)).map Prod.snd

variable {ks : List (κ × ε)} {active : κ → Bool}

theorem ofKey_append (ks ks' : List (κ × ε)) (k : κ) :
    ofKey (ks ++ ks') k = ofKey ks k ++ ofKey ks' k := by
  simp [ofKey]

theorem ofKey_self (k : κ) (es : List ε) : ofKey (es.map fun e => (k, e)) k = es := by
  have hfilter : ((es.map fun e => (k, e)).filter fun p => p.1 = k) = es.map fun e => (k, e) :=
    List.filter_eq_self.mpr (by simp)
  rw [ofKey, hfilter, List.map_map]
  exact List.map_id es

theorem ofKey_of_ne {k' : κ} (h : k' ≠ k) (es : List ε) : ofKey (es.map fun e => (k, e)) k' = [] := by
  have hfilter : ((es.map fun e => (k, e)).filter fun p => p.1 = k') = [] :=
    List.filter_eq_nil_iff.mpr (by simp [h.symm])
  rw [ofKey, hfilter]
  rfl

variable (A) in
/-- The events of every key are a log. -/
def Logs (ks : List (κ × ε)) (active : κ → Bool) : Prop := ∀ k, Log A (ofKey ks k) (active k)

/-- Events of one key change its log only. -/
theorem Logs.append (h : Logs A ks active) (es : List ε) {b : Bool}
    (hk : Log A (ofKey ks k) (active k) → Log A (ofKey ks k ++ es) b) :
    Logs A (ks ++ es.map fun e => (k, e)) (Function.update active k b) := by
  intro k'
  rw [ofKey_append]
  by_cases hk' : k' = k
  · subst hk'
    rw [ofKey_self, Function.update_self]
    exact hk (h k')
  · rw [ofKey_of_ne hk', List.append_nil, Function.update_of_ne hk']
    exact h k'

theorem Logs.start (h : Logs A ks active) (hk : active k = false) :
    Logs A (ks ++ [(k, A.start)]) (Function.update active k true) :=
  h.append [A.start] fun hlog => (hk ▸ hlog).start

theorem Logs.items (h : Logs A ks active) (hk : active k = true) (n : Nat) :
    Logs A (ks ++ List.replicate n (k, A.item)) active := by
  have hitems : Log A (ofKey ks k) (active k) →
      Log A (ofKey ks k ++ List.replicate n A.item) true := fun hlog => Log.items (hk ▸ hlog) n
  have hnext := h.append (List.replicate n A.item) hitems
  rwa [List.map_replicate, Function.update_eq_self_iff.mpr hk.symm] at hnext

theorem Logs.stop (h : Logs A ks active) (hk : active k = true) :
    Logs A (ks ++ [(k, A.stop)]) (Function.update active k false) :=
  h.append [A.stop] fun hlog => (hk ▸ hlog).stop

end Sessions
