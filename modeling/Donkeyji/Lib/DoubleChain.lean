/-
Donkeyji.Lib.DoubleChain — doubly linked lists in memory that end in NULL on
both sides.

The `next` and `prev` fields of the nodes are functions to optional nodes.
`DoubleChain next prev p s l` says that from the pointer `s` one meets exactly
the nodes `l`, that every node points back to the one before it and the first
one to `p`. The rules are the three writes of a list without a tail pointer:
in front, off the front, and out from behind a node.

`column` is one field of a table of records, as a function of the place. Nodes
that are allocated one after the other and never freed are such a table.
-/
import Donkeyji.Lib.Chain

namespace LinkedList

variable {α : Type*} {next prev next' prev' : α → Option α} {p s : Option α} {a b : α}
  {l m : List α}

/-- From the pointer `s`, the links pass the nodes `l` to the end and lead back to `p`. -/
def DoubleChain (next prev : α → Option α) : Option α → Option α → List α → Prop
  | _, s, [] => s = none
  | p, s, a :: l => s = some a ∧ prev a = p ∧ DoubleChain next prev (some a) (next a) l

@[simp] theorem doubleChain_nil : DoubleChain next prev p s [] ↔ s = none := Iff.rfl

@[simp] theorem doubleChain_cons : DoubleChain next prev p s (a :: l) ↔
    s = some a ∧ prev a = p ∧ DoubleChain next prev (some a) (next a) l := Iff.rfl

/-- One way it is a list that ends in NULL. -/
theorem DoubleChain.chain (h : DoubleChain next prev p s l) : Chain next s l := by
  induction l generalizing p s with
  | nil => exact h
  | cons a l ih => exact ⟨h.1, ih h.2.2⟩

theorem DoubleChain.nodup (h : DoubleChain next prev p s l) : l.Nodup := h.chain.nodup

/-- The first pointer leads to the first node. -/
theorem DoubleChain.head (h : DoubleChain next prev p s l) : s = l.head? := by
  cases l with
  | nil => exact h
  | cons a l => exact h.1

/-- The links of other nodes do not matter. -/
theorem DoubleChain.congr (h : DoubleChain next prev p s l) (hnext : ∀ a ∈ l, next' a = next a)
    (hprev : ∀ a ∈ l, prev' a = prev a) : DoubleChain next' prev' p s l := by
  induction l generalizing p s with
  | nil => exact h
  | cons a l ih =>
    refine ⟨h.1, (hprev a (by simp)).trans h.2.1, ?_⟩
    rw [hnext a (by simp)]
    exact ih h.2.2 (fun b hb => hnext b (by simp [hb])) fun b hb => hprev b (by simp [hb])

/-- Only the back link of the first node changes. -/
theorem DoubleChain.rebase {q : Option α} (h : DoubleChain next prev p s l)
    (hnext : ∀ a ∈ l, next' a = next a) (hfirst : ∀ a, s = some a → prev' a = q)
    (hprev : ∀ a ∈ l, s ≠ some a → prev' a = prev a) : DoubleChain next' prev' q s l := by
  have hnd := h.nodup
  cases l with
  | nil => exact h
  | cons a l =>
    refine ⟨h.1, hfirst a h.1, ?_⟩
    rw [hnext a (by simp)]
    refine h.2.2.congr (fun b hb => hnext b (by simp [hb])) fun b hb => ?_
    refine hprev b (by simp [hb]) fun heq => ?_
    rw [h.1] at heq
    cases heq
    exact (List.nodup_cons.mp hnd).1 hb

/-- A node is put in front. -/
theorem DoubleChain.pushFront (h : DoubleChain next prev p s l) (ha : next' a = s)
    (hap : prev' a = p) (hnext : ∀ b ∈ l, next' b = next b)
    (hfirst : ∀ b, s = some b → prev' b = some a)
    (hprev : ∀ b ∈ l, s ≠ some b → prev' b = prev b) :
    DoubleChain next' prev' p (some a) (a :: l) := by
  refine ⟨rfl, hap, ?_⟩
  rw [ha]
  exact h.rebase hnext hfirst hprev

/-- The first node is taken off. -/
theorem DoubleChain.popFront (h : DoubleChain next prev p s (a :: l))
    (hnext : ∀ b ∈ l, next' b = next b) (hfirst : ∀ b, next a = some b → prev' b = p)
    (hprev : ∀ b ∈ l, next a ≠ some b → prev' b = prev b) :
    DoubleChain next' prev' p (next a) l := h.2.2.rebase hnext hfirst hprev

/-- The node behind `b` points back to it. -/
theorem DoubleChain.prev_eq (h : DoubleChain next prev p s (l ++ b :: a :: m)) :
    prev a = some b := by
  induction l generalizing p s with
  | nil => exact h.2.2.2.1
  | cons c l ih => exact ih h.2.2

/-- The node `a` is taken out from behind `b`. -/
theorem DoubleChain.unlink (h : DoubleChain next prev p s (l ++ b :: a :: m))
    (hb : next' b = next a) (hnext : ∀ c ∈ l ++ m, next' c = next c)
    (hfirst : ∀ c, next a = some c → prev' c = some b)
    (hprev : ∀ c ∈ l ++ b :: m, next a ≠ some c → prev' c = prev c) :
    DoubleChain next' prev' p s (l ++ b :: m) := by
  have hnd := h.nodup
  -- what follows `a` comes after all of this
  have hlate : ∀ c ∈ l ++ [b], next a ≠ some c := by
    intro c hc heq
    have htail : Chain next (some b) (b :: a :: m) := by
      obtain ⟨x, -, hx⟩ := chain_append.mp h.chain
      rwa [← (chain_cons.mp hx).1]
    have hm : Chain next (next a) m := htail.2.2
    cases m with
    | nil => rw [chain_nil.mp hm] at heq; cases heq
    | cons d m =>
      rw [(chain_cons.mp hm).1] at heq
      cases heq
      simp only [List.nodup_append, List.nodup_cons, List.mem_cons, List.mem_append] at hnd hc
      grind
  induction l generalizing p s with
  | nil =>
    obtain ⟨hs, hp, hbs, hab, hm⟩ := h
    refine ⟨hs, (hprev b (by simp) (hlate b (by simp))).trans hp, ?_⟩
    rw [hb]
    exact hm.rebase (fun c hc => hnext c (by simpa using hc)) hfirst
      fun c hc => hprev c (by simp [hc])
  | cons c l ih =>
    obtain ⟨hs, hp, hrest⟩ := h
    refine ⟨hs, (hprev c (by simp) (hlate c (by simp))).trans hp, ?_⟩
    rw [hnext c (by simp)]
    exact ih hrest (fun d hd => hnext d (by simp at hd ⊢; exact .inr hd))
      (fun d hd => hprev d (by simp at hd ⊢; exact .inr hd)) (List.nodup_cons.mp hnd).2
      fun d hd => hlate d (by simp at hd ⊢; exact .inr hd)

/-! ## Columns -/

variable {β γ : Type*} {rows : List β} {f : β → γ} {d : γ}

/-- A field of the rows of a table. -/
def column (rows : List β) (f : β → γ) (d : γ) (i : Nat) : γ := (rows[i]?.map f).getD d

theorem column_of_get {i : Nat} {r : β} (h : rows[i]? = some r) : column rows f d i = f r := by
  simp [column, h]

theorem column_of_le {i : Nat} (h : rows.length ≤ i) : column rows f d i = d := by
  simp [column, h]

/-- A field of all rows. -/
theorem map_eq_column (rows : List β) (f : β → γ) (d : γ) :
    rows.map f = (List.range rows.length).map (column rows f d) := by
  refine List.ext_getElem? fun i => ?_
  by_cases hi : i < rows.length
  · simp [hi, column]
  · simp [not_lt.mp hi]

/-- Writing a row writes its fields. -/
theorem column_set {i : Nat} (h : i < rows.length) (r : β) :
    column (rows.set i r) f d = Function.update (column rows f d) i (f r) := by
  funext j
  by_cases hj : j = i
  · subst hj
    simp [column, h]
  · simp [column, hj, List.getElem?_set_ne (Ne.symm hj)]

/-- Writing a row that has the same entry in a field leaves this field. -/
theorem map_set_same {i : Nat} {r r' : β} (h : rows[i]? = some r) (hf : f r' = f r) :
    (rows.set i r').map f = rows.map f := by
  refine List.ext_getElem? fun j => ?_
  by_cases hj : i = j
  · subst hj
    have hlt : i < rows.length := (List.getElem?_eq_some_iff.mp h).1
    rw [List.getElem?_map, List.getElem?_map, List.getElem?_set_self hlt, h]
    exact congrArg some hf
  · simp [List.getElem?_set_ne hj]

theorem column_eq_map : column rows f d = column (rows.map f) id d := by
  funext i
  simp [column]

theorem column_set_same {i : Nat} {r r' : β} (h : rows[i]? = some r) (hf : f r' = f r) :
    column (rows.set i r') f d = column rows f d := by
  rw [column_eq_map, map_set_same h hf, ← column_eq_map]

/-- A new row behind the others. -/
theorem column_append (r : β) :
    column (rows ++ [r]) f d = Function.update (column rows f d) rows.length (f r) := by
  funext j
  rcases Nat.lt_trichotomy j rows.length with hj | hj | hj
  · simp [column, List.getElem?_append_left hj, Nat.ne_of_lt hj]
  · subst hj
    simp [column]
  · simp [column, Nat.ne_of_gt hj, List.getElem?_eq_none_iff.mpr (Nat.le_of_lt hj),
      List.getElem?_append_right (Nat.le_of_lt hj), Nat.sub_ne_zero_of_lt hj]

end LinkedList
