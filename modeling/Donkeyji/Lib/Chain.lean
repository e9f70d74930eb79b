/-
Donkeyji.Lib.Chain — singly linked lists in memory.

A node's `next` field is a function from nodes to optional nodes. `Seg next s
l e` says that following the links from the pointer `s` one meets exactly the
nodes `l` and arrives at the pointer `e`; `Chain next s l` is the case where
the list ends. A chain is determined by where it starts, so it never meets a
node twice.

The rules say what a change of one link does to a chain: links outside the
chain do not matter, and a node can be inserted behind another one and unlinked again.
-/
import Mathlib.Tactic

namespace LinkedList

variable {α : Type*} {next next' : α → Option α}

/-- From the pointer `s`, the links pass the nodes `l` and arrive at `e`. -/
def Seg (next : α → Option α) : Option α → List α → Option α → Prop
  | s, [], e => s = e
  | s, a :: l, e => s = some a ∧ Seg next (next a) l e

/-- The nodes from `s` to the end of the list. -/
def Chain (next : α → Option α) (s : Option α) (l : List α) : Prop := Seg next s l none

/-- A node that can be reached from the pointer `s`. -/
def Reach (next : α → Option α) (s : Option α) (a : α) : Prop := ∃ l, Seg next s l (some a)

@[simp] theorem seg_nil {s e : Option α} : Seg next s [] e ↔ s = e := Iff.rfl

@[simp] theorem seg_cons {s e : Option α} {a : α} {l : List α} :
    Seg next s (a :: l) e ↔ s = some a ∧ Seg next (next a) l e := Iff.rfl

@[simp] theorem chain_nil {s : Option α} : Chain next s [] ↔ s = none := Iff.rfl

@[simp] theorem chain_cons {s : Option α} {a : α} {l : List α} :
    Chain next s (a :: l) ↔ s = some a ∧ Chain next (next a) l := Iff.rfl

/-- A segment splits at every point of it. -/
theorem seg_append {s e : Option α} {l m : List α} :
    Seg next s (l ++ m) e ↔ ∃ x, Seg next s l x ∧ Seg next x m e := by
  induction l generalizing s with
  | nil => simp
  | cons a l ih => simp [ih, and_assoc]

theorem chain_append {s : Option α} {l m : List α} :
    Chain next s (l ++ m) ↔ ∃ x, Seg next s l x ∧ Chain next x m := seg_append

/-- A chain is determined by its first pointer. -/
theorem Chain.unique {s : Option α} : ∀ {l m : List α}, Chain next s l → Chain next s m → l = m
  | [], [], _, _ => rfl
  | [], b :: m, hl, hm => by
      rw [chain_nil.mp hl] at hm
      cases hm.1
  | a :: l, [], hl, hm => by
      rw [chain_nil.mp hm] at hl
      cases hl.1
  | a :: l, b :: m, hl, hm => by
      obtain ⟨rfl, hl'⟩ := chain_cons.mp hl
      obtain ⟨hab, hm'⟩ := chain_cons.mp hm
      cases hab
      rw [hl'.unique hm']

/-- No node occurs twice in a chain. -/
theorem Chain.nodup {s : Option α} {l : List α} (h : Chain next s l) : l.Nodup := by
  induction l generalizing s with
  | nil => exact List.nodup_nil
  | cons a l ih =>
    obtain ⟨rfl, hl⟩ := chain_cons.mp h
    refine List.nodup_cons.mpr ⟨fun hmem => ?_, ih hl⟩
    -- if `a` came again, the rest of the list from there would be the whole list
    obtain ⟨p, q, rfl⟩ := List.append_of_mem hmem
    obtain ⟨x, -, hx⟩ := chain_append.mp hl
    obtain ⟨rfl, hq⟩ := chain_cons.mp hx
    have heq := hl.unique hq
    have hlen := congrArg List.length heq
    simp at hlen
    omega

/-- The links of other nodes do not matter. -/
theorem Seg.congr {s e : Option α} {l : List α} (h : Seg next s l e)
    (heq : ∀ a ∈ l, next' a = next a) : Seg next' s l e := by
  induction l generalizing s with
  | nil => exact h
  | cons a l ih =>
    refine ⟨h.1, ?_⟩
    rw [heq a (by simp)]
    exact ih h.2 fun b hb => heq b (by simp [hb])

theorem Chain.congr {s : Option α} {l : List α} (h : Chain next s l)
    (heq : ∀ a ∈ l, next' a = next a) : Chain next' s l := Seg.congr h heq

/-- The nodes that can be reached are the nodes of the chain. -/
theorem Chain.reach_iff {s : Option α} {l : List α} (h : Chain next s l) {a : α} :
    Reach next s a ↔ a ∈ l := by
  constructor
  · rintro ⟨p, hp⟩
    induction p generalizing s l with
    | nil =>
      cases l with
      | nil => rw [chain_nil.mp h] at hp; cases hp
      | cons b l =>
        obtain ⟨hb, -⟩ := chain_cons.mp h
        rw [seg_nil.mp hp] at hb
        cases hb
        simp
    | cons c p ih =>
      obtain ⟨rfl, hp⟩ := hp
      cases l with
      | nil => cases chain_nil.mp h
      | cons b l =>
        obtain ⟨hb, hl⟩ := chain_cons.mp h
        cases hb
        exact List.mem_cons_of_mem _ (ih hl hp)
  · intro hmem
    obtain ⟨p, q, rfl⟩ := List.append_of_mem hmem
    obtain ⟨x, hp, hx⟩ := chain_append.mp h
    obtain ⟨rfl, -⟩ := chain_cons.mp hx
    exact ⟨p, hp⟩

/-- Unlink `b` from behind `a`: only the link of `a` changes, to that of `b`. -/
theorem Chain.unlink {s : Option α} {l m : List α} {a b : α}
    (h : Chain next s (l ++ a :: b :: m)) (ha : next' a = next b)
    (heq : ∀ c ∈ l ++ b :: m, next' c = next c) : Chain next' s (l ++ a :: m) := by
  obtain ⟨x, hl, hx⟩ := chain_append.mp h
  obtain ⟨rfl, hab⟩ := chain_cons.mp hx
  obtain ⟨-, hm⟩ := chain_cons.mp hab
  refine chain_append.mpr ⟨some a, hl.congr fun c hc => heq c (by simp [hc]), rfl, ?_⟩
  rw [ha]
  exact hm.congr fun c hc => heq c (by simp [hc])

/-- Insert `b` behind `a`: it gets the link of `a`, and `a` links to it. -/
theorem Chain.insert {s : Option α} {l m : List α} {a b : α} (h : Chain next s (l ++ a :: m))
    (ha : next' a = some b) (hb : next' b = next a) (heq : ∀ c ∈ l ++ m, next' c = next c) :
    Chain next' s (l ++ a :: b :: m) := by
  obtain ⟨x, hl, hx⟩ := chain_append.mp h
  obtain ⟨rfl, hm⟩ := chain_cons.mp hx
  refine chain_append.mpr ⟨some a, hl.congr fun c hc => heq c (by simp [hc]), rfl, ha, ?_⟩
  rw [hb]
  exact hm.congr fun c hc => heq c (by simp [hc])

/-- Only one node of a chain links to the node `b`. -/
theorem Chain.pred_unique {s : Option α} {l m : List α} {a b c : α}
    (h : Chain next s (l ++ a :: b :: m)) (hc : c ∈ l ++ a :: b :: m) (hcb : next c = some b) :
    c = a := by
  have hnodup := h.nodup
  obtain ⟨p, q, heq⟩ := List.append_of_mem hc
  rw [heq] at h
  obtain ⟨x, -, hx⟩ := chain_append.mp h
  have hq := (chain_cons.mp hx).2
  rw [hcb] at hq
  cases q with
  | nil => cases chain_nil.mp hq
  | cons d q =>
    cases (chain_cons.mp hq).1
    have hsplit : (l ++ [a]) ++ b :: m = (p ++ [c]) ++ b :: q := by simpa using heq
    have hnodup' : ((l ++ [a]) ++ b :: m).Nodup := by simpa using hnodup
    have hl : b ∉ l ++ [a] := fun hmem =>
      (List.nodup_append.mp hnodup').2.2 b hmem b List.mem_cons_self rfl
    have hm : b ∉ m := (List.nodup_cons.mp (List.nodup_append.mp hnodup').2.1).1
    have hlast := ((List.append_cons_inj_of_notMem hl hm).mp hsplit).1
    exact ((List.append_inj' hlast rfl).2 |> List.cons.inj).1.symm

/-- The first pointer leads to the first node. -/
theorem Chain.head {s : Option α} {l : List α} (h : Chain next s l) : s = l.head? := by
  cases l with
  | nil => exact h
  | cons a l => exact h.1

end LinkedList
