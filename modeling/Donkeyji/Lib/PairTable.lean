/-
Donkeyji.Lib.PairTable — tables that can be gone through.

A table leads from keys to values and lists the keys that lead to one, each
once, in some order: the order in which a loop over its pairs meets them.
Storing `none` takes a key out.

The loops of interest visit the keys of one table and store into another one,
each key once, under a condition on what the key leads to. What such a loop
leaves does not depend on the order (`get_foldl_store`).
-/
import Mathlib.Data.List.Nodup
import Mathlib.Tactic

/-- A table with its keys in the order in which they are met. -/
structure PairTable (κ ν : Type*) where
  get : κ → Option ν
  keys : List κ
  nodup : keys.Nodup
  mem_keys : ∀ k, k ∈ keys ↔ (get k).isSome = true

namespace PairTable

variable {κ ν : Type*}

/-- The table without keys. -/
def empty : PairTable κ ν where
  get _ := none
  keys := []
  nodup := List.nodup_nil
  mem_keys k := by simp

@[simp] theorem get_empty (k : κ) : (empty : PairTable κ ν).get k = none := rfl

variable [DecidableEq κ]

/-- Store a value, or take the key out. -/
def set (t : PairTable κ ν) (k : κ) (v : Option ν) : PairTable κ ν where
  get := Function.update t.get k v
  keys :=
    match v with
    | none => t.keys.erase k
    | some _ => if k ∈ t.keys then t.keys else t.keys ++ [k]
  nodup := by
    cases v with
    | none => exact t.nodup.erase k
    | some v =>
      simp only
      split
      · exact t.nodup
      · rename_i hk
        exact List.nodup_append.mpr ⟨t.nodup, List.nodup_singleton k, by
          intro a ha b hb he
          rw [List.mem_singleton.mp hb] at he
          exact hk (he ▸ ha)⟩
  mem_keys j := by
    have hold := t.mem_keys j
    by_cases hj : j = k
    · subst hj
      cases v with
      | none => simp [t.nodup.mem_erase_iff]
      | some v =>
        simp only [Function.update_self, Option.isSome_some, iff_true]
        split
        · assumption
        · simp
    · rw [Function.update_of_ne hj, ← hold]
      cases v with
      | none => simp [t.nodup.mem_erase_iff, hj]
      | some v =>
        simp only
        split
        · rfl
        · simp [hj]

@[simp] theorem get_set_self (t : PairTable κ ν) (k : κ) (v : Option ν) :
    (t.set k v).get k = v := by
  simp [set]

theorem get_set_of_ne (t : PairTable κ ν) {j k : κ} (h : j ≠ k) (v : Option ν) :
    (t.set k v).get j = t.get j := by
  simp [set, h]

/-- The keys and values, stored one after the other. -/
def ofList (es : List (κ × ν)) : PairTable κ ν := es.foldl (fun t e => t.set e.1 (some e.2)) empty

/-- One turn of a loop over pairs: what a key leads to is replaced under a condition. -/
def storeIf (cond : κ → Option ν → Bool) (new : κ → Option ν) (t : PairTable κ ν) (k : κ) :
    PairTable κ ν :=
  if cond k (t.get k) then t.set k (new k) else t

variable {cond : κ → Option ν → Bool} {new : κ → Option ν}

theorem get_storeIf_self (t : PairTable κ ν) (k : κ) :
    (t.storeIf cond new k).get k = if cond k (t.get k) then new k else t.get k := by
  unfold storeIf
  split <;> simp

theorem get_storeIf_of_ne (t : PairTable κ ν) {j k : κ} (h : j ≠ k) :
    (t.storeIf cond new k).get j = t.get j := by
  unfold storeIf
  split
  · exact t.get_set_of_ne h _
  · rfl

/-- **A loop over pairs** replaces what the visited keys lead to, each on its own condition. -/
theorem get_foldl_store {ks : List κ} (hks : ks.Nodup) (t : PairTable κ ν) (j : κ) :
    (ks.foldl (storeIf cond new) t).get j =
      if j ∈ ks ∧ cond j (t.get j) = true then new j else t.get j := by
  induction ks generalizing t with
  | nil => simp
  | cons k ks ih =>
    obtain ⟨hk, hks⟩ := List.nodup_cons.mp hks
    rw [List.foldl_cons, ih hks]
    by_cases hj : j = k
    · subst hj
      simp [hk, get_storeIf_self]
    · simp [hj, get_storeIf_of_ne _ hj]

end PairTable
