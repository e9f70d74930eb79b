/-
Donkeyji.Lib.FileTree — files and directories.

A path lists the names from the inside out, so that its tail is the directory
it is in; the empty path is the root. A tree has directories all the way up
from everything in it. The operations are the ones of a system: they have no
result where the system reports an error.

`removeAll` and `rmdirAll` remove the files and the directories of a list in
its order, until one cannot be removed.
-/
import Donkeyji.Lib.PairTable

/-- What a path leads to. -/
inductive FileNode (β : Type*) where
  | dir
  | file (content : β)
deriving DecidableEq, Repr

/-- Files and directories. -/
structure FileTree (ν β : Type*) where
  nodes : PairTable (List ν) (FileNode β)
  root : nodes.get [] = some .dir
  parent : ∀ n p, nodes.get (n :: p) ≠ none → nodes.get p = some .dir

namespace FileTree

variable {ν β : Type*}

/-- What the path leads to. -/
def get (t : FileTree ν β) (p : List ν) : Option (FileNode β) := t.nodes.get p

theorem get_root (t : FileTree ν β) : t.get [] = some .dir := t.root

/-- What is in something is in a directory. -/
theorem get_parent (t : FileTree ν β) {n : ν} {p : List ν} (h : t.get (n :: p) ≠ none) :
    t.get p = some .dir := t.parent n p h

/-- What has something below it is there. -/
theorem get_of_append (t : FileTree ν β) {m p : List ν} (h : t.get (m ++ p) ≠ none) :
    t.get p ≠ none := by
  induction m with
  | nil => exact h
  | cons n m ih =>
    have hdir : t.get (m ++ p) = some .dir := t.get_parent h
    exact ih (by simp [hdir])

/-- What has a directory below it is a directory. -/
theorem get_dir_of_append (t : FileTree ν β) {m p : List ν} (h : t.get (m ++ p) = some .dir) :
    t.get p = some .dir := by
  induction m with
  | nil => exact h
  | cons n m ih =>
    have hthere : t.get (n :: (m ++ p)) ≠ none := by simp [show t.get (n :: (m ++ p)) = _ from h]
    exact ih (t.get_parent hthere)

variable [DecidableEq ν]

/-- The tree with the root alone. -/
def empty : FileTree ν β where
  nodes := PairTable.empty.set [] (some .dir)
  root := PairTable.get_set_self _ _ _
  parent n p h := absurd (PairTable.get_set_of_ne _ (List.cons_ne_nil n p) _) h

/-- Something new, or something else that is no directory, in a directory. -/
def put (t : FileTree ν β) (n : ν) (p : List ν) (e : FileNode β) (hp : t.get p = some .dir)
    (hn : t.get (n :: p) ≠ some .dir) : FileTree ν β where
  nodes := t.nodes.set (n :: p) (some e)
  root := by
    rw [PairTable.get_set_of_ne _ (List.cons_ne_nil n p).symm]
    exact t.root
  parent m q h := by
    have hq : t.nodes.get q = some .dir := by
      by_cases heq : m :: q = n :: p
      · cases heq
        exact hp
      · rw [PairTable.get_set_of_ne _ heq] at h
        exact t.parent m q h
    have hne : q ≠ n :: p := by
      rintro rfl
      exact hn hq
    rw [PairTable.get_set_of_ne _ hne]
    exact hq

/-- Without something that has nothing in it. -/
def cut (t : FileTree ν β) (n : ν) (p : List ν) (h : ∀ m, t.get (m :: n :: p) = none) :
    FileTree ν β where
  nodes := t.nodes.set (n :: p) none
  root := by
    rw [PairTable.get_set_of_ne _ (List.cons_ne_nil n p).symm]
    exact t.root
  parent m q hq := by
    have hold : t.nodes.get (m :: q) ≠ none := by
      by_cases heq : m :: q = n :: p
      · rw [heq, PairTable.get_set_self] at hq
        exact absurd rfl hq
      · rwa [PairTable.get_set_of_ne _ heq] at hq
    have hne : q ≠ n :: p := by
      rintro rfl
      exact hold (h m)
    rw [PairTable.get_set_of_ne _ hne]
    exact t.parent m q hold

variable [DecidableEq β]

/-- `mkdir`: a directory in a directory, where there is nothing. -/
def mkdir (t : FileTree ν β) : List ν → Option (FileTree ν β)
  | [] => none
  | n :: p =>
    if h : t.get p = some .dir ∧ t.get (n :: p) = none then
      some (t.put n p .dir h.1 (by simp [h.2]))
    else
      none

/-- Open a file to write into it, and write: it may have been there before. -/
def write (t : FileTree ν β) (content : β) : List ν → Option (FileTree ν β)
  | [] => none
  | n :: p =>
    if h : t.get p = some .dir ∧ t.get (n :: p) ≠ some .dir then
      some (t.put n p (.file content) h.1 h.2)
    else
      none

/-- The path leads to a file. -/
def IsFile (t : FileTree ν β) (p : List ν) : Prop := t.get p ≠ none ∧ t.get p ≠ some .dir

instance (t : FileTree ν β) (p : List ν) : Decidable (t.IsFile p) :=
  inferInstanceAs (Decidable (_ ∧ _))

/-- There is nothing in what the path leads to. -/
def Vacant (t : FileTree ν β) (p : List ν) : Prop := ∀ q ∈ t.nodes.keys, q.tail = p → q = []

instance (t : FileTree ν β) (p : List ν) : Decidable (t.Vacant p) :=
  inferInstanceAs (Decidable (∀ q ∈ _, _))

omit [DecidableEq ν] [DecidableEq β] in
theorem vacant_iff {t : FileTree ν β} {p : List ν} :
    t.Vacant p ↔ ∀ n, t.get (n :: p) = none := by
  constructor
  · intro h n
    by_contra hne
    have hmem : n :: p ∈ t.nodes.keys :=
      (t.nodes.mem_keys _).mpr (Option.isSome_iff_ne_none.mpr hne)
    cases h _ hmem rfl
  · intro h q hq hp
    cases q with
    | nil => rfl
    | cons n q =>
      have hnone : t.nodes.get (n :: q) = none := by
        rw [show q = p from hp]
        exact h n
      rw [t.nodes.mem_keys, hnone] at hq
      cases hq

omit [DecidableEq ν] [DecidableEq β] in
/-- There is nothing in a file. -/
theorem IsFile.children {t : FileTree ν β} {p : List ν} (h : t.IsFile p) (n : ν) :
    t.get (n :: p) = none := by
  by_contra hne
  exact h.2 (t.get_parent hne)

/-- `remove`: a file. -/
def remove (t : FileTree ν β) : List ν → Option (FileTree ν β)
  | [] => none
  | n :: p => if h : t.IsFile (n :: p) then some (t.cut n p h.children) else none

/-- `rmdir`: a directory with nothing in it. -/
def rmdir (t : FileTree ν β) : List ν → Option (FileTree ν β)
  | [] => none
  | n :: p =>
    if h : t.get (n :: p) = some .dir ∧ t.Vacant (n :: p) then
      some (t.cut n p (vacant_iff.mp h.2))
    else
      none

/-! ## What the operations do -/

variable {t t' : FileTree ν β} {p q : List ν} {content : β}

theorem mkdir_spec (h : t.mkdir p = some t') : t.get p = none ∧ t.get p.tail = some .dir ∧
    t'.get = Function.update t.get p (some .dir) := by
  cases p with
  | nil => cases h
  | cons n p =>
    by_cases hp : t.get p = some .dir ∧ t.get (n :: p) = none
    · rw [mkdir, dif_pos hp] at h
      cases h
      exact ⟨hp.2, hp.1, rfl⟩
    · rw [mkdir, dif_neg hp] at h
      cases h

theorem write_spec (h : t.write content p = some t') : t.get p.tail = some .dir ∧
    t.get p ≠ some .dir ∧ t'.get = Function.update t.get p (some (.file content)) := by
  cases p with
  | nil => cases h
  | cons n p =>
    by_cases hp : t.get p = some .dir ∧ t.get (n :: p) ≠ some .dir
    · rw [write, dif_pos hp] at h
      cases h
      exact ⟨hp.1, hp.2, rfl⟩
    · rw [write, dif_neg hp] at h
      cases h

theorem exists_write (hp : t.get p.tail = some .dir) (hn : t.get p ≠ some .dir) :
    ∃ t', t.write content p = some t' := by
  cases p with
  | nil => exact absurd t.get_root hn
  | cons n p => exact ⟨_, dif_pos ⟨hp, hn⟩⟩

theorem remove_spec (h : t.remove p = some t') :
    t.IsFile p ∧ t'.get = Function.update t.get p none := by
  cases p with
  | nil => cases h
  | cons n p =>
    by_cases hp : t.IsFile (n :: p)
    · rw [remove, dif_pos hp] at h
      cases h
      exact ⟨hp, rfl⟩
    · rw [remove, dif_neg hp] at h
      cases h

theorem exists_remove (hp : t.IsFile p) : ∃ t', t.remove p = some t' := by
  cases p with
  | nil => exact absurd t.get_root hp.2
  | cons n p => exact ⟨_, dif_pos hp⟩

theorem rmdir_spec (h : t.rmdir p = some t') : t.get p = some .dir ∧
    (∀ n, t.get (n :: p) = none) ∧ t'.get = Function.update t.get p none := by
  cases p with
  | nil => cases h
  | cons n p =>
    by_cases hp : t.get (n :: p) = some .dir ∧ t.Vacant (n :: p)
    · rw [rmdir, dif_pos hp] at h
      cases h
      exact ⟨hp.1, vacant_iff.mp hp.2, rfl⟩
    · rw [rmdir, dif_neg hp] at h
      cases h

theorem exists_rmdir (hp : t.get p = some .dir) (hroot : p ≠ []) (hn : ∀ n, t.get (n :: p) = none) :
    ∃ t', t.rmdir p = some t' := by
  cases p with
  | nil => exact absurd rfl hroot
  | cons n p => exact ⟨_, dif_pos ⟨hp, vacant_iff.mpr hn⟩⟩

/-! ## Lists of removals -/

/-- An operation on the paths of a list, until it has no result; whether it had all of them. -/
def untilError (op : FileTree ν β → List ν → Option (FileTree ν β)) :
    FileTree ν β → List (List ν) → FileTree ν β × Bool
  | t, [] => (t, true)
  | t, p :: ps =>
    match op t p with
    | some t' => untilError op t' ps
    | none => (t, false)

/-- Remove the files of a list. -/
def removeAll (t : FileTree ν β) (ps : List (List ν)) : FileTree ν β × Bool :=
  untilError remove t ps

/-- Remove the directories of a list. -/
def rmdirAll (t : FileTree ν β) (ps : List (List ν)) : FileTree ν β × Bool :=
  untilError rmdir t ps

/-- The operation takes out what the path leads to. -/
def Removes (op : FileTree ν β → List ν → Option (FileTree ν β)) : Prop :=
  ∀ t p t', op t p = some t' → t.get p ≠ none ∧ t'.get = Function.update t.get p none

theorem removes_remove : Removes (remove (ν := ν) (β := β)) :=
  fun _ _ _ h => ⟨(remove_spec h).1.1, (remove_spec h).2⟩

theorem removes_rmdir : Removes (rmdir (ν := ν) (β := β)) :=
  fun _ _ _ h => ⟨by simp [(rmdir_spec h).1], (rmdir_spec h).2.2⟩

variable {op : FileTree ν β → List ν → Option (FileTree ν β)} {ps qs : List (List ν)}

omit [DecidableEq β] in
/-- What is not in the list stays, and nothing comes up. -/
theorem untilError_get (hop : Removes op) (t : FileTree ν β) (ps : List (List ν)) (q : List ν) :
    (untilError op t ps).1.get q = t.get q ∨ q ∈ ps ∧ (untilError op t ps).1.get q = none := by
  induction ps generalizing t with
  | nil => exact Or.inl rfl
  | cons p ps ih =>
    unfold untilError
    cases h : op t p with
    | none => exact Or.inl rfl
    | some t' =>
      obtain ⟨-, hget⟩ := hop t p t' h
      dsimp only
      by_cases hq : q = p
      · subst hq
        have hnone : t'.get q = none := by rw [hget, Function.update_self]
        refine Or.inr ⟨List.mem_cons_self, ?_⟩
        rcases ih t' with hsame | ⟨-, hgone⟩
        · rw [hsame, hnone]
        · exact hgone
      · have hsame : t'.get q = t.get q := by rw [hget, Function.update_of_ne hq]
        rw [← hsame]
        exact (ih t').imp_right fun h => ⟨List.mem_cons_of_mem p h.1, h.2⟩

omit [DecidableEq β] in
theorem untilError_unlisted (hop : Removes op) (t : FileTree ν β) (hq : q ∉ ps) :
    (untilError op t ps).1.get q = t.get q :=
  (untilError_get hop t ps q).resolve_right fun h => hq h.1

omit [DecidableEq β] in
/-- When all of the list could be removed, it had no repetition, all of it was there and all of it
is gone. -/
theorem untilError_ok (hop : Removes op) (h : (untilError op t ps).2 = true) :
    ps.Nodup ∧ ∀ q ∈ ps, t.get q ≠ none ∧ (untilError op t ps).1.get q = none := by
  induction ps generalizing t with
  | nil => simp
  | cons p ps ih =>
    unfold untilError at h ⊢
    cases hp : op t p with
    | none => simp [hp] at h
    | some t' =>
      obtain ⟨hthere, hget⟩ := hop t p t' hp
      simp only [hp] at h ⊢
      obtain ⟨hnodup, hall⟩ := ih h
      have hnone : t'.get p = none := by rw [hget, Function.update_self]
      have hnot : p ∉ ps := fun hmem => (hall p hmem).1 hnone
      refine ⟨List.nodup_cons.mpr ⟨hnot, hnodup⟩, fun q hq => ?_⟩
      rcases List.mem_cons.mp hq with rfl | hq
      · refine ⟨hthere, ?_⟩
        rcases untilError_get hop t' ps q with hsame | ⟨hmem, -⟩
        · rw [hsame, hnone]
        · exact absurd hmem hnot
      · obtain ⟨hthere', hgone⟩ := hall q hq
        have hne : q ≠ p := by
          rintro rfl
          exact hthere' hnone
        rw [hget, Function.update_of_ne hne] at hthere'
        exact ⟨hthere', hgone⟩

omit [DecidableEq ν] [DecidableEq β] in
/-- After an error nothing more is removed. -/
theorem untilError_append (h : (untilError op t ps).2 = false) :
    untilError op t (ps ++ qs) = untilError op t ps := by
  induction ps generalizing t with
  | nil => cases h
  | cons p ps ih =>
    rw [List.cons_append]
    unfold untilError at h ⊢
    cases hp : op t p with
    | none => rfl
    | some t' =>
      rw [hp] at h
      exact ih h

omit [DecidableEq ν] [DecidableEq β] in
/-- Without an error the rest of the list is next. -/
theorem untilError_append_ok (h : (untilError op t ps).2 = true) :
    untilError op t (ps ++ qs) = untilError op (untilError op t ps).1 qs := by
  induction ps generalizing t with
  | nil => rfl
  | cons p ps ih =>
    rw [List.cons_append]
    unfold untilError at h
    cases hp : op t p with
    | none => simp [hp] at h
    | some t' =>
      rw [hp] at h
      rw [untilError, untilError, hp]
      exact ih h

/-- Directories are not removed as files. -/
theorem removeAll_dir (t : FileTree ν β) (ps : List (List ν)) (h : t.get q = some .dir) :
    (t.removeAll ps).1.get q = some .dir := by
  unfold removeAll
  induction ps generalizing t with
  | nil => exact h
  | cons p ps ih =>
    unfold untilError
    cases hp : t.remove p with
    | none => exact h
    | some t' =>
      obtain ⟨hfile, hget⟩ := remove_spec hp
      have hne : q ≠ p := by
        rintro rfl
        exact hfile.2 h
      exact ih t' (by rw [hget, Function.update_of_ne hne, h])

/-- Files can be removed, each once. -/
theorem removeAll_files (h : ∀ p ∈ ps, t.IsFile p) (hnodup : ps.Nodup) :
    (t.removeAll ps).2 = true := by
  unfold removeAll
  induction ps generalizing t with
  | nil => rfl
  | cons p ps ih =>
    obtain ⟨hnot, hnodup⟩ := List.nodup_cons.mp hnodup
    obtain ⟨t', hp⟩ := exists_remove (h p List.mem_cons_self)
    obtain ⟨-, hget⟩ := remove_spec hp
    unfold untilError
    rw [hp]
    refine ih (fun q hq => ?_) hnodup
    have hne : q ≠ p := by
      rintro rfl
      exact hnot hq
    unfold IsFile
    rw [hget, Function.update_of_ne hne]
    exact h q (List.mem_cons_of_mem p hq)

/-- Directories with nothing in them can be removed, each once. -/
theorem rmdirAll_vacant (h : ∀ p ∈ ps, t.get p = some .dir ∧ p ≠ [] ∧ ∀ n, t.get (n :: p) = none)
    (hnodup : ps.Nodup) : (t.rmdirAll ps).2 = true := by
  unfold rmdirAll
  induction ps generalizing t with
  | nil => rfl
  | cons p ps ih =>
    obtain ⟨hnot, hnodup⟩ := List.nodup_cons.mp hnodup
    obtain ⟨hdir, hroot, hvacant⟩ := h p List.mem_cons_self
    obtain ⟨t', hp⟩ := exists_rmdir hdir hroot hvacant
    obtain ⟨-, -, hget⟩ := rmdir_spec hp
    unfold untilError
    rw [hp]
    refine ih (fun q hq => ?_) hnodup
    obtain ⟨hdir', hroot', hvacant'⟩ := h q (List.mem_cons_of_mem p hq)
    have hne : q ≠ p := by
      rintro rfl
      exact hnot hq
    refine ⟨by rw [hget, Function.update_of_ne hne, hdir'], hroot', fun n => ?_⟩
    rw [hget]
    by_cases hn : n :: q = p
    · rw [hn, Function.update_self]
    · rw [Function.update_of_ne hn, hvacant']

/-- A directory stays as long as there is something in it. -/
theorem rmdirAll_blocked {n : ν} (hchild : t.get (n :: p) ≠ none) (hnot : n :: p ∉ ps) :
    (t.rmdirAll ps).1.get p = some .dir ∧ (p ∈ ps → (t.rmdirAll ps).2 = false) := by
  have hstay : (t.rmdirAll ps).1.get p = some .dir := by
    rcases untilError_get removes_rmdir t ps (n :: p) with hsame | ⟨hmem, -⟩
    · have hthere : (t.rmdirAll ps).1.get (n :: p) ≠ none := by
        unfold rmdirAll
        rwa [hsame]
      exact get_parent _ hthere
    · exact absurd hmem hnot
  refine ⟨hstay, fun hp => ?_⟩
  by_contra hne
  have hok : (untilError rmdir t ps).2 = true := Bool.eq_true_of_not_eq_false hne
  have hgone := ((untilError_ok removes_rmdir hok).2 p hp).2
  have hstay' : (untilError rmdir t ps).1.get p = some .dir := hstay
  rw [hgone] at hstay'
  cases hstay'

end FileTree
