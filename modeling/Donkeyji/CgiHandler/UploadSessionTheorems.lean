/-
Donkeyji.CgiHandler.UploadSessionTheorems — when a failed upload session
leaves no trace.

`__del__` can restore the files if each call leaves them and the two lists in
a certain shape (`Kept`): the saved files up to the first repetition were not
there before the session, the directories of the list were not there and none
is in another one, and everything else is as before. Behind a repetition
nothing is removed any more, so then no directory may be in the list.

A call can break this in many ways. `makedirs` may make several directories,
of which at most the last is recorded, or one inside another one of the
session, which is removed too early; a file may be overwritten, recorded
twice, or opened and not recorded. `KeepsTrace` is the exact condition for
the restoration, and `upload_noTrace` is about runs.
-/
import Donkeyji.Lib.Runs
import Donkeyji.CgiHandler.UploadSession

namespace Donkeyji.CgiHandler

open FileTree Runs

variable {ν : Type} [DecidableEq ν] {before : FileTree ν Body} {s : UpLoadSession ν}
  {c : SaveCall ν} {path : List ν}

/-! ## The condition on a call -/

/-- The outermost directory that `makedirs` has to make. -/
def topMissing (files : FileTree ν Body) : List ν → List ν
  | [] => []
  | n :: head => if files.get head ≠ none then n :: head else topMissing files head

/-- The system refuses to make the outermost missing directory. -/
def MkdirRefused (s : UpLoadSession ν) (c : SaveCall ν) : Prop :=
  c.failMkdir (topMissing s.files c.savePath) = true ∨
    s.files.mkdir (topMissing s.files c.savePath) = none

/-- `makedirs` has one directory to make, and makes it. -/
def MakesOne (s : UpLoadSession ν) (c : SaveCall ν) : Prop :=
  topMissing s.files c.savePath = c.savePath ∧ ¬ MkdirRefused s c

/-- The directory is there, or `makedirs` makes nothing, or it makes one directory that is in no
other one of the session, and no file is recorded twice. -/
def DirRight (s : UpLoadSession ν) (c : SaveCall ν) : Prop :=
  s.files.get c.savePath = some .dir ∨ MkdirRefused s c ∨
    MakesOne s c ∧ c.savePath.tail ∉ s.pathList ∧ s.savedFilelist.Nodup

/-- The call opens the file. -/
def Opens (s : UpLoadSession ν) (c : SaveCall ν) (path : List ν) : Prop :=
  c.failOpen = false ∧ s.files.get path ≠ some .dir ∧
    ∃ n m, c.name = .found (n :: m) ∧ path = n :: (m ++ c.savePath) ∧
      (s.files.get (m ++ c.savePath) = some .dir ∨ m = [] ∧ MakesOne s c)

/-- The call records the file that it opens. -/
def SaveCall.Records (c : SaveCall ν) : Prop := c.uploadFile.body ≠ none ∧ c.failWrite = false

/-- A file that was there before the session holds at the end what it held then and is recorded
only behind a repetition; a file of the session is recorded again only if no directory is; another
file is recorded, before any repetition. -/
def FileRight (before : FileTree ν Body) (s : UpLoadSession ν) (c : SaveCall ν)
    (path : List ν) : Prop :=
  if before.get path ≠ none then
    before.get path = some (.file c.content) ∧ (c.Records → ¬ s.savedFilelist.Nodup)
  else if path ∈ s.savedFilelist then
    c.Records → s.pathList = []
  else
    c.Records ∧ s.savedFilelist.Nodup

/-- The condition on a call. -/
def KeepsTrace (before : FileTree ν Body) (s : UpLoadSession ν) (c : SaveCall ν) : Prop :=
  DirRight s c ∧ ∀ path, Opens s c path → FileRight before s c path

/-! ## What `__del__` removes -/

/-- The files without those that are saved, as far as `__del__` gets. -/
def UpLoadSession.cleared (s : UpLoadSession ν) : FileTree ν Body :=
  (s.files.removeAll s.savedFilelist).1

/-- Either a file cannot be removed, or the directories come next. -/
theorem rollback_cases (s : UpLoadSession ν) :
    (s.files.removeAll s.savedFilelist).2 = false ∧ rollback s = s.cleared ∨
      (s.files.removeAll s.savedFilelist).2 = true ∧
        rollback s = (s.cleared.rmdirAll s.pathList).1 := by
  unfold rollback UpLoadSession.cleared
  cases h : (s.files.removeAll s.savedFilelist).2 with
  | false => exact Or.inl ⟨rfl, by simp [h]⟩
  | true => exact Or.inr ⟨rfl, by simp [h]⟩

/-- After a repetition the directories stay. -/
theorem rollback_error (h : ¬ s.savedFilelist.Nodup) : rollback s = s.cleared := by
  rcases rollback_cases s with ⟨-, heq⟩ | ⟨hok, -⟩
  · exact heq
  · exact absurd (untilError_ok removes_remove hok).1 h

/-- What the lists do not name stays. -/
theorem rollback_unlisted (hs : path ∉ s.savedFilelist) (hp : path ∉ s.pathList) :
    (rollback s).get path = s.files.get path := by
  have hcleared : s.cleared.get path = s.files.get path :=
    untilError_unlisted removes_remove s.files hs
  rcases rollback_cases s with ⟨-, heq⟩ | ⟨-, heq⟩
  · rw [heq, hcleared]
  · rw [heq, ← hcleared]
    exact untilError_unlisted removes_rmdir s.cleared hp

/-- A directory that is not in the list stays. -/
theorem rollback_dir (hdir : s.files.get path = some .dir) (hp : path ∉ s.pathList) :
    (rollback s).get path = some .dir := by
  have hcleared : s.cleared.get path = some .dir := removeAll_dir s.files s.savedFilelist hdir
  rcases rollback_cases s with ⟨-, heq⟩ | ⟨-, heq⟩
  · rw [heq, hcleared]
  · rw [heq, ← hcleared]
    exact untilError_unlisted removes_rmdir s.cleared hp

/-- Everything stays or is gone. -/
theorem rollback_get (s : UpLoadSession ν) (path : List ν) :
    (rollback s).get path = s.files.get path ∨ (rollback s).get path = none := by
  have hcleared : s.cleared.get path = s.files.get path ∨ s.cleared.get path = none :=
    (untilError_get removes_remove s.files s.savedFilelist path).imp_right fun h => h.2
  rcases rollback_cases s with ⟨-, heq⟩ | ⟨-, heq⟩
  · rw [heq]
    exact hcleared
  · rw [heq]
    rcases untilError_get removes_rmdir s.cleared s.pathList path with hsame | ⟨-, hgone⟩
    · rw [← hsame] at hcleared
      exact hcleared
    · exact Or.inr hgone

/-- When all files can be removed they are gone. -/
theorem rollback_gone (hfiles : ∀ p ∈ s.savedFilelist, s.files.IsFile p)
    (hnodup : s.savedFilelist.Nodup) (hmem : path ∈ s.savedFilelist) :
    (rollback s).get path = none := by
  have hok := removeAll_files hfiles hnodup
  have hcleared : s.cleared.get path = none := ((untilError_ok removes_remove hok).2 path hmem).2
  rcases rollback_cases s with ⟨-, heq⟩ | ⟨-, heq⟩
  · rw [heq, hcleared]
  · rw [heq]
    rcases untilError_get removes_rmdir s.cleared s.pathList path with hsame | ⟨-, hgone⟩
    · rw [← hcleared, ← hsame]
      rfl
    · exact hgone

/-- What is recorded after a repetition stays. -/
theorem rollback_late {ps : List (List ν)} (hs : s.savedFilelist = ps ++ [path])
    (hps : ¬ ps.Nodup) (hnot : path ∉ ps) : (rollback s).get path = s.files.get path := by
  have herror : (s.files.removeAll ps).2 = false := by
    by_contra hok
    exact hps (untilError_ok removes_remove (Bool.eq_true_of_not_eq_false hok)).1
  have happend : s.files.removeAll (ps ++ [path]) = s.files.removeAll ps :=
    untilError_append herror
  have hnodup : ¬ s.savedFilelist.Nodup := by
    rw [hs]
    exact fun h => hps h.of_append_left
  rw [rollback_error hnodup, UpLoadSession.cleared, hs, happend]
  exact untilError_unlisted removes_remove s.files hnot

/-- A directory with something in it that comes later in the list stays. -/
theorem rollback_blocked {n : ν} {ps : List (List ν)} (hp : s.pathList = ps ++ [n :: path])
    (hnot : n :: path ∉ ps) (hmem : path ∈ ps) (hdir : s.files.get (n :: path) = some .dir) :
    (rollback s).get path = some .dir := by
  have hthere : s.files.get (n :: path) ≠ none := by simp [hdir]
  have hcleared : s.cleared.get path = some .dir :=
    removeAll_dir s.files s.savedFilelist (s.files.get_parent hthere)
  have hchild : s.cleared.get (n :: path) ≠ none := by
    simp [UpLoadSession.cleared, removeAll_dir s.files s.savedFilelist hdir]
  rcases rollback_cases s with ⟨-, heq⟩ | ⟨-, heq⟩
  · rw [heq, hcleared]
  · obtain ⟨hstay, herror⟩ := rmdirAll_blocked hchild hnot
    have happend : s.cleared.rmdirAll (ps ++ [n :: path]) = s.cleared.rmdirAll ps :=
      untilError_append (herror hmem)
    rw [heq, hp, happend]
    exact hstay

/-! ## The shape of the lists -/

/-- The shape in which `__del__` restores the files: `u` are the saved files up to the first
repetition, which is the first of `v`. -/
structure Kept (before : FileTree ν Body) (s : UpLoadSession ν) (u v : List (List ν)) : Prop where
  saved : s.savedFilelist = u ++ v
  nodup : u.Nodup
  again : ∀ p, v.head? = some p → p ∈ u ∧ s.pathList = []
  late : ∀ p ∈ v, p ∈ u ∨ before.get p ≠ none
  files : ∀ p ∈ u, s.files.IsFile p ∧ before.get p = none
  dirs : ∀ p ∈ s.pathList, s.files.get p = some .dir ∧ before.get p = none ∧ p.tail ∉ s.pathList
  dirsNodup : s.pathList.Nodup
  rest : ∀ p, p ∉ u → p ∉ s.pathList → s.files.get p = before.get p

variable {u v : List (List ν)}

omit [DecidableEq ν] in
/-- There is no repetition exactly if there is nothing behind it. -/
theorem Kept.nodup_iff (h : Kept before s u v) : s.savedFilelist.Nodup ↔ v = [] := by
  rw [h.saved]
  constructor
  · intro hnodup
    cases v with
    | nil => rfl
    | cons p v =>
      have hp := (h.again p rfl).1
      exact absurd rfl ((List.nodup_append.mp hnodup).2.2 p hp p List.mem_cons_self)
  · rintro rfl
    rw [List.append_nil]
    exact h.nodup

omit [DecidableEq ν] in
/-- The saved files that were not there before. -/
theorem Kept.mem_iff (h : Kept before s u v) (hpath : before.get path = none) :
    path ∈ s.savedFilelist ↔ path ∈ u := by
  rw [h.saved, List.mem_append]
  exact ⟨fun hor => hor.elim id fun hv => (h.late path hv).resolve_right fun hne => hne hpath,
    Or.inl⟩

omit [DecidableEq ν] in
/-- What was there before is as it was. -/
theorem Kept.same (h : Kept before s u v) (hpath : before.get path ≠ none) :
    s.files.get path = before.get path :=
  h.rest path (fun hu => hpath (h.files path hu).2) fun hp => hpath (h.dirs path hp).2.1

/-- The files up to the first repetition are removed. -/
theorem Kept.cleared_get (h : Kept before s u v) (path : List ν) :
    s.cleared.get path = if path ∈ u then none else s.files.get path := by
  have hok : (s.files.removeAll u).2 = true :=
    removeAll_files (fun p hp => (h.files p hp).1) h.nodup
  have hget : ∀ q, (s.files.removeAll u).1.get q = if q ∈ u then none else s.files.get q := by
    intro q
    split
    · rename_i hq
      exact ((untilError_ok removes_remove hok).2 q hq).2
    · rename_i hq
      exact untilError_unlisted removes_remove s.files hq
  have happend : s.files.removeAll (u ++ v) = (s.files.removeAll u).1.removeAll v :=
    untilError_append_ok hok
  unfold UpLoadSession.cleared
  rw [h.saved, happend, ← hget]
  cases v with
  | nil => rfl
  | cons p v =>
    -- the first file behind the repetition is gone already
    have hgone : (s.files.removeAll u).1.get p = none := by rw [hget, if_pos (h.again p rfl).1]
    have hnone : (s.files.removeAll u).1.remove p = none := by
      cases hp : (s.files.removeAll u).1.remove p with
      | none => rfl
      | some t => exact absurd hgone (remove_spec hp).1.1
    simp [removeAll, untilError, show remove (untilError remove s.files u).1 p = none from hnone]

/-- **`__del__` restores the files.** -/
theorem Kept.restores (h : Kept before s u v) (path : List ν) :
    (rollback s).get path = before.get path := by
  have hrest : path ∉ s.pathList → s.cleared.get path = before.get path := by
    intro hp
    rw [h.cleared_get]
    split
    · rename_i hu
      exact (h.files path hu).2.symm
    · rename_i hu
      exact h.rest path hu hp
  rcases rollback_cases s with ⟨herror, heq⟩ | ⟨-, heq⟩
  · have hne : v ≠ [] := by
      rintro rfl
      have hok := removeAll_files (fun p hp => (h.files p hp).1) h.nodup
      rw [h.saved, List.append_nil, hok] at herror
      cases herror
    rw [heq]
    refine hrest ?_
    rw [(h.again _ (List.head?_eq_some_head hne)).2]
    exact List.not_mem_nil
  · have hvacant : ∀ p ∈ s.pathList,
        s.cleared.get p = some .dir ∧ p ≠ [] ∧ ∀ n, s.cleared.get (n :: p) = none := by
      intro p hp
      obtain ⟨hdir, hnone, -⟩ := h.dirs p hp
      refine ⟨removeAll_dir s.files s.savedFilelist hdir, ?_, fun n => ?_⟩
      · rintro rfl
        rw [before.get_root] at hnone
        cases hnone
      · rw [h.cleared_get]
        split
        · rfl
        · rename_i hu
          have hnot : n :: p ∉ s.pathList := fun hn => (h.dirs _ hn).2.2 hp
          rw [h.rest _ hu hnot]
          by_contra hne
          rw [before.get_parent hne] at hnone
          cases hnone
    rw [heq]
    have hok := rmdirAll_vacant hvacant h.dirsNodup
    by_cases hp : path ∈ s.pathList
    · rw [(h.dirs path hp).2.1]
      exact ((untilError_ok removes_rmdir hok).2 path hp).2
    · rw [← hrest hp]
      exact untilError_unlisted removes_rmdir s.cleared hp

/-! ## Making the directory -/

variable {fail : List ν → Bool} {files files' : FileTree ν Body}

theorem osMkdir_get (fail : List ν → Bool) (files : FileTree ν Body) (path q : List ν) :
    (osMkdir fail files path).1.get q = files.get q ∨
      files.get q = none ∧ (osMkdir fail files path).1.get q = some .dir := by
  unfold osMkdir
  split
  · rename_i files' h
    obtain ⟨-, h⟩ := Option.ite_none_left_eq_some.mp h
    obtain ⟨hnone, -, hget⟩ := mkdir_spec h
    dsimp only
    rw [hget]
    by_cases hq : q = path
    · subst hq
      exact Or.inr ⟨hnone, Function.update_self ..⟩
    · exact Or.inl (Function.update_of_ne hq ..)
  · exact Or.inl rfl

theorem osMkdir_refused (h : fail path = true ∨ files.mkdir path = none) :
    osMkdir fail files path = (files, false) := by
  unfold osMkdir
  rcases h with h | h <;> simp [h]

theorem osMkdir_made (hfail : fail path = false) (h : files.mkdir path = some files') :
    osMkdir fail files path = (files', true) := by
  simp [osMkdir, hfail, h]

/-- `makedirs` in a directory that is there. -/
theorem makedirs_direct {n : ν} {head : List ν} (h : files.get head ≠ none) :
    makedirs fail files (n :: head) = osMkdir fail files (n :: head) := by
  simp [makedirs, h]

/-- `makedirs` in a directory that has to be made. -/
theorem makedirs_nested {n : ν} {head : List ν} (h : files.get head = none) :
    makedirs fail files (n :: head) =
      if (makedirs fail files head).2 then osMkdir fail (makedirs fail files head).1 (n :: head)
      else makedirs fail files head := by
  simp [makedirs, h]

/-- If the outermost directory is refused nothing happens. -/
theorem makedirs_refused (h : fail (topMissing files path) = true ∨
    files.mkdir (topMissing files path) = none) : makedirs fail files path = (files, false) := by
  induction path with
  | nil => rfl
  | cons n head ih =>
    by_cases hhead : files.get head = none
    · have htop : topMissing files (n :: head) = topMissing files head := by
        simp [topMissing, hhead]
      rw [htop] at h
      simp [makedirs_nested hhead, ih h]
    · have htop : topMissing files (n :: head) = n :: head := by simp [topMissing, hhead]
      rw [htop] at h
      rw [makedirs_direct hhead, osMkdir_refused h]

omit [DecidableEq ν] in
/-- The outermost directory is not deeper. -/
theorem length_topMissing (files : FileTree ν Body) (path : List ν) :
    (topMissing files path).length ≤ path.length := by
  induction path with
  | nil => exact Nat.le_refl _
  | cons n head ih =>
    unfold topMissing
    split
    · exact Nat.le_refl _
    · exact Nat.le_succ_of_le ih

/-- If the outermost directory is made it is there. -/
theorem makedirs_top (hpath : files.get path ≠ some .dir)
    (hfail : fail (topMissing files path) = false)
    (h : files.mkdir (topMissing files path) = some files') :
    (makedirs fail files path).1.get (topMissing files path) = some .dir ∧
      (topMissing files path = path → makedirs fail files path = (files', true)) := by
  induction path with
  | nil => exact absurd files.get_root hpath
  | cons n head ih =>
    by_cases hhead : files.get head = none
    · have htop : topMissing files (n :: head) = topMissing files head := by
        simp [topMissing, hhead]
      rw [htop] at h hfail ⊢
      obtain ⟨hdir, -⟩ := ih (by simp [hhead]) hfail h
      refine ⟨?_, fun heq => ?_⟩
      · rw [makedirs_nested hhead]
        split
        · rcases osMkdir_get fail (makedirs fail files head).1 (n :: head)
            (topMissing files head) with hsame | ⟨-, hdir'⟩
          · rw [hsame, hdir]
          · exact hdir'
        · exact hdir
      · have hlen := length_topMissing files head
        rw [heq, List.length_cons] at hlen
        omega
    · have htop : topMissing files (n :: head) = n :: head := by simp [topMissing, hhead]
      rw [htop] at h hfail ⊢
      obtain ⟨-, -, hget⟩ := mkdir_spec h
      rw [makedirs_direct hhead, osMkdir_made hfail h]
      exact ⟨by rw [hget, Function.update_self], fun _ => rfl⟩

/-- The directory is there. -/
theorem ensureDir_there (h : s.files.get c.savePath = some .dir) : ensureDir s c = (true, s) := by
  simp [ensureDir, h]

/-- The outermost directory is refused. -/
theorem ensureDir_refused (hdir : s.files.get c.savePath ≠ some .dir) (h : MkdirRefused s c) :
    ensureDir s c = (false, s) := by
  simp [ensureDir, hdir, makedirs_refused h]

/-- The outermost directory is made. -/
theorem exists_mkdir_top (h : ¬ MkdirRefused s c) :
    c.failMkdir (topMissing s.files c.savePath) = false ∧
      ∃ files', s.files.mkdir (topMissing s.files c.savePath) = some files' := by
  constructor
  · exact Bool.eq_false_of_not_eq_true fun hfail => h (Or.inl hfail)
  · exact Option.ne_none_iff_exists'.mp fun hnone => h (Or.inr hnone)

/-- One directory is made. -/
theorem ensureDir_one (hdir : s.files.get c.savePath ≠ some .dir) (h : MakesOne s c) :
    ∃ files', s.files.mkdir c.savePath = some files' ∧ ensureDir s c =
      (true, { s with files := files', pathList := s.pathList ++ [c.savePath] }) := by
  obtain ⟨hfail, files', hmk⟩ := exists_mkdir_top h.2
  have hmade := (makedirs_top hdir hfail hmk).2 h.1
  rw [h.1] at hmk
  exact ⟨files', hmk, by simp [ensureDir, hdir, hmade]⟩

/-- More than one directory has to be made: the outermost is made and is not recorded. -/
theorem ensureDir_more (hdir : s.files.get c.savePath ≠ some .dir) (h : ¬ MkdirRefused s c) :
    (ensureDir s c).2.files.get (topMissing s.files c.savePath) = some .dir ∧
      (ensureDir s c).2.savedFilelist = s.savedFilelist ∧
      ∀ p ∈ (ensureDir s c).2.pathList, p ∈ s.pathList ∨ p = c.savePath := by
  obtain ⟨hfail, files', hmk⟩ := exists_mkdir_top h
  have htop := (makedirs_top hdir hfail hmk).1
  unfold ensureDir
  rw [if_neg hdir]
  dsimp only
  split
  · exact ⟨htop, rfl, fun p hp => by simpa using hp⟩
  · exact ⟨htop, rfl, fun p hp => Or.inl hp⟩

omit [DecidableEq ν] in
/-- The shape is about the files and the lists. -/
theorem Kept.result (h : Kept before s u v) (b : Bool) :
    Kept before { s with sessionResult := b } u v :=
  ⟨h.saved, h.nodup, h.again, h.late, h.files, h.dirs, h.dirsNodup, h.rest⟩

/-- A new directory that is in none of the session keeps the shape. -/
theorem Kept.makeDir (h : Kept before s u v) (hmk : s.files.mkdir path = some files')
    (htail : path.tail ∉ s.pathList) (hnodup : s.savedFilelist.Nodup) :
    Kept before { s with files := files', pathList := s.pathList ++ [path] } u v := by
  obtain ⟨hnone, -, hget⟩ := mkdir_spec hmk
  have hv := h.nodup_iff.mp hnodup
  subst hv
  have hkeep : ∀ p, s.files.get p ≠ none → p ≠ path := by
    rintro p hp rfl
    exact hp hnone
  have hbefore : before.get path = none := by
    by_contra hne
    exact hkeep path (by rw [h.same hne]; exact hne) rfl
  have hroot : ∀ p, before.get p = none → p ≠ [] := by
    rintro p hp rfl
    rw [before.get_root] at hp
    cases hp
  refine ⟨h.saved, h.nodup, fun p hp => by simp at hp, h.late, ?_, ?_, ?_, ?_⟩
  · intro p hp
    obtain ⟨hfile, hnone⟩ := h.files p hp
    have hne := hkeep p hfile.1
    exact ⟨by simpa [IsFile, hget, hne] using hfile, hnone⟩
  · intro p hp
    rcases List.mem_append.mp hp with hp | hp
    · obtain ⟨hdir, hnone', hpt⟩ := h.dirs p hp
      have hne := hkeep p (by simp [hdir])
      refine ⟨by simp [hget, hne, hdir], hnone', ?_⟩
      -- what is in something is not in the new directory
      have htp : p.tail ≠ path := by
        cases p with
        | nil => exact absurd rfl (hroot [] hnone')
        | cons n q =>
          have hthere : s.files.get (n :: q) ≠ none := by simp [hdir]
          exact hkeep q (by simp [s.files.get_parent hthere])
      simp [hpt, htp]
    · rw [List.mem_singleton] at hp
      subst hp
      refine ⟨by simp [hget], hbefore, ?_⟩
      have htp : p.tail ≠ p := by
        cases p with
        | nil => exact absurd rfl (hroot [] hbefore)
        | cons n q => exact fun heq => List.cons_ne_self n q heq.symm
      simp [htail, htp]
  · refine List.nodup_append.mpr ⟨h.dirsNodup, List.nodup_singleton path, ?_⟩
    intro p hp q hq
    rw [List.mem_singleton.mp hq]
    exact hkeep p (by simp [(h.dirs p hp).1])
  · intro p hu hp
    have hne : p ≠ path := fun heq => hp (by simp [heq])
    have hold : p ∉ s.pathList := fun hmem => hp (by simp [hmem])
    show files'.get p = before.get p
    rw [hget, Function.update_of_ne hne, h.rest p hu hold]

/-! ## Saving the file -/

instance (c : SaveCall ν) : Decidable c.Records := inferInstanceAs (Decidable (_ ∧ _))

/-- The session when the file was opened, with the files as the call leaves them. -/
def UpLoadSession.opened (s : UpLoadSession ν) (c : SaveCall ν) (files : FileTree ν Body)
    (path : List ν) : UpLoadSession ν :=
  { s with
    files := files
    savedFilelist := if c.Records then s.savedFilelist ++ [path] else s.savedFilelist }

omit [DecidableEq ν] in
theorem failedSession_eq (s : UpLoadSession ν) :
    (failedSession s).2 = { s with sessionResult := false } := by
  unfold failedSession
  dsimp only
  split <;> rfl

/-- Nothing is opened. -/
theorem saveFile_refused (h : c.failOpen = true ∨ s.files.write c.content path = none) :
    (saveFile s c path).2 = { s with sessionResult := false } := by
  have hnone : (if c.failOpen = true then none else s.files.write c.content path) = none := by
    rcases h with h | h <;> simp [h]
  rw [saveFile, hnone]
  exact failedSession_eq s

/-- The file is opened. -/
theorem saveFile_opened (hopen : c.failOpen = false)
    (h : s.files.write c.content path = some files') :
    ∃ b, (saveFile s c path).2 = { s.opened c files' path with sessionResult := b } := by
  unfold saveFile UpLoadSession.opened SaveCall.Records
  rw [hopen, if_neg Bool.false_ne_true, h]
  dsimp only
  by_cases hbody : c.uploadFile.body = none
  · exact ⟨s.sessionResult, by simp [hbody]⟩
  by_cases hwrite : c.failWrite = true
  · exact ⟨false, by simp [hbody, hwrite, failedSession_eq]⟩
  · by_cases hclose : c.failClose = true
    · exact ⟨false, by simp [hbody, hwrite, hclose, failedSession_eq]⟩
    · exact ⟨s.sessionResult, by simp [hbody, hwrite, hclose]⟩

/-- What the writing of a file leaves of the shape. -/
theorem Kept.write (h : Kept before s u v) (hw : s.files.write c.content path = some files') :
    (∀ p ∈ u, files'.IsFile p ∧ before.get p = none) ∧
      (∀ p ∈ s.pathList, p ≠ path ∧ files'.get p = some .dir ∧ before.get p = none ∧
        p.tail ∉ s.pathList) ∧
      ∀ p, p ≠ path → p ∉ u → p ∉ s.pathList → files'.get p = before.get p := by
  obtain ⟨-, hnotdir, hget⟩ := write_spec hw
  refine ⟨fun p hp => ?_, fun p hp => ?_, fun p hpp hu hp => ?_⟩
  · obtain ⟨hfile, hnone⟩ := h.files p hp
    refine ⟨?_, hnone⟩
    by_cases hpp : p = path
    · simp [IsFile, hget, hpp]
    · simpa [IsFile, hget, hpp] using hfile
  · obtain ⟨hdir, hrest⟩ := h.dirs p hp
    have hpp : p ≠ path := by
      rintro rfl
      exact hnotdir hdir
    rw [hget, Function.update_of_ne hpp]
    exact ⟨hpp, hdir, hrest⟩
  · rw [hget, Function.update_of_ne hpp, h.rest p hu hp]

/-- A file that has its place in the shape already: only what is behind the repetition grows. -/
theorem Kept.saveAgain (h : Kept before s u v) (hw : s.files.write c.content path = some files')
    (hpath : path ∈ u ∨ before.get path = some (.file c.content))
    (hrec : c.Records → v = [] → path ∈ u ∧ s.pathList = []) :
    ∃ v', Kept before (s.opened c files' path) u v' := by
  obtain ⟨hfiles, hdirs, hrest⟩ := h.write hw
  obtain ⟨-, -, hget⟩ := write_spec hw
  have hdirs' := fun p hp => (hdirs p hp).2
  have hrest' : ∀ p, p ∉ u → p ∉ s.pathList → files'.get p = before.get p := by
    intro p hu hp
    by_cases hpp : p = path
    · subst hpp
      rw [hget, Function.update_self, hpath.resolve_left hu]
    · exact hrest p hpp hu hp
  by_cases hc : c.Records
  case neg =>
    exact ⟨v, by simp [UpLoadSession.opened, hc, h.saved], h.nodup, h.again, h.late, hfiles, hdirs',
      h.dirsNodup, hrest'⟩
  refine ⟨v ++ [path], by simp [UpLoadSession.opened, hc, h.saved], h.nodup, ?_, ?_, hfiles, hdirs',
    h.dirsNodup, hrest'⟩
  · intro p hp
    cases v with
    | nil =>
      cases hp
      exact hrec hc rfl
    | cons q v => exact h.again p hp
  · intro p hp
    rcases List.mem_append.mp hp with hp | hp
    · exact h.late p hp
    · rw [List.mem_singleton.mp hp]
      exact hpath.imp_right fun hsame => by simp [hsame]

/-- A new file is recorded before any repetition. -/
theorem Kept.saveNew (h : Kept before s u []) (hw : s.files.write c.content path = some files')
    (hc : c.Records) (hnone : before.get path = none) (hu : path ∉ u) :
    Kept before (s.opened c files' path) (u ++ [path]) [] := by
  obtain ⟨hfiles, hdirs, hrest⟩ := h.write hw
  obtain ⟨-, -, hget⟩ := write_spec hw
  have hdirs' := fun p hp => (hdirs p hp).2
  refine ⟨by simp [UpLoadSession.opened, hc, h.saved], ?_, fun p hp => by simp at hp,
    fun p hp => by simp at hp, ?_, hdirs', h.dirsNodup, ?_⟩
  · exact List.nodup_append.mpr ⟨h.nodup, List.nodup_singleton path, by
      intro p hp q hq
      rw [List.mem_singleton.mp hq]
      exact fun heq => hu (heq ▸ hp)⟩
  · intro p hp
    rcases List.mem_append.mp hp with hp | hp
    · exact hfiles p hp
    · rw [List.mem_singleton.mp hp]
      exact ⟨by simp [UpLoadSession.opened, IsFile, hget], hnone⟩
  · intro p hpu hp
    have hpp : p ≠ path := fun heq => hpu (by simp [heq])
    exact hrest p hpp (fun hmem => hpu (by simp [hmem])) hp

/-- A file that is saved rightly keeps the shape. -/
theorem Kept.saveFile (h : Kept before s u v) (hw : s.files.write c.content path = some files')
    (hr : FileRight before s c path) : ∃ u' v', Kept before (s.opened c files' path) u' v' := by
  unfold FileRight at hr
  by_cases hthere : before.get path = none
  case neg =>
    rw [if_pos hthere] at hr
    obtain ⟨hsame, hrec⟩ := hr
    have hbehind : c.Records → v ≠ [] := fun hc hv => hrec hc (h.nodup_iff.mpr hv)
    exact ⟨u, h.saveAgain hw (Or.inr hsame) fun hc hv => absurd hv (hbehind hc)⟩
  rw [if_neg (not_not.mpr hthere)] at hr
  by_cases hmem : path ∈ s.savedFilelist
  · rw [if_pos hmem] at hr
    have hu := (h.mem_iff hthere).mp hmem
    exact ⟨u, h.saveAgain hw (Or.inl hu) fun hc _ => ⟨hu, hr hc⟩⟩
  · rw [if_neg hmem] at hr
    have hv := h.nodup_iff.mp hr.2
    subst hv
    have hu : path ∉ u := fun hu => hmem ((h.mem_iff hthere).mpr hu)
    exact ⟨u ++ [path], [], h.saveNew hw hr.1 hthere hu⟩

/-- A file of before the session is removed if it is the next to be recorded. -/
theorem Kept.old_lost (h : Kept before s u []) (hw : s.files.write c.content path = some files')
    (hc : c.Records) (hthere : before.get path ≠ none) :
    (rollback (s.opened c files' path)).get path = none := by
  obtain ⟨hfiles, -, -⟩ := h.write hw
  obtain ⟨-, -, hget⟩ := write_spec hw
  have hsaved : (s.opened c files' path).savedFilelist = u ++ [path] := by
    simp [UpLoadSession.opened, hc, h.saved]
  have hu : path ∉ u := fun hu => hthere (h.files path hu).2
  refine rollback_gone ?_ ?_ (by simp [hsaved])
  · rw [hsaved]
    intro p hp
    rcases List.mem_append.mp hp with hp | hp
    · exact (hfiles p hp).1
    · rw [List.mem_singleton.mp hp]
      simp [UpLoadSession.opened, IsFile, hget]
  · rw [hsaved]
    refine List.nodup_append.mpr ⟨h.nodup, List.nodup_singleton path, ?_⟩
    intro p hp q hq
    rw [List.mem_singleton.mp hq]
    exact fun heq => hu (heq ▸ hp)

/-- When a file is recorded twice the directories stay. -/
theorem Kept.again_lost (h : Kept before s u v) (hw : s.files.write c.content path = some files')
    (hc : c.Records) (hmem : path ∈ s.savedFilelist) {p : List ν} (hp : p ∈ s.pathList) :
    (rollback (s.opened c files' path)).get p = some .dir := by
  obtain ⟨-, hdirs, -⟩ := h.write hw
  have hnodup : ¬ (s.opened c files' path).savedFilelist.Nodup := by
    simp only [UpLoadSession.opened, if_pos hc]
    intro hnodup
    exact (List.nodup_append.mp hnodup).2.2 path hmem path List.mem_cons_self rfl
  rw [rollback_error hnodup]
  exact removeAll_dir _ _ (hdirs p hp).2.1

/-- A new file stays if it is not recorded or comes after a repetition. -/
theorem Kept.new_stays (h : Kept before s u v) (hw : s.files.write c.content path = some files')
    (hmem : path ∉ s.savedFilelist) (hr : ¬ (c.Records ∧ s.savedFilelist.Nodup)) :
    (rollback (s.opened c files' path)).get path = files'.get path := by
  obtain ⟨-, hdirs, -⟩ := h.write hw
  by_cases hc : c.Records
  · have hsaved : (s.opened c files' path).savedFilelist = s.savedFilelist ++ [path] := by
      simp [UpLoadSession.opened, hc]
    exact rollback_late hsaved (fun hnodup => hr ⟨hc, hnodup⟩) hmem
  · refine rollback_unlisted ?_ fun hp => (hdirs path hp).1 rfl
    simpa [UpLoadSession.opened, hc] using hmem

/-- After a file is saved wrongly the files are not restored. -/
theorem Kept.saveFile_lost (h : Kept before s u v)
    (hw : s.files.write c.content path = some files') (hr : ¬ FileRight before s c path) :
    ∃ q, (rollback (s.opened c files' path)).get q ≠ before.get q := by
  obtain ⟨-, -, hget⟩ := write_spec hw
  have hself : files'.get path = some (.file c.content) := by rw [hget, Function.update_self]
  unfold FileRight at hr
  by_cases hthere : before.get path = none
  case neg =>
    rw [if_pos hthere] at hr
    refine ⟨path, fun heq => ?_⟩
    -- what it held is lost, so that it would have to be the same
    have hsame : before.get path = some (.file c.content) := by
      rcases rollback_get (s.opened c files' path) path with hstay | hgone
      · rw [← heq, hstay]
        exact hself
      · exact absurd (heq.symm.trans hgone) hthere
    refine hr ⟨hsame, fun hc hnodup => ?_⟩
    have hv := h.nodup_iff.mp hnodup
    subst hv
    exact hthere (heq.symm.trans (h.old_lost hw hc hthere))
  rw [if_neg (not_not.mpr hthere)] at hr
  by_cases hmem : path ∈ s.savedFilelist
  · rw [if_pos hmem] at hr
    obtain ⟨hc, hpaths⟩ := Classical.not_imp.mp hr
    obtain ⟨p, hp⟩ := List.exists_mem_of_ne_nil _ hpaths
    refine ⟨p, ?_⟩
    rw [h.again_lost hw hc hmem hp, (h.dirs p hp).2.1]
    exact Option.some_ne_none _
  · rw [if_neg hmem] at hr
    refine ⟨path, ?_⟩
    rw [h.new_stays hw hmem hr, hself, hthere]
    exact Option.some_ne_none _

/-! ## The whole call -/

/-- From the second `try` on, if what is opened is right. -/
theorem Kept.saveUnder (h : Kept before s u v)
    (hr : ∀ name files', c.name = .found name → c.failOpen = false →
      s.files.write c.content (name ++ c.savePath) = some files' →
      FileRight before s c (name ++ c.savePath)) :
    ∃ u' v', Kept before (saveUnder s c).2 u' v' := by
  unfold CgiHandler.saveUnder
  cases hname : c.name with
  | found name =>
    dsimp only
    by_cases hopen : c.failOpen = true
    · exact ⟨u, v, by rw [saveFile_refused (Or.inl hopen)]; exact h.result false⟩
    cases hw : s.files.write c.content (name ++ c.savePath) with
    | none => exact ⟨u, v, by rw [saveFile_refused (Or.inr hw)]; exact h.result false⟩
    | some files' =>
      have hopen' := Bool.eq_false_of_not_eq_true hopen
      obtain ⟨u', v', hkept⟩ := h.saveFile hw (hr name files' hname hopen' hw)
      obtain ⟨b, heq⟩ := saveFile_opened hopen' hw
      exact ⟨u', v', by rw [heq]; exact hkept.result b⟩
  | caught => exact ⟨u, v, by rw [failedSession_eq]; exact h.result false⟩
  | uncaught => exact ⟨u, v, h⟩

/-- From the second `try` on, if what is opened is wrong. -/
theorem Kept.saveUnder_lost {name : List ν} (h : Kept before s u v) (hname : c.name = .found name)
    (hopen : c.failOpen = false)
    (hw : s.files.write c.content (name ++ c.savePath) = some files')
    (hr : ¬ FileRight before s c (name ++ c.savePath)) :
    ∃ q, (rollback (CgiHandler.saveUnder s c).2).get q ≠ before.get q := by
  obtain ⟨q, hq⟩ := h.saveFile_lost hw hr
  obtain ⟨b, heq⟩ := saveFile_opened hopen hw
  have hsave : (CgiHandler.saveUnder s c).2 = { s.opened c files' (name ++ c.savePath) with
      sessionResult := b } := by
    rw [← heq, CgiHandler.saveUnder, hname]
  refine ⟨q, ?_⟩
  rw [hsave]
  exact hq

/-- From the second `try` on, directories stay and the lists only grow. -/
theorem saveUnder_frame (s : UpLoadSession ν) (c : SaveCall ν) :
    (∀ p, s.files.get p = some .dir → (saveUnder s c).2.files.get p = some .dir) ∧
      (saveUnder s c).2.pathList = s.pathList ∧
      ∃ ps, (saveUnder s c).2.savedFilelist = s.savedFilelist ++ ps := by
  unfold saveUnder
  cases c.name with
  | found name =>
    dsimp only
    by_cases hopen : c.failOpen = true
    · rw [saveFile_refused (Or.inl hopen)]
      exact ⟨fun _ h => h, rfl, [], by simp⟩
    cases hw : s.files.write c.content (name ++ c.savePath) with
    | none =>
      rw [saveFile_refused (Or.inr hw)]
      exact ⟨fun _ h => h, rfl, [], by simp⟩
    | some files' =>
      obtain ⟨-, hnotdir, hget⟩ := write_spec hw
      obtain ⟨b, heq⟩ := saveFile_opened (Bool.eq_false_of_not_eq_true hopen) hw
      rw [heq]
      refine ⟨fun p hp => ?_, rfl, ?_⟩
      · have hne : p ≠ name ++ c.savePath := by
          rintro rfl
          exact hnotdir hp
        simp [UpLoadSession.opened, hget, hne, hp]
      · by_cases hc : c.Records
        · exact ⟨[name ++ c.savePath], by simp [UpLoadSession.opened, hc]⟩
        · exact ⟨[], by simp [UpLoadSession.opened, hc]⟩
  | caught =>
    rw [failedSession_eq]
    exact ⟨fun _ h => h, rfl, [], by simp⟩
  | uncaught => exact ⟨fun _ h => h, rfl, [], by simp⟩

/-- After the first `try` directories stay and the lists only grow. -/
theorem safeSave_frame (s : UpLoadSession ν) (c : SaveCall ν) :
    (∀ p, (ensureDir s c).2.files.get p = some .dir → (safeSave s c).2.files.get p = some .dir) ∧
      (safeSave s c).2.pathList = (ensureDir s c).2.pathList ∧
      ∃ ps, (safeSave s c).2.savedFilelist = (ensureDir s c).2.savedFilelist ++ ps := by
  unfold safeSave
  dsimp only
  split
  · exact saveUnder_frame _ c
  · rw [failedSession_eq]
    exact ⟨fun _ h => h, rfl, [], by simp⟩

/-- What a call opens, once the directory is there. -/
theorem opens_iff {files : FileTree ν Body} (hsp : files.get c.savePath = some .dir)
    (hsame : ∀ p, p ≠ c.savePath → files.get p = s.files.get p)
    (hdir : s.files.get c.savePath = some .dir ∨ MakesOne s c) :
    Opens s c path ↔ ∃ name, c.name = .found name ∧ path = name ++ c.savePath ∧
      c.failOpen = false ∧ ∃ files', files.write c.content path = some files' := by
  have hne : ∀ n m, n :: (m ++ c.savePath) ≠ c.savePath := by
    intro n m heq
    have hlen := congrArg List.length heq
    simp at hlen
    omega
  constructor
  · rintro ⟨hopen, hnotdir, n, m, hname, rfl, hparent⟩
    refine ⟨n :: m, hname, rfl, hopen, exists_write ?_ ?_⟩
    · show files.get (m ++ c.savePath) = some .dir
      by_cases hm : m ++ c.savePath = c.savePath
      · rw [hm, hsp]
      · rw [hsame _ hm]
        exact hparent.resolve_right fun h => hm (by rw [h.1, List.nil_append])
    · rw [hsame _ (hne n m)]
      exact hnotdir
  · rintro ⟨name, hname, rfl, hopen, files', hw⟩
    obtain ⟨hparent, hnotdir, -⟩ := write_spec hw
    cases name with
    | nil => exact absurd hsp hnotdir
    | cons n m =>
      have hpath := hsame _ (hne n m)
      refine ⟨hopen, fun heq => hnotdir (hpath.trans heq), n, m, hname, rfl, ?_⟩
      by_cases hm : m ++ c.savePath = c.savePath
      · have hnil : m = [] := List.append_left_eq_self.mp hm
        rw [hm]
        exact hdir.imp_right fun h => ⟨hnil, h⟩
      · rw [← hsame _ hm]
        exact Or.inl hparent

/-- The condition on a file that no list names does not depend on the directories. -/
theorem fileRight_congr {s' : UpLoadSession ν} (hs : s'.savedFilelist = s.savedFilelist)
    (hnot : before.get path = none → path ∉ s.savedFilelist) :
    FileRight before s' c path ↔ FileRight before s c path := by
  unfold FileRight
  rw [hs]
  by_cases hthere : before.get path = none
  · simp [hthere, hnot hthere]
  · simp [hthere]

omit [DecidableEq ν] in
/-- In a new directory there is no file of the session. -/
theorem Kept.not_saved {name : List ν} (h : Kept before s u v) (hnone : s.files.get c.savePath = none)
    (hpath : before.get (name ++ c.savePath) = none) :
    name ++ c.savePath ∉ s.savedFilelist := by
  rw [h.mem_iff hpath]
  exact fun hu => s.files.get_of_append (h.files _ hu).1.1 hnone

/-- **A call under the condition** keeps the shape. -/
theorem Kept.safeSave (h : Kept before s u v) (hk : KeepsTrace before s c) :
    ∃ u' v', Kept before (safeSave s c).2 u' v' := by
  unfold CgiHandler.safeSave
  by_cases hdir : s.files.get c.savePath = some .dir
  · rw [ensureDir_there hdir]
    refine h.saveUnder fun name files' hname hopen hw => hk.2 _ ?_
    exact (opens_iff hdir (fun _ _ => rfl) (Or.inl hdir)).mpr ⟨name, hname, rfl, hopen, files', hw⟩
  rcases hk.1.resolve_left hdir with hrefused | ⟨hone, htail, hnodup⟩
  · rw [ensureDir_refused hdir hrefused]
    exact ⟨u, v, by simpa [failedSession_eq] using h.result false⟩
  · obtain ⟨files', hmk, heq⟩ := ensureDir_one hdir hone
    obtain ⟨hnone, -, hget⟩ := mkdir_spec hmk
    rw [heq]
    refine (h.makeDir hmk htail hnodup).saveUnder fun name files'' hname hopen hw => ?_
    have hopens : Opens s c (name ++ c.savePath) :=
      (opens_iff (by rw [hget, Function.update_self])
        (fun p hp => by rw [hget, Function.update_of_ne hp]) (Or.inr hone)).mpr
        ⟨name, hname, rfl, hopen, files'', hw⟩
    refine Iff.mpr ?_ (hk.2 _ hopens)
    exact fileRight_congr rfl (h.not_saved hnone)

/-- After directories were made wrongly the files are not restored. -/
theorem Kept.dir_lost (h : Kept before s u v) (hd : ¬ DirRight s c) :
    ∃ q, (rollback (CgiHandler.safeSave s c).2).get q ≠ before.get q := by
  have hdir : s.files.get c.savePath ≠ some .dir := fun hdir => hd (Or.inl hdir)
  have hrefused : ¬ MkdirRefused s c := fun hr => hd (Or.inr (Or.inl hr))
  obtain ⟨hstay, hpaths, ps, hsaved⟩ := safeSave_frame s c
  have hnew : ∀ p, s.files.get p = none → before.get p = none := by
    intro p hp
    by_contra hne
    exact hne (by rw [← h.same hne, hp])
  by_cases hone : MakesOne s c
  · obtain ⟨files', hmk, heq⟩ := ensureDir_one hdir hone
    obtain ⟨hnone, -, hget⟩ := mkdir_spec hmk
    rw [heq] at hstay hpaths hsaved
    have hmade : (CgiHandler.safeSave s c).2.files.get c.savePath = some .dir :=
      hstay _ (by rw [hget, Function.update_self])
    by_cases htail : c.savePath.tail ∈ s.pathList
    · -- the directory around it is removed first
      obtain ⟨hdir', hnone', -⟩ := h.dirs _ htail
      have hnot : c.savePath ∉ s.pathList := fun hmem => hdir (h.dirs _ hmem).1
      refine ⟨c.savePath.tail, ?_⟩
      rw [hnone']
      cases hsp : c.savePath with
      | nil => exact absurd s.files.get_root (hsp ▸ hdir)
      | cons n head =>
        rw [hsp] at hpaths htail hnot hmade
        rw [List.tail_cons, rollback_blocked hpaths hnot htail hmade]
        exact Option.some_ne_none _
    · have hnodup : ¬ s.savedFilelist.Nodup :=
        fun hnodup => hd (Or.inr (Or.inr ⟨hone, htail, hnodup⟩))
      have hnodup' : ¬ (CgiHandler.safeSave s c).2.savedFilelist.Nodup := by
        rw [hsaved]
        exact fun hn => hnodup hn.of_append_left
      refine ⟨c.savePath, ?_⟩
      rw [rollback_error hnodup', UpLoadSession.cleared, removeAll_dir _ _ hmade,
        hnew _ hnone]
      exact Option.some_ne_none _
  · -- the outermost directory is not recorded
    have hne : topMissing s.files c.savePath ≠ c.savePath := fun heq => hone ⟨heq, hrefused⟩
    obtain ⟨htop, -, hlist⟩ := ensureDir_more hdir hrefused
    obtain ⟨-, files', hmk⟩ := exists_mkdir_top hrefused
    obtain ⟨hnone, -, -⟩ := mkdir_spec hmk
    have hnot : topMissing s.files c.savePath ∉ (CgiHandler.safeSave s c).2.pathList := by
      rw [hpaths]
      intro hmem
      rcases hlist _ hmem with hold | heq
      · rw [(h.dirs _ hold).1] at hnone
        cases hnone
      · exact hne heq
    refine ⟨topMissing s.files c.savePath, ?_⟩
    rw [rollback_dir (hstay _ htop) hnot, hnew _ hnone]
    exact Option.some_ne_none _

/-- **A call that breaks the condition** leaves something that `__del__` does not restore. -/
theorem Kept.safeSave_lost (h : Kept before s u v) (hk : ¬ KeepsTrace before s c) :
    ∃ q, (rollback (CgiHandler.safeSave s c).2).get q ≠ before.get q := by
  by_cases hd : DirRight s c
  case neg => exact h.dir_lost hd
  have hfile : ∃ path, Opens s c path ∧ ¬ FileRight before s c path := by
    by_contra hno
    refine hk ⟨hd, fun path hopens => ?_⟩
    by_contra hr
    exact hno ⟨path, hopens, hr⟩
  obtain ⟨path, hopens, hr⟩ := hfile
  unfold CgiHandler.safeSave
  by_cases hdir : s.files.get c.savePath = some .dir
  · obtain ⟨name, hname, rfl, hopen, files', hw⟩ :=
      (opens_iff hdir (fun _ _ => rfl) (Or.inl hdir)).mp hopens
    rw [ensureDir_there hdir]
    exact h.saveUnder_lost hname hopen hw hr
  have hone : MakesOne s c := by
    obtain ⟨-, -, n, m, -, -, hparent⟩ := hopens
    rcases hparent with hparent | ⟨-, hone⟩
    · exact absurd (s.files.get_dir_of_append hparent) hdir
    · exact hone
  obtain ⟨-, htail, hnodup⟩ := (hd.resolve_left hdir).resolve_left hone.2
  obtain ⟨files', hmk, heq⟩ := ensureDir_one hdir hone
  obtain ⟨hnone, -, hget⟩ := mkdir_spec hmk
  obtain ⟨name, hname, rfl, hopen, files'', hw⟩ :=
    (opens_iff (by rw [hget, Function.update_self])
      (fun p hp => by rw [hget, Function.update_of_ne hp]) (Or.inr hone)).mp hopens
  rw [heq]
  refine (h.makeDir hmk htail hnodup).saveUnder_lost hname hopen hw fun hr' => hr ?_
  refine Iff.mp ?_ hr'
  exact fileRight_congr rfl (h.not_saved hnone)

/-! ## Runs -/

/-- A session, and whether some call has not returned True. -/
structure UploadRun (ν : Type) where
  session : UpLoadSession ν
  failed : Bool

/-- A step of a run. -/
def uploadStep (r : UploadRun ν) (c : SaveCall ν) : Option (UploadRun ν) :=
  let res := safeSave r.session c
  some ⟨res.2, r.failed || res.1 ≠ .returned true⟩

/-- If some call failed, `__del__` leaves the files as they were before the session. -/
def NoTrace (before : FileTree ν Body) (r : UploadRun ν) : Prop :=
  r.failed = true → ∀ p, r.session.del.get p = before.get p

/-- The loops of `__del__` would leave the files as they were before the session. -/
def Restores (before : FileTree ν Body) (r : UploadRun ν) : Prop :=
  ∀ p, (rollback r.session).get p = before.get p

/-- No exception leaves the call, unless the session has failed already: the name can be looked up
if the call gets there, and a file is opened only if there is a body. -/
def Caught (s : UpLoadSession ν) (c : SaveCall ν) : Prop :=
  s.sessionResult = false ∨
    (c.name = .uncaught → s.files.get c.savePath ≠ some .dir ∧ ¬ MakesOne s c) ∧
      (c.uploadFile.body = none → ∀ path, ¬ Opens s c path)

/-- How a call ends from the second `try` on. -/
theorem saveUnder_end (s : UpLoadSession ν) (c : SaveCall ν) :
    (saveUnder s c).2.sessionResult = false ∨
      (saveUnder s c).2.sessionResult = s.sessionResult ∧
        ((saveUnder s c).1 = .returned true ∨ c.name = .uncaught ∨
          c.uploadFile.body = none ∧ ∃ name, c.name = .found name ∧ c.failOpen = false ∧
            ∃ files', s.files.write c.content (name ++ c.savePath) = some files') := by
  unfold saveUnder
  cases hname : c.name with
  | found name =>
    dsimp only
    by_cases hopen : c.failOpen = true
    · exact Or.inl (by rw [saveFile_refused (Or.inl hopen)])
    cases hw : s.files.write c.content (name ++ c.savePath) with
    | none => exact Or.inl (by rw [saveFile_refused (Or.inr hw)])
    | some files' =>
      have hopen' := Bool.eq_false_of_not_eq_true hopen
      unfold saveFile
      rw [hopen', if_neg Bool.false_ne_true, hw]
      dsimp only
      by_cases hbody : c.uploadFile.body = none
      · rw [if_pos hbody]
        exact Or.inr ⟨rfl, Or.inr (Or.inr ⟨hbody, name, rfl, rfl, files', hw⟩)⟩
      rw [if_neg hbody]
      split
      · exact Or.inl (by rw [failedSession_eq])
      · split
        · exact Or.inl (by rw [failedSession_eq])
        · exact Or.inr ⟨rfl, Or.inl rfl⟩
  | caught => exact Or.inl (by rw [failedSession_eq])
  | uncaught => exact Or.inr ⟨rfl, Or.inr (Or.inl rfl)⟩

/-- A call that fails marks the session. -/
theorem safeSave_marks (hd : DirRight s c) (hc : Caught s c) :
    (safeSave s c).2.sessionResult = false ∨
      (safeSave s c).1 = .returned true ∧ (safeSave s c).2.sessionResult = s.sessionResult := by
  -- what is raised once the directory is there
  have hafter : ∀ s1 : UpLoadSession ν, s1.sessionResult = s.sessionResult →
      s1.files.get c.savePath = some .dir →
      (∀ p, p ≠ c.savePath → s1.files.get p = s.files.get p) →
      (s.files.get c.savePath = some .dir ∨ MakesOne s c) →
      (saveUnder s1 c).2.sessionResult = false ∨
        (saveUnder s1 c).1 = .returned true ∧
          (saveUnder s1 c).2.sessionResult = s.sessionResult := by
    intro s1 hresult hsp hsame hdir
    rcases saveUnder_end s1 c with hfalse | ⟨heq, hend⟩
    · exact Or.inl hfalse
    rw [hresult] at heq
    rcases hc with hfalse | ⟨hname, hbody⟩
    · exact Or.inl (heq.trans hfalse)
    rcases hend with hret | huncaught | ⟨hnone, name, hfound, hopen, hw⟩
    · exact Or.inr ⟨hret, heq⟩
    · obtain ⟨hnot, hnone⟩ := hname huncaught
      exact absurd hdir fun h => h.elim hnot hnone
    · have hopens := (opens_iff hsp hsame hdir).mpr ⟨name, hfound, rfl, hopen, hw⟩
      exact absurd hopens (hbody hnone _)
  unfold safeSave
  by_cases hdir : s.files.get c.savePath = some .dir
  · rw [ensureDir_there hdir]
    exact hafter s rfl hdir (fun _ _ => rfl) (Or.inl hdir)
  rcases hd.resolve_left hdir with hrefused | ⟨hone, -, -⟩
  · rw [ensureDir_refused hdir hrefused]
    exact Or.inl (by simp [failedSession_eq])
  · obtain ⟨files', hmk, heq⟩ := ensureDir_one hdir hone
    obtain ⟨-, -, hget⟩ := mkdir_spec hmk
    rw [heq]
    exact hafter _ rfl (by rw [hget, Function.update_self])
      (fun p hp => by rw [hget, Function.update_of_ne hp]) (Or.inr hone)

omit [DecidableEq ν] in
/-- At the start nothing has happened. -/
theorem kept_init (before : FileTree ν Body) (throw : Bool) :
    Kept before (UpLoadSession.init before throw) [] [] where
  saved := rfl
  nodup := List.nodup_nil
  again p hp := by cases hp
  late p hp := by cases hp
  files p hp := by cases hp
  dirs p hp := by cases hp
  dirsNodup := List.nodup_nil
  rest p _ _ := rfl

/-- **A failed session.** If all calls meet the condition and no exception escapes, a session in
which a call has failed leaves no trace, and what `__del__` would remove restores the files after
every call exactly if all calls meet the condition. -/
theorem upload_noTrace (before : FileTree ν Body) (throw : Bool) (cs : List (SaveCall ν)) :
    (AllSteps uploadStep (fun r c => KeepsTrace before r.session c ∧ Caught r.session c)
        ⟨UpLoadSession.init before throw, false⟩ cs →
      AllStates uploadStep (NoTrace before) ⟨UpLoadSession.init before throw, false⟩ cs) ∧
    (AllStates uploadStep (Restores before) ⟨UpLoadSession.init before throw, false⟩ cs ↔
      AllSteps uploadStep (fun r c => KeepsTrace before r.session c)
        ⟨UpLoadSession.init before throw, false⟩ cs) := by
  have hstart := kept_init before throw
  constructor
  · intro hall
    have hinv : AllStates uploadStep (fun r : UploadRun ν =>
        (∃ u v, Kept before r.session u v) ∧ (r.failed = true → r.session.sessionResult = false))
        ⟨UpLoadSession.init before throw, false⟩ cs := by
      refine allStates_of_allSteps ?_ ⟨⟨[], [], hstart⟩, fun h => by cases h⟩ hall
      rintro r c r' ⟨⟨u, v, hkept⟩, hmarked⟩ ⟨hkeeps, hcaught⟩ hstep
      cases hstep
      refine ⟨hkept.safeSave hkeeps, fun hfailed => ?_⟩
      rcases safeSave_marks hkeeps.1 hcaught with hfalse | ⟨hret, hsame⟩
      · exact hfalse
      · refine hsame.trans (hmarked ?_)
        simpa [hret] using hfailed
    refine hinv.mono ?_
    rintro r ⟨⟨u, v, hkept⟩, hmarked⟩ hfailed p
    simp only [UpLoadSession.del, hmarked hfailed, Bool.false_eq_true, if_false]
    exact hkept.restores p
  · refine allStates_iff_allSteps (fun r => ∃ u v, Kept before r.session u v)
      (fun _ _ => True) ?_ ?_ ?_ ⟨[], [], hstart⟩ (allSteps_of_forall (fun _ _ => trivial) _)
    · rintro r c r' ⟨u, v, hkept⟩ - hkeeps hstep
      cases hstep
      exact hkept.safeSave hkeeps
    · rintro r ⟨u, v, hkept⟩ p
      exact hkept.restores p
    · rintro r c ⟨u, v, hkept⟩ - hnot
      obtain ⟨q, hq⟩ := hkept.safeSave_lost hnot
      exact ⟨_, rfl, fun hr => hq (hr q)⟩

/-! ## Examples -/

instance : Decidable (MkdirRefused s c) := inferInstanceAs (Decidable (_ ∨ _))

instance : Decidable (MakesOne s c) := inferInstanceAs (Decidable (_ ∧ _))

instance : Decidable (DirRight s c) := inferInstanceAs (Decidable (_ ∨ _ ∨ _))

instance : Decidable (FileRight before s c path) := by
  unfold FileRight
  infer_instance

/-- A call opens one file at most, so what holds of all of them can be computed. -/
instance decidableOpens (P : List ν → Prop) [DecidablePred P] :
    Decidable (∀ path, Opens s c path → P path) :=
  match hname : c.name with
  | .found (n :: m) =>
    decidable_of_iff (c.failOpen = false → s.files.get (n :: (m ++ c.savePath)) ≠ some .dir →
        s.files.get (m ++ c.savePath) = some .dir ∨ m = [] ∧ MakesOne s c →
        P (n :: (m ++ c.savePath))) (by
      constructor
      · rintro h path ⟨hopen, hnotdir, n', m', hname', rfl, hparent⟩
        rw [hname] at hname'
        cases hname'
        exact h hopen hnotdir hparent
      · exact fun h hopen hnotdir hparent => h _ ⟨hopen, hnotdir, n, m, hname, rfl, hparent⟩)
  | .found [] => isTrue (by
      rintro path ⟨-, -, n, m, hname', -⟩
      rw [hname] at hname'
      cases hname')
  | .caught => isTrue (by
      rintro path ⟨-, -, n, m, hname', -⟩
      rw [hname] at hname'
      cases hname')
  | .uncaught => isTrue (by
      rintro path ⟨-, -, n, m, hname', -⟩
      rw [hname] at hname'
      cases hname')

instance : Decidable (KeepsTrace before s c) := inferInstanceAs (Decidable (_ ∧ _))

instance : Decidable (Caught s c) :=
  inferInstanceAs (Decidable (_ ∨ (_ → _ ∧ ¬ _) ∧ (_ → ∀ path, Opens s c path → False)))

/-- A call that saves two bytes under a name in a directory. -/
def saveAs (savePath : List Nat) (name : Nat) : SaveCall Nat :=
  ⟨⟨.caught, some [1, 2]⟩, savePath, some [name], fun _ => false, false, false, false, []⟩

/-- The first call makes a directory and a file, the second is not allowed to open one, and the
third writes a file that cannot be closed. -/
theorem upload_noTrace_three : AllStates uploadStep (NoTrace FileTree.empty)
    ⟨UpLoadSession.init FileTree.empty true, false⟩
    [saveAs [5] 7, { saveAs [5] 8 with failOpen := true },
      { saveAs [5] 9 with failClose := true, left := [1] }] :=
  (upload_noTrace FileTree.empty true _).1 (by decide +kernel)

/-- A root directory in which there is a file. -/
def oneFile : FileTree Nat Body :=
  FileTree.empty.put 7 [] (.file [9]) rfl (by decide)

/-- A file that cannot be written is not recorded; of two directories that have to be made the
outer one is not recorded; a file that was there before the session is overwritten and removed. -/
theorem not_noTrace :
    ¬ AllStates uploadStep (NoTrace FileTree.empty)
      ⟨UpLoadSession.init FileTree.empty true, false⟩ [{ saveAs [] 7 with failWrite := true }] ∧
    ¬ AllStates uploadStep (NoTrace FileTree.empty)
      ⟨UpLoadSession.init FileTree.empty true, false⟩
      [{ saveAs [6, 5] 7 with failOpen := true }] ∧
    ¬ AllStates uploadStep (NoTrace oneFile) ⟨UpLoadSession.init oneFile true, false⟩
      [saveAs [] 7, { saveAs [] 8 with failOpen := true }] := by
  refine ⟨fun h => ?_, fun h => ?_, fun h => ?_⟩
  · have hfile := h.last rfl rfl [7]
    revert hfile
    decide +kernel
  · have hdir := h.last rfl rfl [5]
    revert hdir
    decide +kernel
  · have hfile := h.last rfl rfl [7]
    revert hfile
    decide +kernel

end Donkeyji.CgiHandler
