/-
Donkeyji.Tools.RenameTheorems — the renaming scripts lose no file.

A turn of a loop renames its file to a name that is free, or leaves it; a
subdirectory is rearranged on its own. So whatever the order of the listings
is, the tree is rearranged, and rename.py leaves a number before every
extension. new_rename.py first gives all files names that begin with `_pre_`,
which no number does. It then numbers the files from 0 on, unless it finds a
directory.
-/
import Donkeyji.Lib.Runs
import Donkeyji.Tools.Rename
import Mathlib.Data.List.TakeWhile

namespace Donkeyji.Tools

open FileTree Runs

/-! ## Names -/

theorem toDigits_inj {m n : Nat} (h : Nat.toDigits 10 m = Nat.toDigits 10 n) : m = n := by
  rw [← Nat.ofDigitChars_ten_toDigits (n := m), h, Nat.ofDigitChars_ten_toDigits]

theorem dot_notMem_toDigits (n : Nat) : '.' ∉ Nat.toDigits 10 n := by
  intro hmem
  exact absurd (Nat.isDigit_of_mem_toDigits (by omega) (by omega) hmem) (by decide)

/-- What `splitext` gives as an extension: nothing, or a dot and no other dot. -/
def IsExtension (ext : Name) : Prop := ext = [] ∨ ∃ e, ext = '.' :: e ∧ '.' ∉ e

theorem splitext_isExtension (name : Name) : IsExtension (splitext name).2 := by
  have hhead := List.head?_dropWhile_not (fun c => decide (c ≠ '.')) name.reverse
  unfold splitext
  split
  · exact .inl rfl
  · rename_i dot before hdrop
    rw [hdrop] at hhead
    split_ifs
    · exact .inl rfl
    · refine .inr ⟨_, by rw [show dot = '.' by simpa using hhead], fun hmem => ?_⟩
      rw [List.mem_reverse] at hmem
      simpa using List.mem_takeWhile_imp hmem

/-- The extension behind something without dots. -/
theorem splitext_append {base ext : Name} (hne : base ≠ []) (hbase : '.' ∉ base)
    (hext : IsExtension ext) : splitext (base ++ ext) = (base, ext) := by
  have hplain : ∀ {s : Name}, '.' ∉ s → ∀ c ∈ s.reverse, decide (c ≠ '.') = true := by
    intro s hs c hc
    rw [decide_eq_true_iff]
    rintro rfl
    exact hs (List.mem_reverse.mp hc)
  rcases hext with rfl | ⟨e, rfl, he⟩
  · rw [List.append_nil, splitext, List.dropWhile_eq_nil_iff.mpr (hplain hbase)]
  · have hrev : (base ++ '.' :: e).reverse = e.reverse ++ '.' :: base.reverse := by simp
    obtain ⟨c, hc⟩ := List.exists_mem_of_ne_nil base hne
    have hall : ¬ base.reverse.all (· = '.') = true := by
      intro hall
      have hdot := List.all_eq_true.mp hall c (List.mem_reverse.mpr hc)
      exact hbase (of_decide_eq_true hdot ▸ hc)
    rw [splitext, hrev, List.dropWhile_append_of_pos (hplain he),
      List.takeWhile_append_of_pos (hplain he)]
    simp [hall]

theorem splitext_numbered (count : Nat) {ext : Name} (hext : IsExtension ext) :
    splitext (numbered count ext) = (Nat.toDigits 10 count, ext) :=
  splitext_append Nat.toDigits_ne_nil (dot_notMem_toDigits count) hext

theorem numbered_inj {m n : Nat} {ext ext' : Name} (hext : IsExtension ext)
    (hext' : IsExtension ext') (h : numbered m ext = numbered n ext') : m = n ∧ ext = ext' := by
  have hsplit := congrArg splitext h
  rw [splitext_numbered m hext, splitext_numbered n hext'] at hsplit
  exact ⟨toDigits_inj (Prod.mk.inj hsplit).1, (Prod.mk.inj hsplit).2⟩

/-- A number and an extension. -/
def IsNumbered (name : Name) : Prop := ∃ count, name = numbered count (splitext name).2

theorem isNumbered_numbered (count : Nat) {ext : Name} (hext : IsExtension ext) :
    IsNumbered (numbered count ext) :=
  ⟨count, by rw [splitext_numbered count hext]⟩

/-! ## rename.py -/

variable {β : Type} [DecidableEq β] {t : FileTree Name β} {dir : List Name} {ext : Name}

omit [DecidableEq β] in
/-- The loop ends at a free name, and passes numbered ones. -/
theorem passExisting_spec : ∀ (fuel count : Nat) (acc : List (List Name)),
    (∃ j < fuel, t.get (numbered (count + j) ext :: dir) = none) →
      ∃ count' acc', passExisting t dir ext fuel count acc = some (count', acc') ∧
        t.get (numbered count' ext :: dir) = none ∧
        ∀ p ∈ acc', p ∈ acc ∨ ∃ k, p = numbered k ext :: dir
  | 0, _, _, ⟨j, hj, _⟩ => absurd hj (Nat.not_lt_zero j)
  | fuel + 1, count, acc, ⟨j, hj, hfree⟩ => by
      by_cases hthere : t.get (numbered count ext :: dir) = none
      · refine ⟨count, acc, ?_, hthere, fun p hp => .inl hp⟩
        simp [passExisting, pathExists, hthere]
      · obtain ⟨j, rfl⟩ : ∃ i, j = i + 1 := by
          refine Nat.exists_eq_succ_of_ne_zero ?_
          rintro rfl
          exact hthere hfree
        obtain ⟨count', acc', hpass, hfree', hacc⟩ := passExisting_spec fuel (count + 1)
          (acc ++ [numbered count ext :: dir])
          ⟨j, by omega, by rwa [show count + 1 + j = count + (j + 1) by omega]⟩
        refine ⟨count', acc', ?_, hfree', fun p hp => ?_⟩
        · simpa [passExisting, pathExists, hthere] using hpass
        · rcases hacc p hp with hp | hp
          · rcases List.mem_append.mp hp with hp | hp
            · exact .inl hp
            · exact .inr ⟨count, List.mem_singleton.mp hp⟩
          · exact .inr hp

omit [DecidableEq β] in
/-- Among the numbers from `count` on one is free. -/
theorem exists_free_number (t : FileTree Name β) (dir : List Name) (ext : Name) (count : Nat) :
    ∃ j < t.nodes.keys.length + 1, t.get (numbered (count + j) ext :: dir) = none := by
  have hinj : Function.Injective fun j => numbered (count + j) ext :: dir := by
    intro i j h
    have hname : numbered (count + i) ext = numbered (count + j) ext := (List.cons.inj h).1
    have hcount := toDigits_inj (List.append_cancel_right hname)
    omega
  obtain ⟨j, hj, hfree⟩ := t.exists_free hinj
  exact ⟨j, by omega, hfree⟩

/-- The paths of `newNameExist` are numbered names in the directory. -/
def Known (dir : List Name) (newNameExist : List (List Name)) : Prop :=
  ∀ p ∈ newNameExist, ∃ n, p = n :: dir ∧ IsNumbered n

/-- The extension of a name, which stays. -/
def extension (name : Name) : Name := (splitext name).2

/-- A file is given the number `count`, which is free. -/
theorem move_spec {s : Renaming β} {file : Name} (hfile : s.tree.IsFile (file :: dir))
    (hknown : Known dir s.newNameExist)
    (hfree : s.tree.get (numbered s.count (splitext file).2 :: dir) = none) :
    ∃ s' n', s.move (file :: dir) dir (splitext file).2 = some s' ∧
      Moved file n' dir s.tree s'.tree ∧ extension n' = extension file ∧ IsNumbered n' ∧
        Known dir s'.newNameExist := by
  have hext := splitext_isExtension file
  obtain ⟨t', ht', hmoved⟩ := rename_free hfile hfree
  refine ⟨{ s with tree := t', count := s.count + 1 }, numbered s.count (splitext file).2, ?_,
    hmoved, ?_, isNumbered_numbered s.count hext, hknown⟩
  · rw [Renaming.move, ht']
    rfl
  · rw [extension, splitext_numbered s.count hext, extension]

/-- **A turn of the loop on a file** gives it a number. -/
theorem renameFile_spec {s : Renaming β} {file : Name} (hfile : s.tree.IsFile (file :: dir))
    (hknown : Known dir s.newNameExist) :
    ∃ s' n', s.renameFile dir file = some s' ∧ Moved file n' dir s.tree s'.tree ∧
      extension n' = extension file ∧ IsNumbered n' ∧ Known dir s'.newNameExist := by
  have hext := splitext_isExtension file
  by_cases hold : file :: dir ∈ s.newNameExist
  · -- the name was passed before: it is a number
    obtain ⟨n, heq, hn⟩ := hknown _ hold
    cases heq
    have herase : Known dir (s.newNameExist.erase (file :: dir)) :=
      fun p hp => hknown p (List.mem_of_mem_erase hp)
    refine ⟨_, file, if_pos hold, Moved.refl file dir s.tree, rfl, hn, ?_⟩
    dsimp only
    split_ifs
    · intro p hp
      rcases List.mem_append.mp hp with hp | hp
      · exact herase p hp
      · exact ⟨_, List.mem_singleton.mp hp, isNumbered_numbered s.count hext⟩
    · exact herase
  · by_cases hthere : s.tree.get (numbered s.count (splitext file).2 :: dir) = none
    · obtain ⟨s', n', hs', hrest⟩ := move_spec hfile hknown hthere
      refine ⟨s', n', ?_, hrest⟩
      rw [Renaming.renameFile, if_neg hold]
      simpa [pathExists, hthere] using hs'
    · by_cases hsame : numbered s.count (splitext file).2 = file
      · -- the file has this number already
        refine ⟨{ s with count := s.count + 1 }, file, ?_, Moved.refl file dir s.tree, rfl,
          ⟨s.count, hsame.symm⟩, hknown⟩
        rw [Renaming.renameFile, if_neg hold]
        simp [pathExists, hsame, hfile.1]
      · obtain ⟨count, acc, hpass, hfree, hacc⟩ := passExisting_spec _ _ s.newNameExist
          (exists_free_number s.tree dir (splitext file).2 s.count)
        have hknown1 : Known dir acc := by
          intro p hp
          rcases hacc p hp with hp | ⟨k, rfl⟩
          · exact hknown p hp
          · exact ⟨_, rfl, isNumbered_numbered k hext⟩
        obtain ⟨s', n', hs', hrest⟩ := move_spec (s := ⟨s.tree, count, acc⟩) hfile hknown1 hfree
        refine ⟨s', n', ?_, hrest⟩
        rw [Renaming.renameFile, if_neg hold]
        simpa [pathExists, hthere, hsame, hpass] using hs'

/-- **A turn of the loop**, if `rename` does its work on subdirectories. -/
theorem turn_spec {below : FileTree Name β → List Name → Option (FileTree Name β)} {depth : Nat}
    (hbelow : ∀ (t : FileTree Name β) (file : Name), t.get (file :: dir) = some .dir →
      t.Within depth → ∃ t', below t (file :: dir) = some t' ∧
        Rearranged extension (file :: dir) t t' ∧ NamedBelow IsNumbered (file :: dir) t')
    (ht : t.Within depth) {s : Renaming β} {file : Name} {todo : List Name}
    (h : Visiting extension IsNumbered dir t s.tree (file :: todo))
    (hknown : Known dir s.newNameExist) :
    ∃ s', s.turn below dir file = some s' ∧ Visiting extension IsNumbered dir t s'.tree todo ∧
      Known dir s'.newNameExist := by
  by_cases hdir : s.tree.get (file :: dir) = some .dir
  · obtain ⟨t', ht', hsub, hnamed⟩ := hbelow s.tree file hdir (h.rearranged.within ht)
    refine ⟨{ s with tree := t' }, ?_, h.subdir hdir hsub hnamed, hknown⟩
    simp [Renaming.turn, isdir, hdir, ht']
  · have hfile : s.tree.IsFile (file :: dir) := ⟨h.there file List.mem_cons_self, hdir⟩
    obtain ⟨s', n', hs', hmove, hext, hnum, hknown'⟩ := renameFile_spec hfile hknown
    refine ⟨s', ?_, h.file hfile hmove hext hnum, hknown'⟩
    simpa [Renaming.turn, isdir, hdir] using hs'

/-- **`rename` on a directory**: all files below it get numbers. -/
theorem renameBelow_spec (ls : Listing Name β) : ∀ (fuel : Nat) {t : FileTree Name β}
    {dir : List Name}, t.get dir = some .dir → t.Within (dir.length + fuel) →
      ∃ t', renameBelow ls fuel t dir = some t' ∧ Rearranged extension dir t t' ∧
        NamedBelow IsNumbered dir t'
  | 0, t, dir, hdir, hwithin => by
      have hlt := hwithin dir (by simp [hdir])
      omega
  | fuel + 1, t, dir, hdir, hwithin => by
      have hbelow : ∀ (t1 : FileTree Name β) (file : Name), t1.get (file :: dir) = some .dir →
          t1.Within (dir.length + (fuel + 1)) → ∃ t', renameBelow ls fuel t1 (file :: dir) = some t' ∧
            Rearranged extension (file :: dir) t1 t' ∧ NamedBelow IsNumbered (file :: dir) t' := by
        intro t1 file hfile hdepth
        refine renameBelow_spec ls fuel hfile ?_
        rwa [List.length_cons, show dir.length + 1 + fuel = dir.length + (fuel + 1) by omega]
      obtain ⟨s, hs, hvisit, -⟩ := foldlM_todo
        (fun todo (s : Renaming β) =>
          Visiting extension IsNumbered dir t s.tree todo ∧ Known dir s.newNameExist)
        (fun _ _ _ h => turn_spec hbelow hwithin h.1 h.2) (ls.names t dir) ⟨t, 0, []⟩
        ⟨Visiting.start ls t dir, by simp [Known]⟩
      exact ⟨s.tree, by simp [renameBelow, isdir, hdir, hs], hvisit.rearranged, hvisit.done⟩

/-- **rename.py loses no file.** On every directory, and in whatever order names are listed, it ends,
every file below is still there in its own directory with its extension, under a name that is a
number and the extension, and nothing else is touched. -/
theorem rename_numbers (ls : Listing Name β) (hdir : t.get dir = some .dir) :
    ∃ t', rename ls t dir = some t' ∧ Rearranged extension dir t t' ∧
      NamedBelow IsNumbered dir t' :=
  renameBelow_spec ls t.height hdir (t.within_height dir.length)

/-- The files `a` and `0`. -/
def twoFiles : FileTree Name Nat :=
  ((FileTree.empty.write 1 [['a']]).bind (·.write 2 [['0']])).getD FileTree.empty

theorem rename_numbers_two : ∃ t', rename .oldestFirst twoFiles [] = some t' ∧
    Rearranged extension [] twoFiles t' ∧ NamedBelow IsNumbered [] t' :=
  rename_numbers .oldestFirst (FileTree.get_root twoFiles)

/-! ## new_rename.py -/

/-- What `pre_proc` puts in front of every name. -/
def IsPre (name : Name) : Prop := ['_', 'p', 'r', 'e', '_'] <+: name

theorem isPre_preName (count : Nat) (name ext : Name) : IsPre (preName count name ext) := by
  unfold IsPre preName
  simp only [List.append_assoc]
  exact List.prefix_append _ _

theorem not_isPre_numbered (count : Nat) (ext : Name) : ¬ IsPre (numbered count ext) := by
  rintro ⟨r, hr⟩
  cases hdigits : Nat.toDigits 10 count with
  | nil => exact Nat.toDigits_ne_nil hdigits
  | cons c cs =>
    rw [numbered, hdigits, List.cons_append, List.cons_append] at hr
    have hdigit : c.isDigit = true :=
      Nat.isDigit_of_mem_toDigits (by omega) (by omega) (hdigits ▸ List.mem_cons_self)
    rw [← (List.cons.inj hr).1] at hdigit
    exact absurd hdigit (by decide)

omit [DecidableEq β] in
theorem passPre_spec {name : Name} : ∀ (fuel count : Nat),
    (∃ j < fuel, t.get (preName (count + j) name ext :: dir) = none) →
      ∃ count', passPre t dir name ext fuel count = some count' ∧
        t.get (preName count' name ext :: dir) = none
  | 0, _, ⟨j, hj, _⟩ => absurd hj (Nat.not_lt_zero j)
  | fuel + 1, count, ⟨j, hj, hfree⟩ => by
      by_cases hthere : t.get (preName count name ext :: dir) = none
      · exact ⟨count, by simp [passPre, pathExists, hthere], hthere⟩
      · obtain ⟨j, rfl⟩ : ∃ i, j = i + 1 := by
          refine Nat.exists_eq_succ_of_ne_zero ?_
          rintro rfl
          exact hthere hfree
        obtain ⟨count', hpass, hfree'⟩ := passPre_spec fuel (count + 1)
          ⟨j, by omega, by rwa [show count + 1 + j = count + (j + 1) by omega]⟩
        exact ⟨count', by simpa [passPre, pathExists, hthere] using hpass, hfree'⟩

/-- **A turn of `pre_proc` on a file.** -/
theorem preFile_spec {file : Name} (hfile : t.IsFile (file :: dir)) :
    ∃ t' n', preFile dir t file = some t' ∧ Moved file n' dir t t' ∧ IsPre n' := by
  have hinj : Function.Injective fun j =>
      preName (0 + j) (splitext file).1 (splitext file).2 :: dir := by
    intro i j h
    have hname := List.append_cancel_right (List.append_cancel_right (List.cons.inj h).1)
    have hcount := toDigits_inj (List.append_cancel_left hname)
    omega
  obtain ⟨j, hj, hfree⟩ := t.exists_free hinj
  obtain ⟨count, hpass, hfree'⟩ := passPre_spec (t.nodes.keys.length + 1) 0 ⟨j, by omega, hfree⟩
  obtain ⟨t', ht', hmoved⟩ := rename_free hfile hfree'
  exact ⟨t', _, by simp [preFile, hpass, ht'], hmoved, isPre_preName count _ _⟩

/-- No part of a name is sure to stay. -/
abbrev anyName (_ : Name) : Unit := ()

/-- **`pre_proc` on a directory.** -/
theorem preProc_spec (ls : Listing Name β) : ∀ (fuel : Nat) {t : FileTree Name β}
    {dir : List Name}, t.get dir = some .dir → t.Within (dir.length + fuel) →
      ∃ t', preProc ls fuel t dir = some t' ∧ Rearranged anyName dir t t' ∧ NamedBelow IsPre dir t'
  | 0, t, dir, hdir, hwithin => by
      have hlt := hwithin dir (by simp [hdir])
      omega
  | fuel + 1, t, dir, hdir, hwithin => by
      have hturn : ∀ (file : Name) (todo : List Name) (t1 : FileTree Name β),
          Visiting anyName IsPre dir t t1 (file :: todo) →
            ∃ t2, preTurn (preProc ls fuel) dir t1 file = some t2 ∧
              Visiting anyName IsPre dir t t2 todo := by
        intro file todo t1 h
        by_cases hsub : t1.get (file :: dir) = some .dir
        · have hdepth : t1.Within ((file :: dir).length + fuel) := by
            rw [List.length_cons, show dir.length + 1 + fuel = dir.length + (fuel + 1) by omega]
            exact h.rearranged.within hwithin
          obtain ⟨t2, ht2, hre, hnamed⟩ := preProc_spec ls fuel hsub hdepth
          exact ⟨t2, by simpa [preTurn, isdir, hsub] using ht2, h.subdir hsub hre hnamed⟩
        · have hfile : t1.IsFile (file :: dir) := ⟨h.there file List.mem_cons_self, hsub⟩
          obtain ⟨t2, n', ht2, hmove, hpre⟩ := preFile_spec hfile
          exact ⟨t2, by simpa [preTurn, isdir, hsub] using ht2, h.file hfile hmove rfl hpre⟩
      obtain ⟨t', ht', hvisit⟩ := foldlM_todo (fun todo t1 => Visiting anyName IsPre dir t t1 todo)
        hturn (ls.names t dir) t (Visiting.start ls t dir)
      exact ⟨t', by simp [preProc, isdir, hdir, ht'], hvisit.rearranged, hvisit.done⟩

/-- What the loop of `really_rename` keeps: the names in the directory are those to come and the
numbers up to here, with the extensions `exts`. -/
structure Numbering (dir : List Name) (exts : List Name) (t : FileTree Name β) (todo : List Name) :
    Prop where
  nodup : todo.Nodup
  names : ∀ n, t.get (n :: dir) ≠ none ↔
    n ∈ todo ∨ ∃ k e, exts[k]? = some e ∧ n = numbered k e
  pre : ∀ n, t.IsFile (n :: dir) → n ∈ todo → IsPre n
  exts : ∀ e ∈ exts, IsExtension e

omit [DecidableEq β] in
/-- The next number is no name of a file. -/
theorem Numbering.next {exts todo : List Name} (h : Numbering dir exts t todo)
    (hext : IsExtension ext) (hthere : t.get (numbered exts.length ext :: dir) ≠ none) :
    t.get (numbered exts.length ext :: dir) = some .dir ∧ numbered exts.length ext ∈ todo := by
  have htodo : numbered exts.length ext ∈ todo := by
    rcases (h.names _).mp hthere with htodo | ⟨k, e, hk, heq⟩
    · exact htodo
    · obtain ⟨rfl, -⟩ := numbered_inj hext (h.exts e (List.mem_of_getElem? hk)) heq
      rw [List.getElem?_eq_none (Nat.le_refl _)] at hk
      cases hk
  refine ⟨?_, htodo⟩
  by_contra hdir
  exact not_isPre_numbered _ _ (h.pre _ ⟨hthere, hdir⟩ htodo)

omit [DecidableEq β] in
/-- **A turn of the loop** on a file, when its number is free. -/
theorem Numbering.turn {exts todo : List Name} {file : Name} {t' : FileTree Name β}
    (h : Numbering dir exts t (file :: todo)) (hfile : t.IsFile (file :: dir))
    (hext : IsExtension ext) (hfree : t.get (numbered exts.length ext :: dir) = none)
    (hmove : Moved file (numbered exts.length ext) dir t t') :
    Numbering dir (exts ++ [ext]) t' todo := by
  obtain ⟨hnot, hnodup⟩ := List.nodup_cons.mp h.nodup
  have hpre : IsPre file := h.pre file hfile List.mem_cons_self
  have hother : ∀ n, n ≠ file → n ≠ numbered exts.length ext → t'.get (n :: dir) = t.get (n :: dir) :=
    fun n hn hn' => hmove.get_of_ne (by simpa using hn) (by simpa using hn')
  have hconcat : ∀ k e, (exts ++ [ext])[k]? = some e ↔
      exts[k]? = some e ∨ k = exts.length ∧ e = ext := by
    intro k e
    rcases Nat.lt_trichotomy k exts.length with hlt | rfl | hgt
    · simp [List.getElem?_append_left hlt, Nat.ne_of_lt hlt]
    · simp [eq_comm]
    · rw [List.getElem?_eq_none (by simp; omega), List.getElem?_eq_none (by omega)]
      simp [Nat.ne_of_gt hgt]
  have htodo : numbered exts.length ext ∉ todo :=
    fun hmem => (h.names _).mpr (.inl (List.mem_cons_of_mem file hmem)) hfree
  refine ⟨hnodup, fun n => ?_, fun n hn hmem => ?_, fun e he => ?_⟩
  · by_cases hnew : n = numbered exts.length ext
    · subst hnew
      rw [hmove.2, Equiv.swap_apply_right]
      exact iff_of_true hfile.1 (.inr ⟨exts.length, ext, (hconcat _ _).mpr (.inr ⟨rfl, rfl⟩), rfl⟩)
    · by_cases hold : n = file
      · subst hold
        rw [hmove.2, Equiv.swap_apply_left, hfree]
        refine iff_of_false (fun hne => hne rfl) ?_
        rintro (hmem | ⟨k, e, -, rfl⟩)
        · exact hnot hmem
        · exact not_isPre_numbered k e hpre
      · rw [hother n hold hnew, h.names, List.mem_cons]
        simp only [hold, false_or, hconcat]
        refine or_congr_right ⟨?_, ?_⟩
        · rintro ⟨k, e, hk, rfl⟩
          exact ⟨k, e, .inl hk, rfl⟩
        · rintro ⟨k, e, hk | ⟨rfl, rfl⟩, rfl⟩
          · exact ⟨k, e, hk, rfl⟩
          · exact absurd rfl hnew
  · have hget := hother n (fun heq => hnot (heq ▸ hmem)) fun heq => htodo (heq ▸ hmem)
    exact h.pre n ⟨hget ▸ hn.1, hget ▸ hn.2⟩ (List.mem_cons_of_mem file hmem)
  · rcases List.mem_append.mp he with he | he
    · exact h.exts e he
    · rwa [List.mem_singleton.mp he]

/-- **The loop of `really_rename`.** -/
theorem numberLoop_spec : ∀ (files exts : List Name) {t : FileTree Name β},
    Numbering dir exts t files →
      ∃ t' e, numberLoop dir exts.length t files = (t', e) ∧ Rearranged anyName dir t t' ∧
        (e = none ↔ ∀ n ∈ files, t.get (n :: dir) ≠ some .dir) ∧
        (e = none → ∃ exts', exts'.length = exts.length + files.length ∧
          Numbering dir exts' t' [])
  | [], exts, t, h =>
      ⟨t, none, rfl, .refl anyName dir t, by simp, fun _ => ⟨exts, rfl, h⟩⟩
  | file :: files, exts, t, h => by
      have hthere : t.get (file :: dir) ≠ none := (h.names file).mpr (.inl List.mem_cons_self)
      have hext := splitext_isExtension file
      by_cases hdir : t.get (file :: dir) = some .dir
      · refine ⟨t, some .nameError, by simp [numberLoop, isdir, hdir], .refl anyName dir t, ?_, ?_⟩
        · exact iff_of_false (Option.some_ne_none _) fun hall => hall file List.mem_cons_self hdir
        · exact fun he => absurd he (Option.some_ne_none _)
      · by_cases hfree : t.get (numbered exts.length (splitext file).2 :: dir) = none
        · obtain ⟨t1, ht1, hmove⟩ := rename_free ⟨hthere, hdir⟩ hfree
          have hre : Rearranged anyName dir t t1 := hmove.rearranged ⟨hthere, hdir⟩ rfl
          obtain ⟨t', e, hloop, hre', hiff, hdone⟩ :=
            numberLoop_spec files (exts ++ [(splitext file).2])
              (h.turn ⟨hthere, hdir⟩ hext hfree hmove)
          rw [List.length_append, List.length_singleton] at hloop hdone
          refine ⟨t', e, ?_, hre.trans hre', ?_, fun he => ?_⟩
          · simpa [numberLoop, isdir, hdir, ht1] using hloop
          · simp only [hiff, List.forall_mem_cons, ne_eq, hdir, not_false_eq_true, true_and,
              hre.dir_iff]
          · obtain ⟨exts', hlen, hdone'⟩ := hdone he
            exact ⟨exts', by rw [hlen, List.length_cons]; omega, hdone'⟩
        · -- a directory has the number
          obtain ⟨hnew, hmem⟩ := h.next hext hfree
          have hne : file :: dir ≠ numbered exts.length (splitext file).2 :: dir := by
            intro heq
            exact hdir (heq ▸ hnew)
          refine ⟨t, some .osError, ?_, .refl anyName dir t, ?_,
            fun he => absurd he (Option.some_ne_none _)⟩
          · simp [numberLoop, isdir, hdir, rename_to_dir hne hnew]
          · exact iff_of_false (Option.some_ne_none _) fun hall => hall _ hmem hnew

/-- **new_rename.py loses no file.** On every directory all files below are still there in their own
directories, also after an exception. It ends without one exactly if the directory has no
subdirectory, and then the names in it are the numbers from 0 on, one for each name before, with
extensions. -/
theorem renameByNum_numbers (ls : Listing Name β) (hdir : t.get dir = some .dir) :
    ∃ t' e, renameByNum ls t dir = some (t', e) ∧ Rearranged anyName dir t t' ∧
      (e = none ↔ ∀ n, t.get (n :: dir) ≠ some .dir) ∧
      (e = none → ∃ exts : List Name, exts.length = (ls.names t dir).length ∧
        ∀ n, t'.get (n :: dir) ≠ none ↔ ∃ k ext, exts[k]? = some ext ∧ n = numbered k ext) := by
  obtain ⟨t1, ht1, hre, hpre⟩ := preProc_spec ls t.height hdir (t.within_height dir.length)
  have hstart : Numbering dir [] t1 (ls.names t1 dir) := by
    refine ⟨ls.nodup t1 dir, fun n => ?_, fun n hn _ => hpre n dir hn (List.suffix_refl dir), ?_⟩
    · simp [ls.mem]
    · simp
  obtain ⟨t', e, hloop, hre', hiff, hdone⟩ := numberLoop_spec _ [] hstart
  refine ⟨t', e, ?_, hre.trans hre', ?_, fun he => ?_⟩
  · rw [renameByNum, ht1, Option.bind_eq_bind, Option.bind_some, reallyRename, ← hloop]
    rfl
  · rw [hiff]
    simp only [ne_eq, hre.dir_iff]
    refine ⟨fun hall n hn => ?_, fun hall n _ => hall n⟩
    have hn1 : t1.get (n :: dir) ≠ none := by simp [(hre.dir_iff _).mpr hn]
    exact hall n ((ls.mem t1 dir n).mpr hn1) hn
  · obtain ⟨exts, hlen, hdone'⟩ := hdone he
    refine ⟨exts, by simpa [hre.length_eq ls dir] using hlen, fun n => ?_⟩
    simpa using hdone'.names n

theorem renameByNum_numbers_two :
    ∃ t' e, renameByNum .oldestFirst twoFiles [] = some (t', e) ∧ Rearranged anyName [] twoFiles t' ∧
      (e = none ↔ ∀ n, twoFiles.get [n] ≠ some .dir) ∧
      (e = none → ∃ exts : List Name, exts.length = (Listing.oldestFirst.names twoFiles []).length ∧
        ∀ n, t'.get [n] ≠ none ↔ ∃ k ext, exts[k]? = some ext ∧ n = numbered k ext) :=
  renameByNum_numbers .oldestFirst (FileTree.get_root twoFiles)

end Donkeyji.Tools
