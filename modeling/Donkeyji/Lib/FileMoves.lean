/-
Donkeyji.Lib.FileMoves — renaming files without losing one.

A tree is another one `Rearranged` below a directory if a permutation of the
paths leads from the one to the other: every file is still there, with what is
in it, in its own directory, and of a name of the same kind; directories and
everything elsewhere stay. Renaming a file to a free name rearranges, and
rearrangements compose.
-/
import Donkeyji.Lib.FileTree
import Mathlib.Logic.Equiv.Basic

namespace FileTree

variable {ν β κ : Type*} [DecidableEq ν]

/-! ## Listings -/

/-- The names in a directory, in an order that the system chooses. -/
structure Listing (ν β : Type*) where
  names : FileTree ν β → List ν → List ν
  nodup : ∀ t p, (names t p).Nodup
  mem : ∀ t p n, n ∈ names t p ↔ t.get (n :: p) ≠ none

/-- The name in a directory that the path has, if it leads there. -/
def nameIn (p : List ν) : List ν → Option ν
  | [] => none
  | n :: d => if d = p then some n else none

theorem nameIn_eq_some {p q : List ν} {n : ν} : nameIn p q = some n ↔ q = n :: p := by
  cases q with
  | nil => simp [nameIn]
  | cons m d => simp [nameIn, and_comm]

/-- The order in which the names were made. -/
def Listing.oldestFirst : Listing ν β where
  names t p := t.nodes.keys.filterMap (nameIn p)
  nodup t p := t.nodes.nodup.filterMap fun q q' n hq hq' =>
    (nameIn_eq_some.mp hq).trans (nameIn_eq_some.mp hq').symm
  mem t p n := by
    simp only [List.mem_filterMap, nameIn_eq_some, exists_eq_right, t.nodes.mem_keys,
      Option.isSome_iff_ne_none]
    rfl

/-! ## Renaming -/

variable [DecidableEq β]

/-- `rename` of a file. A file of the new name is replaced. -/
def rename (t : FileTree ν β) (old new : List ν) : Option (FileTree ν β) :=
  match t.get old with
  | some (.file content) =>
    if old = new then some t else (t.write content new).bind (·.remove old)
  | _ => none

/-- Every file is still there, below the directory perhaps under another name of its kind. -/
def Rearranged (kind : ν → κ) (top : List ν) (t t' : FileTree ν β) : Prop :=
  ∃ σ : Equiv.Perm (List ν), (∀ q, t'.get (σ q) = t.get q) ∧
    ∀ q, σ q = q ∨ t.get q ≠ some .dir ∧
      ∃ n n' d, q = n :: d ∧ σ q = n' :: d ∧ top <:+ d ∧ kind n' = kind n

variable {kind : ν → κ} {top : List ν} {t t' t'' : FileTree ν β}

omit [DecidableEq ν] [DecidableEq β] in
theorem Rearranged.refl (kind : ν → κ) (top : List ν) (t : FileTree ν β) :
    Rearranged kind top t t :=
  ⟨Equiv.refl _, fun _ => rfl, fun _ => .inl rfl⟩

omit [DecidableEq ν] [DecidableEq β] in
theorem Rearranged.trans (h : Rearranged kind top t t') (h' : Rearranged kind top t' t'') :
    Rearranged kind top t t'' := by
  obtain ⟨σ, hget, hmove⟩ := h
  obtain ⟨τ, hget', hmove'⟩ := h'
  refine ⟨σ.trans τ, fun q => (hget' (σ q)).trans (hget q), fun q => ?_⟩
  rcases hmove q with hq | ⟨hdir, n, n', d, rfl, hσ, htop, hkind⟩
  · have hget1 := hget q
    rw [hq] at hget1
    rw [Equiv.trans_apply, hq, ← hget1]
    exact hmove' q
  · rw [Equiv.trans_apply, hσ]
    refine .inr ⟨hdir, ?_⟩
    rcases hmove' (n' :: d) with hq | ⟨-, m, m', d', heq, hτ, -, hkind'⟩
    · exact ⟨n, n', d, rfl, hq, htop, hkind⟩
    · cases heq
      exact ⟨n, m', d, rfl, hτ, htop, hkind'.trans hkind⟩

omit [DecidableEq ν] [DecidableEq β] in
/-- What is rearranged below a directory is so below those that it is in. -/
theorem Rearranged.mono {low : List ν} (h : Rearranged kind low t t') (hlow : top <:+ low) :
    Rearranged kind top t t' := by
  obtain ⟨σ, hget, hmove⟩ := h
  refine ⟨σ, hget, fun q => (hmove q).imp_right ?_⟩
  rintro ⟨hdir, n, n', d, hq, hσ, htop, hkind⟩
  exact ⟨hdir, n, n', d, hq, hσ, hlow.trans htop, hkind⟩

omit [DecidableEq ν] [DecidableEq β] in
/-- The directories are the same. -/
theorem Rearranged.dir_iff (h : Rearranged kind top t t') (q : List ν) :
    t'.get q = some .dir ↔ t.get q = some .dir := by
  obtain ⟨σ, hget, hmove⟩ := h
  constructor
  · intro hq
    have hold : t.get (σ.symm q) = some .dir := by rw [← hget, Equiv.apply_symm_apply, hq]
    rcases hmove (σ.symm q) with heq | ⟨hdir, -⟩
    · rwa [← heq, Equiv.apply_symm_apply] at hold
    · exact absurd hold hdir
  · intro hq
    rcases hmove q with heq | ⟨hdir, -⟩
    · rw [← hq, ← hget q, heq]
    · exact absurd hq hdir

omit [DecidableEq ν] [DecidableEq β] in
/-- What is not below the directory stays. -/
theorem Rearranged.frame (h : Rearranged kind top t t') {q : List ν} (hq : ¬ top <:+ q.tail) :
    t'.get q = t.get q := by
  obtain ⟨σ, hget, hmove⟩ := h
  rcases hmove q with heq | ⟨-, n, n', d, rfl, -, htop, -⟩
  · rw [← hget q, heq]
  · exact absurd htop hq

omit [DecidableEq ν] [DecidableEq β] in
theorem Rearranged.symm (h : Rearranged kind top t t') : Rearranged kind top t' t := by
  obtain ⟨σ, hget, hmove⟩ := h
  refine ⟨σ.symm, fun q => by rw [← hget, Equiv.apply_symm_apply], fun q => ?_⟩
  obtain ⟨p, rfl⟩ := σ.surjective q
  rw [Equiv.symm_apply_apply, hget]
  rcases hmove p with heq | ⟨hdir, n, n', d, rfl, hσ, htop, hkind⟩
  · exact .inl heq.symm
  · exact .inr ⟨hdir, n', n, d, hσ, rfl, htop, hkind.symm⟩

omit [DecidableEq ν] [DecidableEq β] in
theorem Rearranged.length_le (h : Rearranged kind top t t') (ls : Listing ν β) (d : List ν) :
    (ls.names t d).length ≤ (ls.names t' d).length := by
  obtain ⟨σ, hget, hmove⟩ := h
  have hnodup : ((ls.names t d).map fun n => σ (n :: d)).Nodup := by
    refine (ls.nodup t d).map fun m n hmn => ?_
    simpa using hmn
  have hsub : ((ls.names t d).map fun n => σ (n :: d)) ⊆ (ls.names t' d).map (· :: d) := by
    intro q hq
    obtain ⟨n, hn, rfl⟩ := List.mem_map.mp hq
    have hthere : t'.get (σ (n :: d)) ≠ none := by
      rw [hget]
      exact (ls.mem t d n).mp hn
    rcases hmove (n :: d) with heq | ⟨-, m, m', d', heq, hσ, -⟩
    · rw [heq] at hthere ⊢
      exact List.mem_map.mpr ⟨n, (ls.mem t' d n).mpr hthere, rfl⟩
    · cases heq
      rw [hσ] at hthere ⊢
      exact List.mem_map.mpr ⟨m', (ls.mem t' d m').mpr hthere, rfl⟩
  simpa using (List.subperm_of_subset hnodup hsub).length_le

omit [DecidableEq ν] [DecidableEq β] in
/-- Every directory has as many names as before. -/
theorem Rearranged.length_eq (h : Rearranged kind top t t') (ls : Listing ν β) (d : List ν) :
    (ls.names t' d).length = (ls.names t d).length :=
  Nat.le_antisymm (h.symm.length_le ls d) (h.length_le ls d)

/-- Nothing is as deep as that. -/
def Within (t : FileTree ν β) (depth : Nat) : Prop := ∀ q, t.get q ≠ none → q.length < depth

omit [DecidableEq ν] [DecidableEq β] in
theorem Rearranged.within {depth : Nat} (h : Rearranged kind top t t') (ht : t.Within depth) :
    t'.Within depth := by
  obtain ⟨σ, hget, hmove⟩ := h
  intro q hq
  obtain ⟨p, rfl⟩ := σ.surjective q
  rw [hget] at hq
  have hlt := ht p hq
  rcases hmove p with heq | ⟨-, n, n', d, rfl, hσ, -⟩
  · rwa [heq]
  · rwa [hσ]

/-- More than the length of every path. -/
def height (t : FileTree ν β) : Nat := (t.nodes.keys.map fun q => q.length + 1).sum

omit [DecidableEq ν] [DecidableEq β] in
theorem within_height (t : FileTree ν β) (more : Nat) : t.Within (more + t.height) := by
  intro q hq
  have hmem : q ∈ t.nodes.keys := (t.nodes.mem_keys q).mpr (Option.isSome_iff_ne_none.mpr hq)
  have hle := List.single_le_sum (fun _ _ => Nat.zero_le _) (q.length + 1)
    (List.mem_map_of_mem (f := fun q : List ν => q.length + 1) hmem)
  unfold height
  omega

/-- A file is renamed to a free name, or it keeps its own. -/
def Moved (n n' : ν) (d : List ν) (t t' : FileTree ν β) : Prop :=
  (n' = n ∨ t.get (n' :: d) = none) ∧ ∀ q, t'.get q = t.get (Equiv.swap (n :: d) (n' :: d) q)

variable {n n' : ν} {d : List ν}

omit [DecidableEq β] in
theorem Moved.refl (n : ν) (d : List ν) (t : FileTree ν β) : Moved n n d t t :=
  ⟨.inl rfl, fun q => by rw [Equiv.swap_self]; rfl⟩

omit [DecidableEq β] in
theorem Moved.get_of_ne (h : Moved n n' d t t') {q : List ν} (hq : q ≠ n :: d)
    (hq' : q ≠ n' :: d) : t'.get q = t.get q := by
  rw [h.2, Equiv.swap_apply_of_ne_of_ne hq hq']

omit [DecidableEq β] in
/-- **Renaming to a free name** in the same directory is a rearrangement. -/
theorem Moved.rearranged (h : Moved n n' d t t') (hn : t.IsFile (n :: d))
    (hkind : kind n' = kind n) : Rearranged kind d t t' := by
  refine ⟨Equiv.swap (n :: d) (n' :: d), fun q => by rw [h.2, Equiv.swap_apply_self], fun q => ?_⟩
  by_cases hq : q = n :: d
  · subst hq
    exact .inr ⟨hn.2, n, n', d, rfl, Equiv.swap_apply_left _ _, List.suffix_refl d, hkind⟩
  · by_cases hq' : q = n' :: d
    · subst hq'
      have hdir : t.get (n' :: d) ≠ some .dir := by
        rcases h.1 with rfl | hfree
        · exact hn.2
        · simp [hfree]
      exact .inr ⟨hdir, n', n, d, rfl, Equiv.swap_apply_right _ _, List.suffix_refl d, hkind.symm⟩
    · exact .inl (Equiv.swap_apply_of_ne_of_ne hq hq')

theorem rename_free (hn : t.IsFile (n :: d)) (hn' : t.get (n' :: d) = none) :
    ∃ t', t.rename (n :: d) (n' :: d) = some t' ∧ Moved n n' d t t' := by
  have hne : n :: d ≠ n' :: d := by
    intro heq
    exact hn.1 (heq ▸ hn')
  obtain ⟨content, hcontent⟩ : ∃ content, t.get (n :: d) = some (.file content) := by
    rcases h : t.get (n :: d) with _ | _ | content
    · exact absurd h hn.1
    · exact absurd h hn.2
    · exact ⟨content, rfl⟩
  have hwrites : ∃ t1, t.write content (n' :: d) = some t1 :=
    exists_write (t.get_parent (n := n) hn.1) (by simp [hn'])
  obtain ⟨t1, ht1⟩ := hwrites
  have hget1 := (write_spec ht1).2.2
  have hold : t1.IsFile (n :: d) := by
    simp [IsFile, hget1, Function.update_of_ne hne, hcontent]
  obtain ⟨t2, ht2⟩ := exists_remove hold
  have hget2 := (remove_spec ht2).2
  refine ⟨t2, by simp [rename, hcontent, hne, ht1, ht2], .inr hn', fun q => ?_⟩
  rw [hget2, hget1]
  by_cases hq : q = n :: d
  · rw [hq, Function.update_self, Equiv.swap_apply_left, hn']
  · rw [Function.update_of_ne hq]
    by_cases hq' : q = n' :: d
    · rw [hq', Function.update_self, Equiv.swap_apply_right, hcontent]
    · rw [Function.update_of_ne hq', Equiv.swap_apply_of_ne_of_ne hq hq']

/-- A file is not renamed to a directory. -/
theorem rename_to_dir {old new : List ν} (hne : old ≠ new) (hnew : t.get new = some .dir) :
    t.rename old new = none := by
  have hwrite : ∀ content, t.write content new = none := by
    intro content
    cases hw : t.write content new with
    | none => rfl
    | some t1 => exact absurd hnew (write_spec hw).2.1
  unfold rename
  split
  · rw [if_neg hne, hwrite]
    rfl
  · rfl

omit [DecidableEq ν] [DecidableEq β] in
/-- Of more paths than the tree has, one is free. -/
theorem exists_free (t : FileTree ν β) {f : Nat → List ν} (hf : Function.Injective f) :
    ∃ j ≤ t.nodes.keys.length, t.get (f j) = none := by
  by_contra hnone
  have hall : ∀ j ≤ t.nodes.keys.length, f j ∈ t.nodes.keys := by
    intro j hj
    rw [t.nodes.mem_keys, Option.isSome_iff_ne_none]
    exact fun h => hnone ⟨j, hj, h⟩
  have hsub : (List.range (t.nodes.keys.length + 1)).map f ⊆ t.nodes.keys := by
    intro q hq
    obtain ⟨j, hj, rfl⟩ := List.mem_map.mp hq
    exact hall j (Nat.lt_succ_iff.mp (List.mem_range.mp hj))
  have hle := (List.subperm_of_subset (List.nodup_range.map hf) hsub).length_le
  rw [List.length_map, List.length_range] at hle
  omega

/-! ## Going through a directory -/

/-- All files below the directory have such names. -/
def NamedBelow (good : ν → Prop) (top : List ν) (t : FileTree ν β) : Prop :=
  ∀ n d, t.IsFile (n :: d) → top <:+ d → good n

/-- A loop over the names in a directory that has not come to `todo` yet. -/
structure Visiting (kind : ν → κ) (good : ν → Prop) (top : List ν) (t t' : FileTree ν β)
    (todo : List ν) : Prop where
  rearranged : Rearranged kind top t t'
  nodup : todo.Nodup
  there : ∀ n ∈ todo, t'.get (n :: top) ≠ none
  named : ∀ n d, t'.IsFile (n :: d) → top <:+ d → good n ∨ ∃ m ∈ todo, m :: top <:+ n :: d

variable {good : ν → Prop} {todo : List ν}

omit [DecidableEq ν] [DecidableEq β] in
/-- There is nothing below a file. -/
theorem IsFile.eq_of_suffix {p q : List ν} (h : t.IsFile p) (hq : t.get q ≠ none) (hpq : p <:+ q) :
    q = p := by
  obtain ⟨m, rfl⟩ := hpq
  cases m with
  | nil => rfl
  | cons n m => exact absurd (t.get_dir_of_append (t.get_parent hq)) h.2

omit [DecidableEq ν] [DecidableEq β] in
theorem Visiting.start (ls : Listing ν β) (t : FileTree ν β) (top : List ν) :
    Visiting kind good top t t (ls.names t top) where
  rearranged := .refl kind top t
  nodup := ls.nodup t top
  there n hn := (ls.mem t top n).mp hn
  named n d hn htop := by
    obtain ⟨r, rfl⟩ := htop
    obtain ⟨l, m, hl⟩ := (List.eq_nil_or_concat (n :: r)).resolve_left (List.cons_ne_nil n r)
    have hpath : n :: (r ++ top) = l ++ m :: top := by
      rw [← List.cons_append, hl, List.concat_eq_append, List.append_assoc, List.singleton_append]
    have hthere : t.get (m :: top) ≠ none := t.get_of_append (hpath ▸ hn.1)
    exact .inr ⟨m, (ls.mem t top m).mpr hthere, l, hpath.symm⟩

omit [DecidableEq ν] [DecidableEq β] in
theorem Visiting.done (h : Visiting kind good top t t' []) : NamedBelow good top t' := by
  intro n d hn htop
  rcases h.named n d hn htop with hgood | ⟨m, hm, -⟩
  · exact hgood
  · cases hm

omit [DecidableEq β] in
/-- **A turn on a file** renames it, or leaves it. -/
theorem Visiting.file (h : Visiting kind good top t t' (n :: todo)) (hn : t'.IsFile (n :: top))
    (hmove : Moved n n' top t' t'') (hkind : kind n' = kind n) (hgood : good n') :
    Visiting kind good top t t'' todo := by
  obtain ⟨hnot, hnodup⟩ := List.nodup_cons.mp h.nodup
  refine ⟨h.rearranged.trans (hmove.rearranged hn hkind), hnodup, fun m hm => ?_,
    fun m d hm htop => ?_⟩
  · have hthere := h.there m (List.mem_cons_of_mem n hm)
    have hne : m ≠ n := fun heq => hnot (heq ▸ hm)
    have hne' : m ≠ n' := by
      rintro rfl
      exact hmove.1.elim hne hthere
    rwa [hmove.get_of_ne (by simpa using hne) (by simpa using hne')]
  · by_cases hq' : m :: d = n' :: top
    · cases hq'
      exact .inl hgood
    · by_cases hq : m :: d = n :: top
      · exfalso
        rcases hmove.1 with rfl | hfree
        · exact hq' hq
        · refine hm.1 ?_
          rw [hmove.2, hq, Equiv.swap_apply_left, hfree]
      · have hold : t'.IsFile (m :: d) := by
          have hget := hmove.get_of_ne hq hq'
          exact ⟨hget ▸ hm.1, hget ▸ hm.2⟩
        refine (h.named m d hold htop).imp_right ?_
        rintro ⟨l, hl, hsuffix⟩
        rcases List.mem_cons.mp hl with rfl | hl
        · exact absurd (hn.eq_of_suffix hold.1 hsuffix) hq
        · exact ⟨l, hl, hsuffix⟩

omit [DecidableEq ν] [DecidableEq β] in
/-- **A turn on a subdirectory** rearranges what is in it. -/
theorem Visiting.subdir (h : Visiting kind good top t t' (n :: todo))
    (hn : t'.get (n :: top) = some .dir) (hsub : Rearranged kind (n :: top) t' t'')
    (hnamed : NamedBelow good (n :: top) t'') : Visiting kind good top t t'' todo := by
  obtain ⟨hnot, hnodup⟩ := List.nodup_cons.mp h.nodup
  refine ⟨h.rearranged.trans (hsub.mono (List.suffix_cons n top)), hnodup, fun m hm => ?_,
    fun m d hm htop => ?_⟩
  · have hthere := h.there m (List.mem_cons_of_mem n hm)
    rwa [hsub.frame fun hsuffix => by simpa using hsuffix.length_le]
  · by_cases hbelow : n :: top <:+ d
    · exact .inl (hnamed m d hm hbelow)
    · have hget : t''.get (m :: d) = t'.get (m :: d) := hsub.frame hbelow
      have hold : t'.IsFile (m :: d) := ⟨hget ▸ hm.1, hget ▸ hm.2⟩
      refine (h.named m d hold htop).imp_right ?_
      rintro ⟨l, hl, hsuffix⟩
      rcases List.mem_cons.mp hl with rfl | hl
      · rcases List.suffix_cons_iff.mp hsuffix with heq | hd
        · cases heq
          exact absurd hn hold.2
        · exact absurd hd hbelow
      · exact ⟨l, hl, hsuffix⟩

end FileTree
