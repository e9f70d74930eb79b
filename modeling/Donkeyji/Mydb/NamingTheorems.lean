/-
Donkeyji.Mydb.NamingTheorems — which paths `process_type` takes for protocols.

A path names a protocol by the stem between its last separator and its last dot (`Named`).
`process_type` looks for the three positions with `find_last_of` and tests whether they are
negative, which a `size_t` never is. So the search for a backslash is never made, and a path
without a dot is not refused: its stem goes up to the end.

The `findLastOf_*` lemmas read a search on a path that is cut at the character, the
`processType_*` lemmas the function on each kind of path.
-/
import Donkeyji.Mydb.ProtoManager

namespace Donkeyji.Mydb

/-! ## Names of protocols -/

/-- A stem that starts with the side that makes the protocol. -/
def Prefixed (name : List UInt8) : Prop := name.take 2 = cstr "c_" ∨ name.take 2 = cstr "s_"

/-- The current side is the one that the prefix names. -/
def SideIs (curChar name : List UInt8) (isMaker : Bool) : Prop :=
  (name.take 2 = cstr "c_" ∧ isMaker = decide (curChar = cstr "client")) ∨
    (name.take 2 = cstr "s_" ∧ isMaker = decide (curChar = cstr "server"))

/-- The stem of the path is a protocol's name: it stands between the last separator (a slash,
or a backslash if there is no slash) and the last dot, and has a prefix. -/
def Named (curChar path name : List UInt8) (isMaker : Bool) : Prop :=
  SideIs curChar name isMaker ∧
    ∃ dir sep ext, path = dir ++ sep :: (name ++ 46 :: ext) ∧ (sep = 47 ∨ sep = 92 ∧ 47 ∉ path) ∧
      sep ∉ name ∧ sep ∉ ext ∧ 46 ∉ ext

/-- `process_type` succeeds on the path exactly if it names a protocol, with its name and side. -/
def NamingRight (curChar path : List UInt8) : Prop :=
  ∀ name isMaker, processType curChar path = some (name, isMaker) ↔ Named curChar path name isMaker

/-- The path has no slash followed, up to its end, by a prefixed name without any dot in the
path; and if it has no slash, it names no protocol behind a backslash. -/
def NamingGood (path : List UInt8) : Prop :=
  (∀ dir name, path = dir ++ 47 :: name → 47 ∉ name → 46 ∉ path → ¬ Prefixed name) ∧
    (47 ∉ path → ∀ dir name ext, path = dir ++ 92 :: (name ++ 46 :: ext) → 92 ∉ name → 92 ∉ ext →
      46 ∉ ext → ¬ Prefixed name)

/-! ## find_last_of -/

theorem findLastOf_none {c : UInt8} {s : List UInt8} (h : c ∉ s) : findLastOf c s = none := by
  have hrev : s.reverse.findIdx? (· = c) = none := by
    rw [List.findIdx?_eq_none_iff]
    intro x hx
    simp only [decide_eq_false_iff_not]
    rintro rfl
    exact h (List.mem_reverse.mp hx)
  rw [findLastOf, hrev]
  rfl

/-- A path that is cut at the last `c`. -/
theorem findLastOf_split {c : UInt8} {front back : List UInt8} (h : c ∉ back) :
    findLastOf c (front ++ c :: back) = some front.length := by
  have hrev : (front ++ c :: back).reverse.findIdx? (· = c) = some back.length := by
    have hback : back.reverse.findIdx? (· = c) = none := by
      rw [List.findIdx?_eq_none_iff]
      intro x hx
      simp only [decide_eq_false_iff_not]
      rintro rfl
      exact h (List.mem_reverse.mp hx)
    simp [List.findIdx?_append, List.findIdx?_cons, hback]
  rw [findLastOf, hrev, Option.map_some, List.length_append, List.length_cons]
  congr 1
  omega

/-- A string with a `c` can be cut at the last one. -/
theorem exists_last {c : UInt8} {s : List UInt8} (h : c ∈ s) :
    ∃ front back, s = front ++ c :: back ∧ c ∉ back := by
  obtain ⟨back, front, hrev, hback⟩ := List.eq_append_cons_of_mem (List.mem_reverse.mpr h)
  refine ⟨front.reverse, back.reverse, ?_, fun hmem => hback (List.mem_reverse.mp hmem)⟩
  have hs := congrArg List.reverse hrev
  rw [List.reverse_reverse] at hs
  rw [hs]
  simp

/-- Where a path is cut at the last `c` is determined. -/
theorem split_unique {c : UInt8} {front back front' back' : List UInt8}
    (heq : front ++ c :: back = front' ++ c :: back') (h : c ∉ back) (h' : c ∉ back') :
    front = front' ∧ back = back' := by
  have hlen : findLastOf c (front ++ c :: back) = some front.length := findLastOf_split h
  rw [heq, findLastOf_split h', Option.some.injEq] at hlen
  obtain ⟨hfront, hback⟩ := List.append_inj heq hlen.symm
  exact ⟨hfront, (List.cons.inj hback).2⟩

/-! ## process_type -/

/-- The end of `process_type`: the prefix of the stem. -/
def typeOfName (curChar name : List UInt8) : Option (List UInt8 × Bool) :=
  if name.take 2 = cstr "c_" then some (name, curChar = cstr "client")
  else if name.take 2 = cstr "s_" then some (name, curChar = cstr "server")
  else none

theorem typeOfName_eq_some {curChar name name' : List UInt8} {isMaker : Bool} :
    typeOfName curChar name = some (name', isMaker) ↔ name' = name ∧ SideIs curChar name isMaker := by
  have hdiff : cstr "c_" ≠ cstr "s_" := by decide
  unfold typeOfName SideIs
  split
  · rename_i hc
    simp [hc, hdiff, eq_comm]
  · rename_i hc
    split
    · rename_i hs
      simp [hs, hdiff.symm, eq_comm]
    · rename_i hs
      simp [hc, hs]

theorem prefixed_of_sideIs {curChar name : List UInt8} {isMaker : Bool}
    (h : SideIs curChar name isMaker) : Prefixed name := h.imp And.left And.left

theorem exists_sideIs {name : List UInt8} (curChar : List UInt8) (h : Prefixed name) :
    ∃ isMaker, SideIs curChar name isMaker := by
  obtain hc | hs := h
  · exact ⟨_, .inl ⟨hc, rfl⟩⟩
  · exact ⟨_, .inr ⟨hs, rfl⟩⟩

/-- A path without a slash is refused. -/
theorem processType_noSlash {curChar path : List UInt8} (h : 47 ∉ path) :
    processType curChar path = none := by
  simp [processType, findLastOf_none h]

/-- A path with a dot behind the last slash. -/
theorem processType_dot (curChar dir : List UInt8) {name ext : List UInt8} (hname : 47 ∉ name)
    (hext : 47 ∉ ext) (hdot : 46 ∉ ext) :
    processType curChar (dir ++ 47 :: (name ++ 46 :: ext)) = typeOfName curChar name := by
  have hslash : findLastOf 47 (dir ++ 47 :: (name ++ 46 :: ext)) = some dir.length :=
    findLastOf_split (by simp [hname, hext])
  have hlast : findLastOf 46 (dir ++ 47 :: (name ++ 46 :: ext)) =
      some (dir.length + 1 + name.length) := by
    have hcut : dir ++ 47 :: (name ++ 46 :: ext) = (dir ++ 47 :: name) ++ 46 :: ext := by simp
    rw [hcut, findLastOf_split hdot, List.length_append, List.length_cons]
    congr 1
    omega
  have hdrop : (dir ++ 47 :: (name ++ 46 :: ext)).drop (dir.length + 1) = name ++ 46 :: ext := by
    rw [List.drop_append, List.drop_of_length_le (by omega), Nat.add_sub_cancel_left]
    rfl
  have htake : (name ++ 46 :: ext).take (dir.length + 1 + name.length - (dir.length + 1)) = name := by
    rw [Nat.add_sub_cancel_left, List.take_left' rfl]
  simp only [processType, hslash, hlast, Option.bind_eq_bind, Option.bind_some]
  rw [if_neg (by omega), hdrop, htake]
  rfl

/-- A path without a dot behind the last slash: it is taken for the name if there is no dot
at all. -/
theorem processType_noDot (curChar dir : List UInt8) {name : List UInt8} (hname : 47 ∉ name)
    (hdot : 46 ∉ name) :
    processType curChar (dir ++ 47 :: name) = if 46 ∈ dir then none else typeOfName curChar name := by
  have hslash : findLastOf 47 (dir ++ 47 :: name) = some dir.length := findLastOf_split hname
  have hdrop : (dir ++ 47 :: name).drop (dir.length + 1) = name := by
    rw [List.drop_append, List.drop_of_length_le (by omega), Nat.add_sub_cancel_left]
    rfl
  by_cases hdir : 46 ∈ dir
  · obtain ⟨front, back, rfl, hback⟩ := exists_last hdir
    have hcut : front ++ 46 :: back ++ 47 :: name = front ++ 46 :: (back ++ 47 :: name) := by simp
    have hlast : findLastOf 46 (front ++ 46 :: back ++ 47 :: name) = some front.length := by
      rw [hcut]
      exact findLastOf_split (by simp [hback, hdot])
    simp only [processType, hslash, hlast, Option.bind_eq_bind, Option.bind_some]
    rw [if_pos hdir, if_pos (by simp), Option.bind_none]
  · have hlast : findLastOf 46 (dir ++ 47 :: name) = none :=
      findLastOf_none (by simp [hdir, hdot])
    simp only [processType, hslash, hlast, Option.bind_eq_bind, Option.bind_some, hdrop]
    rw [if_neg hdir]
    rfl

/-! ## Where the naming is right -/

/-- Behind a slash a name stands before the last dot. -/
theorem named_slash {curChar dir rest name : List UInt8} {isMaker : Bool} (hrest : 47 ∉ rest) :
    Named curChar (dir ++ 47 :: rest) name isMaker ↔
      SideIs curChar name isMaker ∧ ∃ ext, rest = name ++ 46 :: ext ∧ 46 ∉ ext := by
  refine and_congr_right fun _ => ⟨?_, ?_⟩
  · rintro ⟨dir', sep, ext, heq, hsep, hname, hext, hdot⟩
    obtain rfl | ⟨-, hno⟩ := hsep
    · exact ⟨ext, (split_unique heq hrest (by simp [hname, hext])).2, hdot⟩
    · exact absurd (by simp) hno
  · rintro ⟨ext, rfl, hdot⟩
    simp only [List.mem_append, List.mem_cons, not_or] at hrest
    exact ⟨dir, 47, ext, rfl, .inl rfl, hrest.1, hrest.2.2, hdot⟩

/-- On a path with a slash. -/
theorem naming_slash {curChar dir rest : List UInt8} (hrest : 47 ∉ rest) :
    NamingRight curChar (dir ++ 47 :: rest) ↔ (46 ∉ dir ++ 47 :: rest → ¬ Prefixed rest) := by
  unfold NamingRight
  by_cases hdot : 46 ∈ rest
  · obtain ⟨name, ext, rfl, hext⟩ := exists_last hdot
    simp only [List.mem_append, List.mem_cons, not_or] at hrest
    refine iff_of_true (fun name' isMaker => ?_) (fun hno => absurd (by simp) hno)
    rw [processType_dot curChar dir hrest.1 hrest.2.2 hext, typeOfName_eq_some,
      named_slash (by simp [hrest.1, hrest.2.2]), and_comm]
    constructor
    · rintro ⟨hside, rfl⟩
      exact ⟨hside, ext, rfl, hext⟩
    · rintro ⟨hside, ext', heq, hext'⟩
      obtain ⟨rfl, -⟩ := split_unique heq hext hext'
      exact ⟨hside, rfl⟩
  · have hnamed : ∀ name isMaker, ¬ Named curChar (dir ++ 47 :: rest) name isMaker := by
      intro name isMaker h
      obtain ⟨-, ext, rfl, -⟩ := (named_slash hrest).mp h
      simp at hdot
    rw [processType_noDot curChar dir hrest hdot]
    by_cases hdir : 46 ∈ dir
    · rw [if_pos hdir]
      refine iff_of_true (fun name isMaker => iff_of_false nofun (hnamed name isMaker)) ?_
      exact fun hno => absurd (List.mem_append_left _ hdir) hno
    · rw [if_neg hdir]
      constructor
      · intro h _ hprefixed
        obtain ⟨isMaker, hside⟩ := exists_sideIs curChar hprefixed
        exact hnamed rest isMaker ((h rest isMaker).mp (typeOfName_eq_some.mpr ⟨rfl, hside⟩))
      · intro h name isMaker
        refine iff_of_false (fun hsome => ?_) (hnamed name isMaker)
        have hside := (typeOfName_eq_some.mp hsome).2
        exact h (by simp [hdir, hdot]) (prefixed_of_sideIs hside)

/-- On a path without a slash. -/
theorem naming_noSlash {curChar path : List UInt8} (h : 47 ∉ path) :
    NamingRight curChar path ↔
      ∀ dir name ext, path = dir ++ 92 :: (name ++ 46 :: ext) → 92 ∉ name → 92 ∉ ext → 46 ∉ ext →
        ¬ Prefixed name := by
  unfold NamingRight
  rw [processType_noSlash h]
  constructor
  · rintro hright dir name ext rfl hname hext hdot hprefixed
    obtain ⟨isMaker, hside⟩ := exists_sideIs curChar hprefixed
    have := (hright name isMaker).mpr
      ⟨hside, dir, 92, ext, rfl, .inr ⟨rfl, h⟩, hname, hext, hdot⟩
    cases this
  · intro hgood name isMaker
    refine iff_of_false nofun ?_
    rintro ⟨hside, dir, sep, ext, rfl, hsep, hname, hext, hdot⟩
    obtain rfl | ⟨rfl, -⟩ := hsep
    · exact h (by simp)
    · exact hgood dir name ext rfl hname hext hdot (prefixed_of_sideIs hside)

/-- **When `process_type` names protocols as it should.** And the position it cuts the name at
is never behind the end, so that `substr` does not throw. -/
theorem naming_right_iff (curChar path : List UInt8) :
    (NamingRight curChar path ↔ NamingGood path) ∧
      ∀ beginPos, findLastOf 47 path = some beginPos → beginPos + 1 ≤ path.length := by
  by_cases h : 47 ∈ path
  · obtain ⟨dir, rest, rfl, hrest⟩ := exists_last h
    constructor
    · rw [naming_slash hrest]
      refine ⟨fun hright => ⟨?_, fun hno => absurd h hno⟩, fun hgood => hgood.1 dir rest rfl hrest⟩
      intro dir' name heq hname hdot
      obtain ⟨-, rfl⟩ := split_unique heq hrest hname
      exact hright hdot
    · intro beginPos hbegin
      rw [findLastOf_split hrest] at hbegin
      cases hbegin
      simp
  · constructor
    · rw [naming_noSlash h]
      refine ⟨fun hright => ⟨?_, fun _ => hright⟩, fun hgood => hgood.2 h⟩
      rintro dir name rfl
      exact absurd (by simp) h
    · intro beginPos hbegin
      rw [findLastOf_none h] at hbegin
      cases hbegin

/-- **A backslash is no separator.** The path `p\c_a.lua` names a protocol. -/
theorem backslash_path_refused : ¬ ∀ curChar path, NamingRight curChar path := by
  intro h
  have hright := (h (cstr "server") (cstr "p\\c_a.lua") (cstr "c_a") false).mpr
    ⟨.inl ⟨by decide, by decide⟩, cstr "p", 92, cstr "lua", by decide, .inr ⟨rfl, by decide⟩,
      by decide, by decide, by decide⟩
  rw [processType_noSlash (by decide)] at hright
  cases hright

end Donkeyji.Mydb
