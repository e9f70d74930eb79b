/-
Donkeyji.PyProto.TextTheorems — the texts that `py_proto/proto.py` writes and
splits.

`str2strdict_strdict2str` reads a dictionary of strings back from its text, if
no comma is in it and no colon in its keys. `type2str_notMem` says which
separators a packed value has: a comma needs a record of several entries, a
semicolon a list of several items.
-/
import Donkeyji.PyProto.Survives

namespace Donkeyji.PyProto

open Text

/-! ## Dictionaries of strings -/

theorem splitKv_entry {k s : Str} (hk : kvSep ∉ k) : splitKv (k ++ kvSep :: s) = (k, s) := by
  rw [splitKv, cutAt_append hk]
  rfl

/-- Entries with new keys are added at the end. -/
theorem foldl_setItem {l acc : List (Str × Str)} (hnodup : ((acc ++ l).map Prod.fst).Nodup) :
    l.foldl (fun dct e => setItem dct e.1 e.2) acc = acc ++ l := by
  induction l generalizing acc with
  | nil => rw [List.foldl_nil, List.append_nil]
  | cons e l ih =>
    have hnew : e.1 ∉ acc.map Prod.fst := by
      intro hmem
      rw [List.map_append, List.nodup_append] at hnodup
      exact hnodup.2.2 _ hmem _ (by simp) rfl
    have happend : acc ++ e :: l = acc ++ [e] ++ l := List.append_cons _ _ _
    rw [List.foldl_cons, setItem, if_neg hnew]
    rw [happend] at hnodup ⊢
    exact ih hnodup

/-- **A dictionary of strings is read back from its text.** -/
theorem str2strdict_strdict2str {l : List (Str × Str)} (hne : l ≠ [])
    (hnodup : (l.map Prod.fst).Nodup) (hcolon : ∀ e ∈ l, kvSep ∉ e.1)
    (hcomma : ∀ e ∈ l, dictSep ∉ e.1 ∧ dictSep ∉ e.2) : str2strdict (strdict2str l) = l := by
  have hsplit : (strdict2str l).splitOn dictSep = l.map fun e => e.1 ++ kvSep :: e.2 := by
    refine List.splitOn_intercalate dictSep (fun part hpart => ?_) (by simpa using hne)
    obtain ⟨e, he, rfl⟩ := List.mem_map.mp hpart
    simp only [List.mem_append, List.mem_cons, not_or]
    exact ⟨(hcomma e he).1, by decide, (hcomma e he).2⟩
  have hcut : ∀ (acc : List (Str × Str)), (l.map fun e => e.1 ++ kvSep :: e.2).foldl
      (fun dct kv => setItem dct (splitKv kv).1 (splitKv kv).2) acc =
      l.foldl (fun dct e => setItem dct e.1 e.2) acc := by
    clear hsplit hne hnodup hcomma
    induction l with
    | nil => exact fun _ => rfl
    | cons e l ih =>
      intro acc
      rw [List.map_cons, List.foldl_cons, List.foldl_cons,
        splitKv_entry (hcolon e List.mem_cons_self),
        ih (fun e' he' => hcolon e' (List.mem_cons_of_mem _ he'))]
  rw [str2strdict, hsplit, hcut, foldl_setItem (by simpa using hnodup), List.nil_append]

/-- The empty text has one entry. -/
theorem str2strdict_nil : str2strdict [] = [([], [])] := rfl

/-- Every entry that is read is a part of the text, cut in two. -/
theorem mem_str2strdict {s : Str} {e : Str × Str} (h : e ∈ str2strdict s) :
    ∃ kv ∈ s.splitOn dictSep, e = splitKv kv := by
  have hfrom : ∀ (kvs : List Str) (acc : List (Str × Str)),
      e ∈ kvs.foldl (fun dct kv => setItem dct (splitKv kv).1 (splitKv kv).2) acc →
        e ∈ acc ∨ ∃ kv ∈ kvs, e = splitKv kv := by
    intro kvs
    induction kvs with
    | nil => exact fun acc h => .inl h
    | cons kv kvs ih =>
      intro acc h
      obtain hmem | ⟨kv', hkv', heq⟩ := ih _ h
      · simp only [setItem] at hmem
        split at hmem
        · obtain ⟨e', he', heq⟩ := List.mem_map.mp hmem
          split at heq
          · exact .inr ⟨kv, List.mem_cons_self, heq.symm⟩
          · exact .inl (heq ▸ he')
        · obtain hacc | hnew := List.mem_append.mp hmem
          · exact .inl hacc
          · exact .inr ⟨kv, List.mem_cons_self, List.mem_singleton.mp hnew⟩
      · exact .inr ⟨kv', List.mem_cons_of_mem _ hkv', heq⟩
  exact (hfrom _ _ h).resolve_left List.not_mem_nil

/-- The value of an entry that is read is made of characters of the text, and it has no
comma. -/
theorem notMem_str2strdict {s : Str} {e : Str × Str} (h : e ∈ str2strdict s) {c : Char}
    (hc : c = dictSep ∨ c ∉ s) : c ∉ e.2 := by
  obtain ⟨kv, hkv, rfl⟩ := mem_str2strdict h
  have hpart : c ∉ kv := by
    obtain rfl | hc := hc
    · exact notMem_of_mem_splitOn hkv
    · exact fun hmem => hc (mem_of_mem_splitOn hkv hmem)
  intro hmem
  rw [splitKv] at hmem
  cases hcut : cutAt kvSep kv with
  | none =>
    rw [hcut] at hmem
    exact hpart hmem
  | some p =>
    rw [hcut] at hmem
    rw [cutAt_eq_some hcut] at hpart
    exact hpart (by simp [show c ∈ p.2 from hmem])

/-- A text without commas has one entry. -/
theorem length_str2strdict {s : Str} (h : dictSep ∉ s) : (str2strdict s).length = 1 := by
  rw [str2strdict, List.splitOn_eq_singleton h]
  rfl

/-! ## Separators in packed values -/

variable {types : Types} {order : List (Str × Str) → List (Str × Str)}

theorem plain_notMem {s : Str} (h : plain s = true) {c : Char} (hc : isSep c = true) : c ∉ s := by
  intro hmem
  have hno := List.all_eq_true.mp h c hmem
  rw [hc] at hno
  cases hno

theorem showInt_notMem (n : Int) {c : Char} (hc : isSep c = true) : c ∉ showInt n := by
  intro hmem
  simp only [isSep, List.mem_cons, List.not_mem_nil, or_false, decide_eq_true_eq] at hc
  obtain rfl | hdigit := mem_showInt hmem
  · rcases hc with h | h | h | h <;> exact absurd h (by decide)
  · rcases hc with rfl | rfl | rfl | rfl <;> exact absurd hdigit (by decide)

/-- Why a separator is in no text of a value: it is the one after the id, or the value
has the shape in which it is not needed. -/
def Absent (c : Char) (inList shape : Bool) : Prop :=
  c = idSep ∨ shape = true ∧ (c = dictSep ∨ c = listSep ∧ inList = true)

theorem Absent.sep {c : Char} {inList shape : Bool} (h : Absent c inList shape) :
    isSep c = true ∧ c ≠ kvSep := by
  obtain rfl | ⟨-, rfl | ⟨rfl, -⟩⟩ := h <;> decide

/-- A text of entries has no separator that keys and values have not, and commas only
between entries. -/
theorem strdict2str_notMem {l : List (Str × Str)} {c : Char} (hc : c ≠ kvSep)
    (hl : ∀ e ∈ l, c ∉ e.1 ∧ c ∉ e.2) (hsep : c ≠ dictSep ∨ l.length ≤ 1) :
    c ∉ strdict2str l := by
  refine notMem_intercalate (fun part hpart => ?_) (hsep.imp id fun h => by simpa using h)
  obtain ⟨e, he, rfl⟩ := List.mem_map.mp hpart
  simp only [List.mem_append, List.mem_cons, not_or]
  exact ⟨(hl e he).1, hc, (hl e he).2⟩

theorem listItems_length : ∀ {vs : Items} {fmt : Fmt} {strs : List Str},
    listItems types order fmt vs = some strs → strs.length = vs.length
  | .nil, _, _, h => by
    cases h
    rfl
  | .cons v vs, fmt, _, h => by
    obtain ⟨str, -, h⟩ := Option.bind_eq_some_iff.mp h
    obtain ⟨strs, hstrs, h⟩ := Option.bind_eq_some_iff.mp h
    cases h
    rw [List.length_cons, listItems_length hstrs, Items.length]

theorem packDict_keys {args : Params} : ∀ {d : Dict} {l : List (Str × Str)},
    d.conforms types args = true → packDict types order args d = some l →
      l.map Prod.fst = d.keys
  | .nil, _, _, h => by
    cases h
    rfl
  | .cons k v d, _, hconf, h => by
    obtain ⟨-, -, hd, p, hp, -⟩ := conforms_cons.mp hconf
    rw [packDict_cons hp] at h
    obtain ⟨str, -, h⟩ := Option.bind_eq_some_iff.mp h
    obtain ⟨l, hl, h⟩ := Option.map_eq_some_iff.mp h
    cases h
    rw [List.map_cons, packDict_keys hd hl, Dict.keys]

theorem Dict.length_keys : ∀ d : Dict, d.keys.length = d.length
  | .nil => rfl
  | .cons _ _ d => by rw [Dict.keys, List.length_cons, Dict.length_keys d, Dict.length]

theorem packDict_length {args : Params} {d : Dict} {l : List (Str × Str)}
    (hconf : d.conforms types args = true) (h : packDict types order args d = some l) :
    l.length = d.length := by
  rw [← List.length_map Prod.fst, packDict_keys hconf h, d.length_keys]

mutual

/-- A conforming value is packed. -/
theorem type2str_some : ∀ {v : Value} {fmt : Fmt}, v.conforms types fmt = true →
    ∃ s, type2str types order fmt v = some s
  | .int n, .int, _ => ⟨_, rfl⟩
  | .str s, .str, _ => ⟨_, rfl⟩
  | .dict d, .user name, hconf => by
    rw [Value.conforms] at hconf
    cases hargs : types name with
    | none =>
      rw [hargs] at hconf
      cases hconf
    | some args =>
      rw [hargs] at hconf
      obtain ⟨l, hl⟩ := packDict_some hconf
      exact ⟨strdict2str (order l), by rw [type2str, hargs, Option.bind_eq_bind, Option.bind_some, hl]; rfl⟩

theorem listItems_some : ∀ {vs : Items} {fmt : Fmt}, vs.conforms types fmt = true →
    ∃ ss, listItems types order fmt vs = some ss
  | .nil, _, _ => ⟨[], rfl⟩
  | .cons v vs, fmt, hconf => by
    obtain ⟨hv, hvs⟩ := Bool.and_eq_true_iff.mp hconf
    obtain ⟨s, hs⟩ := type2str_some hv
    obtain ⟨ss, hss⟩ := listItems_some hvs
    exact ⟨s :: ss, by simp only [listItems, hs, hss]; rfl⟩

theorem packDict_some {args : Params} : ∀ {d : Dict}, d.conforms types args = true →
    ∃ l, packDict types order args d = some l
  | .nil, _ => ⟨[], rfl⟩
  | .cons k v d, hconf => by
    obtain ⟨-, -, hd, p, hp, hadm⟩ := conforms_cons.mp hconf
    obtain ⟨l, hl⟩ := packDict_some hd
    obtain ⟨s, hs⟩ : ∃ s, param2str types order p v = some s := by
      unfold param2str
      unfold Param.admits at hadm
      split
      · rename_i hlist
        rw [if_pos hlist] at hadm
        cases v with
        | list vs =>
          obtain ⟨ss, hss⟩ := listItems_some hadm
          exact ⟨strlist2str ss, by simp only [hss, Option.map_some]⟩
        | int | float | str | dict => cases hadm
      · rename_i hlist
        rw [if_neg hlist] at hadm
        exact type2str_some hadm
    exact ⟨(k, s) :: l, by rw [packDict_cons hp, hs, hl]; rfl⟩

end

mutual

/-- **Which separators a packed value has.** -/
theorem type2str_notMem (horder : ∀ l, (order l).Perm l) {c : Char} :
    ∀ {v : Value} {fmt : Fmt} {inList : Bool} {s : Str}, v.conforms types fmt = true →
      Absent c inList (v.shape inList) → type2str types order fmt v = some s → c ∉ s
  | .int n, .int, _, _, _, hc, h => by
    cases h
    exact showInt_notMem n hc.sep.1
  | .str s, .str, _, _, hconf, hc, h => by
    cases h
    exact plain_notMem hconf hc.sep.1
  | .dict d, .user name, inList, s, hconf, hc, h => by
    rw [type2str] at h
    obtain ⟨args, hargs, h⟩ := Option.bind_eq_some_iff.mp h
    obtain ⟨l, hl, h⟩ := Option.bind_eq_some_iff.mp h
    cases h
    rw [Value.conforms, hargs] at hconf
    rw [Value.shape] at hc
    have hlen := (horder l).length_eq
    rw [packDict_length hconf hl] at hlen
    have hentries : Absent c inList (d.shape inList) :=
      hc.imp id fun h => ⟨(Bool.and_eq_true_iff.mp h.1).2, h.2⟩
    refine strdict2str_notMem hc.sep.2 (fun e he => ?_) ?_
    · exact packDict_notMem horder hconf hentries hl ((horder l).mem_iff.mp he)
    · obtain rfl | ⟨hshape, -⟩ := hc
      · exact .inl (by decide)
      · have hone := (Bool.and_eq_true_iff.mp hshape).1
        exact .inr (by rw [hlen]; exact of_decide_eq_true hone)

theorem listItems_notMem (horder : ∀ l, (order l).Perm l) {c : Char} :
    ∀ {vs : Items} {fmt : Fmt} {strs : List Str}, vs.conforms types fmt = true →
      Absent c true vs.shape → listItems types order fmt vs = some strs → ∀ s ∈ strs, c ∉ s
  | .nil, _, _, _, _, h => by
    cases h
    exact fun s hs => absurd hs List.not_mem_nil
  | .cons v vs, fmt, strs, hconf, hc, h => by
    obtain ⟨str, hstr, h⟩ := Option.bind_eq_some_iff.mp h
    obtain ⟨strs, hstrs, h⟩ := Option.bind_eq_some_iff.mp h
    cases h
    obtain ⟨hv, hvs⟩ := Bool.and_eq_true_iff.mp hconf
    rw [Items.shape] at hc
    have hcv : Absent c true (v.shape true) :=
      hc.imp id fun h => ⟨(Bool.and_eq_true_iff.mp h.1).1, h.2⟩
    have hcvs : Absent c true vs.shape :=
      hc.imp id fun h => ⟨(Bool.and_eq_true_iff.mp h.1).2, h.2⟩
    intro s hs
    obtain rfl | hs := List.mem_cons.mp hs
    · exact type2str_notMem horder hv hcv hstr
    · exact listItems_notMem horder hvs hcvs hstrs s hs

theorem packDict_notMem (horder : ∀ l, (order l).Perm l) {c : Char} {args : Params} :
    ∀ {d : Dict} {inList : Bool} {l : List (Str × Str)}, d.conforms types args = true →
      Absent c inList (d.shape inList) → packDict types order args d = some l →
        ∀ {e}, e ∈ l → c ∉ e.1 ∧ c ∉ e.2
  | .nil, _, _, _, _, h, _, he => by
    cases h
    cases he
  | .cons k v d, inList, _, hconf, hc, h, e, he => by
    obtain ⟨hk, -, hd, p, hp, hadm⟩ := conforms_cons.mp hconf
    rw [packDict_cons hp] at h
    obtain ⟨str, hstr, h⟩ := Option.bind_eq_some_iff.mp h
    obtain ⟨l, hl, h⟩ := Option.map_eq_some_iff.mp h
    cases h
    rw [Dict.shape] at hc
    have hcv : Absent c inList (v.shape inList) :=
      hc.imp id fun h => ⟨(Bool.and_eq_true_iff.mp h.1).1, h.2⟩
    have hcd : Absent c inList (d.shape inList) :=
      hc.imp id fun h => ⟨(Bool.and_eq_true_iff.mp h.1).2, h.2⟩
    obtain rfl | he := List.mem_cons.mp he
    · refine ⟨plain_notMem hk hc.sep.1, ?_⟩
      unfold param2str at hstr
      unfold Param.admits at hadm
      split at hstr
      · rename_i hlist
        rw [if_pos hlist] at hadm
        cases v with
        | list vs =>
          obtain ⟨strs, hstrs, rfl⟩ := Option.map_eq_some_iff.mp hstr
          rw [Value.shape] at hcv
          have hlen := listItems_length hstrs
          have hitems : Absent c true vs.shape :=
            hcv.imp id fun h => ⟨(Bool.and_eq_true_iff.mp h.1).2, h.2.imp id fun h => ⟨h.1, rfl⟩⟩
          refine notMem_intercalate (listItems_notMem horder hadm hitems hstrs) ?_
          obtain rfl | ⟨hshape, rfl | ⟨-, hin⟩⟩ := hcv
          · exact .inl (by decide)
          · exact .inl (by decide)
          · rw [hin] at hshape
            have hone := (Bool.and_eq_true_iff.mp (Bool.and_eq_true_iff.mp hshape).1).2
            exact .inr (by rw [hlen]; exact of_decide_eq_true hone)
        | int | float | str | dict => cases hstr
      · rename_i hlist
        rw [if_neg hlist] at hadm
        exact type2str_notMem horder hadm hcv hstr
    · exact packDict_notMem horder hd hcd hl he

end

end Donkeyji.PyProto
