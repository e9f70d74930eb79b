/-
Donkeyji.PyProto.OriginTheorems — where the entries of an unpacked dictionary
come from.

`__str2strdict` cuts an item at its first colon. When there is none, `find`
gives -1, and the slices make an entry all the same: the key is the item
without its last character and the value the whole item. `ReadFrom` says of a
dictionary that every entry, at every level, is an item of the text that has a
colon; `Covered` says of one level when the entries made from the other items
do no harm. The two agree on everything that `unpack` returns
(`readFrom_iff`).
-/
import Donkeyji.PyProto.RoundTripTheorems

namespace Donkeyji.PyProto

open Text

/-! ## Entries and their items -/

/-- An item of the text has the key before its first colon and the value text
after it. -/
def ItemOf (s k w : Str) : Prop := ∃ item ∈ s.splitOn dictSep, cutAt kvSep item = some (k, w)

/-- The last item that makes an entry for the key. -/
def lastWith (k : Str) (items : List Str) : Option Str :=
  (items.filter fun item => (splitKv item).1 = k).getLast?

mutual

/-- The value is what the text `s` says for the parameter, and nothing in it
is invented. -/
def Value.ReadFrom (types : Types) (p : Param) (s : Str) : Value → Prop
  | .list vs => p.isList = true ∧ vs.ReadFrom types p.fmt (s.splitOn listSep)
  | .dict d => p.isList = false ∧ ∃ name params, p.fmt = .user name ∧ types name = some params ∧
      d.ReadFrom types params s
  | .int n => p.isList = false ∧ str2type types (fun _ _ => none) p.fmt s = some (.int n)
  | .float t => p.isList = false ∧ str2type types (fun _ _ => none) p.fmt s = some (.float t)
  | .str t => p.isList = false ∧ str2type types (fun _ _ => none) p.fmt s = some (.str t)

/-- Each item of a list is what its text says. -/
def Items.ReadFrom (types : Types) (fmt : Fmt) : List Str → Items → Prop
  | [], .nil => True
  | s :: ss, .cons v vs => v.ReadFrom types ⟨fmt, false⟩ s ∧ vs.ReadFrom types fmt ss
  | _, _ => False

/-- Each entry is an item of the text with a colon: the text that was read for
it is the one after the colon. -/
def Dict.ReadFrom (types : Types) (params : Params) (s : Str) : Dict → Prop
  | .nil => True
  | .cons k v d => (∃ w p, (k, w) ∈ str2strdict s ∧ ItemOf s k w ∧ params k = some p ∧
      v.ReadFrom types p w) ∧ d.ReadFrom types params s

end

/-- An item without a colon makes no entry of a parameter: a later item has
the same key, or the same key and value are also there with a colon. -/
def Covered (params : Params) (s : Str) : Prop :=
  ∀ b ∈ s.splitOn dictSep, kvSep ∉ b → (params b.dropLast).isSome = true →
    lastWith b.dropLast (s.splitOn dictSep) = some b →
      b.dropLast ++ kvSep :: b ∈ s.splitOn dictSep

/-- Every level that is read, down to the depth, is covered. -/
def CoveredTo (types : Types) : Nat → Params → Str → Prop
  | 0, _, _ => True
  | depth + 1, params, s => Covered params s ∧
      ∀ k w p, (k, w) ∈ str2strdict s → params k = some p →
        ∀ name ps, p.fmt = .user name → types name = some ps →
          ∀ t ∈ (if p.isList then w.splitOn listSep else [w]), CoveredTo types depth ps t

/-! ## The dictionary of strings -/

/-- `dct[key] = val` replaces the entry of the key. -/
theorem mem_setItem {dct : List (Str × Str)} {k v : Str} {e : Str × Str} :
    e ∈ setItem dct k v ↔ e = (k, v) ∨ e ∈ dct ∧ e.1 ≠ k := by
  unfold setItem
  split
  · rename_i hk
    rw [List.mem_map]
    constructor
    · intro h
      obtain ⟨e', he', heq⟩ := h
      by_cases hkey : e'.1 = k
      · rw [if_pos hkey] at heq
        exact .inl heq.symm
      · rw [if_neg hkey] at heq
        subst heq
        exact .inr ⟨he', hkey⟩
    · intro h
      cases h with
      | inl he =>
        obtain ⟨e', he', hkey⟩ := List.mem_map.mp hk
        exact ⟨e', he', by rw [if_pos hkey, he]⟩
      | inr he => exact ⟨e, he.1, by rw [if_neg he.2]⟩
  · rename_i hk
    rw [List.mem_append, List.mem_singleton]
    constructor
    · intro h
      cases h with
      | inl he =>
        refine .inr ⟨he, ?_⟩
        intro hkey
        exact hk (List.mem_map.mpr ⟨e, he, hkey⟩)
      | inr he => exact .inl he
    · intro h
      cases h with
      | inl he => exact .inr he
      | inr he => exact .inl he.1

theorem lastWith_append (k : Str) (items : List Str) (item : Str) :
    lastWith k (items ++ [item]) =
      if (splitKv item).1 = k then some item else lastWith k items := by
  unfold lastWith
  by_cases h : (splitKv item).1 = k
  · simp [h]
  · simp [h]

/-- The entries are those of the last item of each key. -/
theorem mem_foldl_setItem (items : List Str) (k w : Str) :
    (k, w) ∈ items.foldl (fun dct kv => setItem dct (splitKv kv).1 (splitKv kv).2) [] ↔
      ∃ item, lastWith k items = some item ∧ splitKv item = (k, w) := by
  induction items using List.reverseRecOn with
  | nil => simp [lastWith]
  | append_singleton items item ih =>
    rw [List.foldl_append, List.foldl_cons, List.foldl_nil, mem_setItem, ih, lastWith_append]
    by_cases hk : (splitKv item).1 = k
    · simp only [hk, if_true, Option.some.injEq, exists_eq_left', ne_eq, not_true_eq_false,
        and_false, or_false]
      rw [← hk]
      exact eq_comm
    · simp only [hk, if_false, ne_eq, Ne.symm hk, not_false_eq_true, and_true]
      constructor
      · intro h
        cases h with
        | inl he => exact absurd (congrArg Prod.fst he).symm hk
        | inr h => exact h
      · exact .inr

theorem mem_str2strdict_iff {s k w : Str} : (k, w) ∈ str2strdict s ↔
    ∃ item, lastWith k (s.splitOn dictSep) = some item ∧ splitKv item = (k, w) :=
  mem_foldl_setItem _ k w

/-- A key has one value. -/
theorem str2strdict_unique {s k w w' : Str} (h : (k, w) ∈ str2strdict s)
    (h' : (k, w') ∈ str2strdict s) : w = w' := by
  obtain ⟨item, hlast, hcut⟩ := mem_str2strdict_iff.mp h
  obtain ⟨item', hlast', hcut'⟩ := mem_str2strdict_iff.mp h'
  rw [hlast] at hlast'
  cases hlast'
  rw [hcut] at hcut'
  exact (Prod.mk.inj hcut').2

theorem lastWith_mem {k item : Str} {items : List Str} (h : lastWith k items = some item) :
    item ∈ items ∧ (splitKv item).1 = k := by
  have hmem := List.mem_filter.mp (List.mem_of_getLast? h)
  exact ⟨hmem.1, by simpa using hmem.2⟩

/-- An item without a colon. -/
theorem splitKv_bare {b : Str} (h : kvSep ∉ b) : splitKv b = (b.dropLast, b) := by
  rw [splitKv, cutAt_eq_none.mpr h]
  rfl

/-- The entries of one level are items with a colon exactly if it is covered. -/
theorem covered_iff (params : Params) (s : Str) : Covered params s ↔
    ∀ k w p, (k, w) ∈ str2strdict s → params k = some p → ItemOf s k w := by
  constructor
  · intro h k w p hmem hp
    obtain ⟨item, hlast, hcut⟩ := mem_str2strdict_iff.mp hmem
    obtain ⟨hitem, -⟩ := lastWith_mem hlast
    by_cases hbare : kvSep ∈ item
    · obtain ⟨⟨k', w'⟩, hsome⟩ := Option.ne_none_iff_exists'.mp
        (fun hnone => cutAt_eq_none.mp hnone hbare)
      rw [splitKv, hsome] at hcut
      cases hcut
      exact ⟨item, hitem, hsome⟩
    · rw [splitKv_bare hbare] at hcut
      obtain ⟨hk, hw⟩ := Prod.mk.inj hcut
      rw [← hk] at hp hlast ⊢
      rw [← hw]
      have hnot : kvSep ∉ item.dropLast := fun hin => hbare (List.mem_of_mem_dropLast hin)
      exact ⟨_, h item hitem hbare (by rw [hp]; rfl) hlast, cutAt_append hnot _⟩
  · intro h b hb hbare hparam hlast
    obtain ⟨p, hp⟩ := Option.isSome_iff_exists.mp hparam
    have hmem : (b.dropLast, b) ∈ str2strdict s :=
      mem_str2strdict_iff.mpr ⟨b, hlast, splitKv_bare hbare⟩
    obtain ⟨item, hitem, hcut⟩ := h _ _ p hmem hp
    rw [← cutAt_eq_some hcut]
    exact hitem

/-! ## All levels -/

section Levels

variable {types : Types} {depth : Nat}

/-- The records that are read from the text of a parameter are covered. -/
def RecordsCovered (types : Types) (depth : Nat) (p : Param) (w : Str) : Prop :=
  ∀ name ps, p.fmt = .user name → types name = some ps →
    ∀ t ∈ (if p.isList then w.splitOn listSep else [w]), CoveredTo types depth ps t

/-- What the depth below says about records. -/
def RecordsIff (types : Types) (depth : Nat) : Prop :=
  ∀ params s d, unpackDict types depth params s = some d →
    (d.ReadFrom types params s ↔ CoveredTo types depth params s)

/-- A value that is no list. -/
theorem str2type_readFrom (hdepth : RecordsIff types depth) {fmt : Fmt} {s : Str} {v : Value}
    (h : str2type types (unpackDict types depth) fmt s = some v) :
    v.ReadFrom types ⟨fmt, false⟩ s ↔ RecordsCovered types depth ⟨fmt, false⟩ s := by
  cases fmt with
  | int =>
    refine iff_of_true ?_ nofun
    obtain ⟨n, hn, rfl⟩ := Option.map_eq_some_iff.mp h
    exact ⟨rfl, h⟩
  | float =>
    refine iff_of_true ?_ nofun
    obtain ⟨n, hn, rfl⟩ := Option.map_eq_some_iff.mp h
    exact ⟨rfl, h⟩
  | str =>
    refine iff_of_true ?_ nofun
    cases h
    exact ⟨rfl, rfl⟩
  | user name =>
    obtain ⟨ps, hps, h⟩ := Option.bind_eq_some_iff.mp h
    obtain ⟨d, hd, h⟩ := Option.bind_eq_some_iff.mp h
    cases h
    have hrec := hdepth ps s d hd
    simp only [Value.ReadFrom, RecordsCovered, true_and, Fmt.user.injEq, Bool.false_eq_true,
      if_false, List.mem_singleton, forall_eq]
    constructor
    · intro hfrom name' ps' hname hps'
      obtain ⟨name'', ps'', hname'', hps'', hfrom⟩ := hfrom
      subst hname hname''
      rw [hps] at hps' hps''
      cases hps'
      cases hps''
      exact hrec.mp hfrom
    · intro hcov
      exact ⟨name, ps, rfl, hps, hrec.mpr (hcov name ps rfl hps)⟩

/-- The items of a list. -/
theorem str2items_readFrom (hdepth : RecordsIff types depth) {fmt : Fmt} (ss : List Str) :
    ∀ {vs : Items}, str2items types (unpackDict types depth) fmt ss = some vs →
    (vs.ReadFrom types fmt ss ↔ ∀ s ∈ ss, RecordsCovered types depth ⟨fmt, false⟩ s) := by
  induction ss with
  | nil =>
    intro vs h
    cases h
    simp [Items.ReadFrom]
  | cons s ss ih =>
    intro vs h
    obtain ⟨v, hv, h⟩ := Option.bind_eq_some_iff.mp h
    obtain ⟨vs', hvs', h⟩ := Option.bind_eq_some_iff.mp h
    cases h
    rw [Items.ReadFrom, str2type_readFrom hdepth hv, ih hvs', List.forall_mem_cons]

/-- The value of a parameter. -/
theorem str2param_readFrom (hdepth : RecordsIff types depth) {p : Param} {w : Str} {v : Value}
    (h : str2param types (unpackDict types depth) p w = some v) :
    v.ReadFrom types p w ↔ RecordsCovered types depth p w := by
  obtain ⟨fmt, isList⟩ := p
  cases isList with
  | false => exact str2type_readFrom hdepth h
  | true =>
    obtain ⟨vs, hvs, rfl⟩ := Option.map_eq_some_iff.mp h
    rw [Value.ReadFrom, str2items_readFrom hdepth _ hvs]
    simp only [RecordsCovered, true_and, if_true, Bool.false_eq_true, if_false,
      List.mem_singleton, forall_eq]
    exact ⟨fun hall name ps hname hps t ht => hall t ht name ps hname hps,
      fun hall t ht name ps hname hps => hall name ps hname hps t ht⟩

/-- The entries of a level. -/
theorem unpackItems_readFrom (hdepth : RecordsIff types depth) {params : Params} {s : Str}
    (l : List (Str × Str)) (hl : ∀ e ∈ l, e ∈ str2strdict s) : ∀ {d : Dict},
    unpackItems types (unpackDict types depth) params l = some d →
    (d.ReadFrom types params s ↔ ∀ k w p, (k, w) ∈ l → params k = some p →
      ItemOf s k w ∧ RecordsCovered types depth p w) := by
  induction l with
  | nil =>
    intro d h
    cases h
    simp [Dict.ReadFrom]
  | cons e l ih =>
    intro d h
    obtain ⟨k, w⟩ := e
    have hrest : ∀ e ∈ l, e ∈ str2strdict s := fun e he => hl e (List.mem_cons_of_mem _ he)
    cases hp : params k with
    | none =>
      simp only [unpackItems, hp] at h
      rw [ih hrest h]
      constructor
      · intro hall k' w' p' hmem hp'
        cases List.mem_cons.mp hmem with
        | inl he =>
          cases he
          rw [hp] at hp'
          cases hp'
        | inr hmem => exact hall k' w' p' hmem hp'
      · exact fun hall k' w' p' hmem hp' => hall k' w' p' (List.mem_cons_of_mem _ hmem) hp'
    | some p =>
      simp only [unpackItems, hp] at h
      obtain ⟨v, hv, h⟩ := Option.bind_eq_some_iff.mp h
      obtain ⟨d', hd', h⟩ := Option.bind_eq_some_iff.mp h
      cases h
      have hin : (k, w) ∈ str2strdict s := hl _ List.mem_cons_self
      rw [Dict.ReadFrom, ih hrest hd']
      constructor
      · intro hall k' w' p' hmem hp'
        cases List.mem_cons.mp hmem with
        | inl he =>
          cases he
          rw [hp] at hp'
          cases hp'
          obtain ⟨⟨w'', p'', hin'', hitem, hp'', hfrom⟩, -⟩ := hall
          rw [hp] at hp''
          cases hp''
          cases str2strdict_unique hin hin''
          exact ⟨hitem, (str2param_readFrom hdepth hv).mp hfrom⟩
        | inr hmem => exact hall.2 k' w' p' hmem hp'
      · intro hall
        obtain ⟨hitem, hcov⟩ := hall k w p List.mem_cons_self hp
        exact ⟨⟨w, p, hin, hitem, hp, (str2param_readFrom hdepth hv).mpr hcov⟩,
          fun k' w' p' hmem hp' => hall k' w' p' (List.mem_cons_of_mem _ hmem) hp'⟩

end Levels

/-- What a level returns is read from its items exactly if it and the levels
below are covered. -/
theorem recordsIff (types : Types) : ∀ depth : Nat, RecordsIff types depth := by
  intro depth
  induction depth with
  | zero =>
    intro params s d h
    cases h
  | succ depth ih =>
    intro params s d h
    rw [unpackItems_readFrom ih (str2strdict s) (fun _ he => he) h, CoveredTo, covered_iff]
    constructor
    · intro hall
      exact ⟨fun k w p hmem hp => (hall k w p hmem hp).1,
        fun k w p hmem hp => (hall k w p hmem hp).2⟩
    · intro hall k w p hmem hp
      exact ⟨hall.1 k w p hmem hp, hall.2 k w p hmem hp⟩

/-- **When `unpack` invents nothing.** For every description, with records
nested to any depth, and every text that `unpack` does not raise on: every key
and value of the dictionary, at every level, comes from an item of the text
with a colon, exactly if every level is covered. -/
theorem readFrom_iff (types : Types) (depth : Nat) (P : Proto) (s : Str) (d : Dict)
    (h : P.unpack types depth s = some d) :
    d.ReadFrom types P.params s ↔ CoveredTo types depth P.params s :=
  recordsIff types depth P.params s d h

/-- A name and a record of one entry. -/
theorem readFrom_iff_test :
    Dict.ReadFrom testTypes protoTest.params "name:x,info:age:5".toList
      (.cons "name".toList (.str "x".toList)
        (.cons "info".toList (.dict (.cons "age".toList (.int 5) .nil)) .nil)) ↔
    CoveredTo testTypes 2 protoTest.params "name:x,info:age:5".toList :=
  readFrom_iff testTypes 2 protoTest _ _ (by rfl)

instance (params : Params) (s : Str) : Decidable (Covered params s) :=
  inferInstanceAs (Decidable (∀ b ∈ s.splitOn dictSep, kvSep ∉ b →
    (params b.dropLast).isSome = true → lastWith b.dropLast (s.splitOn dictSep) = some b →
      b.dropLast ++ kvSep :: b ∈ s.splitOn dictSep))

/-- **An item without a colon makes an entry.** Of the text `names` the test
protocol reads the name `names`. -/
theorem bare_item_is_read :
    protoTest.unpack testTypes 1 "names".toList =
      some (.cons "name".toList (.str "names".toList) .nil) ∧
    ¬ Dict.ReadFrom testTypes protoTest.params "names".toList
      (.cons "name".toList (.str "names".toList) .nil) := by
  have hread : protoTest.unpack testTypes 1 "names".toList =
      some (.cons "name".toList (.str "names".toList) .nil) := by rfl
  refine ⟨hread, ?_⟩
  intro hfrom
  have hcov := ((recordsIff testTypes 1 protoTest.params _ _ hread).mp hfrom).1
  exact absurd hcov (by decide)

end Donkeyji.PyProto
