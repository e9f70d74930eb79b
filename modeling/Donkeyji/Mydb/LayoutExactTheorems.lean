/-
Donkeyji.Mydb.LayoutExactTheorems — different layouts have different wire formats.

`Layout.eq_of_agree`: two layouts that encode the same values to the same
bytes are equal. The bytes need agree only up to a length that holds a
message of each of the two with one element in every array.

The argument tries values out. `Leaf.sample` is a short value of a leaf,
`Leaf.alt` one with another first byte. First the skeletons are equal,
because of which values are accepted at all (`kind_eq`). Then the leaves
are compared from the front: the position of the first byte that changes
with a leaf's value gives the zeros before it and its path; the bytes of
the leaves behind it are then the same, and so are the leaf's own.

`Layout.Canon` is what the layouts of type trees satisfy.
-/
import Donkeyji.Mydb.LayoutTheorems

namespace Donkeyji.Mydb

open Memory

variable (lua : Lua)

/-! ## Positions of a layout -/

/-- The skeleton at a path. -/
def Skel.atPath : Skel → Path → Skel
  | s, [] => s
  | .tab sub, key :: path => (sub key).atPath path
  | _, _ :: _ => .free

/-- The paths of the leaves. -/
def Leaves.paths : Leaves → List Path
  | .done _ => []
  | .cons _ path _ rest => path :: rest.paths

/-- The leaf at a path. -/
def Leaves.Has : Leaves → Path → Leaf → Prop
  | .done _, _, _ => False
  | .cons _ path leaf rest, p, l => path = p ∧ leaf = l ∨ rest.Has p l

mutual

/-- The leaves of the layout are where its skeleton has leaves, once each. -/
def Layout.Canon : Layout → Prop
  | .mk skel leaves => skel ≠ .free ∧ leaves.paths.Nodup ∧
      (∀ p, p ∈ leaves.paths ↔ skel.atPath p = .leaf) ∧ leaves.Canon

/-- The elements of an array take at least one byte. -/
def Leaf.Canon : Leaf → Prop
  | .prim _ => True
  | .arr base => base.Canon

/-- Every leaf is canonical. -/
def Leaves.Canon : Leaves → Prop
  | .done _ => True
  | .cons _ _ leaf rest => leaf.Canon ∧ rest.Canon

end

/-! ## Layouts of type trees -/

@[simp] theorem Leaves.paths_pad (m : Nat) (l : Leaves) : (l.pad m).paths = l.paths := by
  cases l <;> rfl

@[simp] theorem Leaves.paths_append : ∀ a b : Leaves,
    (a.append b).paths = a.paths ++ b.paths
  | .done m, b => by rw [append, paths_pad, paths, List.nil_append]
  | .cons m path leaf rest, b => by rw [append, paths, paths, paths_append rest b, List.cons_append]

@[simp] theorem Leaves.paths_under (key : LuaKey) : ∀ l : Leaves,
    (l.under key).paths = l.paths.map (key :: ·)
  | .done _ => rfl
  | .cons m path leaf rest => by rw [under, paths, paths, paths_under key rest, List.map_cons]

theorem Leaves.canon_pad (m : Nat) (l : Leaves) : (l.pad m).Canon ↔ l.Canon := by
  cases l <;> simp [pad, Canon]

theorem Leaves.canon_append : ∀ {a b : Leaves}, a.Canon → b.Canon → (a.append b).Canon
  | .done m, b, _, hb => (canon_pad m b).mpr hb
  | .cons _ _ _ _, _, ha, hb => ⟨ha.1, canon_append ha.2 hb⟩

theorem Leaves.canon_under (key : LuaKey) : ∀ {l : Leaves}, l.Canon → (l.under key).Canon
  | .done _, _ => trivial
  | .cons _ _ _ _, h => ⟨h.1, canon_under key h.2⟩

@[simp] theorem Skel.atPath_nil (s : Skel) : s.atPath [] = s := by
  cases s <;> rfl

@[simp] theorem Skel.atPath_free (p : Path) : Skel.free.atPath p = .free := by
  cases p <;> rfl

/-- What `Canon` says of a table's fields. -/
def Fields.Canon (t : Fields) : Prop := t.table.Canon

theorem Fields.canon_none : Fields.none.Canon := by
  refine ⟨nofun, List.nodup_nil, fun p => ?_, trivial⟩
  cases p with
  | nil => simp [none, Leaves.paths]
  | cons key path => simp [none, Leaves.paths, Skel.atPath]

/-- A new field keeps the leaves apart. -/
theorem Fields.canon_entry {key : LuaKey} {l : Layout} {t : Fields} (hfree : t.1 key = .free)
    (hl : l.Canon) (ht : t.Canon) : (entry key l t).Canon := by
  obtain ⟨skel, leaves⟩ := l
  obtain ⟨-, hnodup, hpaths, hcanon⟩ := hl
  obtain ⟨-, hnodup', hpaths', hcanon'⟩ := ht
  have hat : ∀ k p, (Skel.tab (Function.update t.1 key skel)).atPath (k :: p) =
      if k = key then skel.atPath p else (t.1 k).atPath p := by
    intro k p
    by_cases hk : k = key
    · simp [Skel.atPath, hk]
    · simp [Skel.atPath, hk]
  have hother : ∀ p, key :: p ∉ t.2.paths := by
    intro p hp
    have hleaf : (t.1 key).atPath p = .leaf := (hpaths' _).mp hp
    rw [hfree, Skel.atPath_free] at hleaf
    cases hleaf
  refine ⟨nofun, ?_, fun p => ?_, ?_⟩
  · rw [entry_snd, Leaves.paths_append, Leaves.paths_under]
    refine List.Nodup.append (hnodup.map (List.cons_injective)) hnodup' ?_
    intro p hp hp'
    obtain ⟨q, -, rfl⟩ := List.mem_map.mp hp
    exact hother q hp'
  · rw [entry_snd, Leaves.paths_append, Leaves.paths_under, List.mem_append]
    cases p with
    | nil =>
      have hnil := hpaths' []
      simp only [Skel.atPath_nil, reduceCtorEq, iff_false] at hnil
      simp [Layout.leaves, hnil, entry_fst]
    | cons k p =>
      rw [entry_fst, Layout.skel, hat]
      by_cases hk : k = key
      · subst hk
        simp only [Layout.leaves, List.mem_map, List.cons.injEq, true_and, exists_eq_right,
          hother, or_false, if_true]
        exact hpaths p
      · have hrest := hpaths' (k :: p)
        simp only [if_neg hk, List.mem_map, List.cons.injEq]
        rw [hrest]
        constructor
        · rintro (⟨q, -, h, -⟩ | h)
          · exact absurd h.symm hk
          · exact h
        · exact .inr
  · rw [entry_snd]
    exact Leaves.canon_append (Leaves.canon_under key hcanon) hcanon'

theorem Leaf.canon_layout {leaf : Leaf} (h : leaf.Canon) : leaf.layout.Canon := by
  refine ⟨nofun, by simp [Leaves.paths], fun p => ?_, h, trivial⟩
  cases p <;> simp [Leaves.paths, Skel.atPath]

theorem canon_indexFields {l : Layout} (h : l.Canon) : ∀ todo i, (indexFields l todo i).Canon
  | 0, _ => Fields.canon_none
  | todo + 1, i => Fields.canon_entry (indexFields_free l todo (i + 1) i (by omega)) h
      (canon_indexFields h todo (i + 1))

/-- The layout of an array is canonical if that of its elements is. -/
theorem canon_arrayLayout {base : Option Layout} (hbase : ∀ l, base = some l → l.Canon)
    {size : Nat} {l : Layout} (h : arrayLayout base size = some l) : l.Canon := by
  unfold arrayLayout at h
  cases hf : base.filter fun l => !l.void with
  | none =>
    rw [hf] at h
    by_cases hsize : size = 0
    · simp only [if_pos hsize, Option.some.injEq] at h
      subst h
      refine ⟨nofun, List.nodup_nil, fun p => ?_, trivial⟩
      cases p <;> simp [Leaves.paths, Skel.atPath]
    · simp [hsize] at h
  | some l' =>
    rw [hf] at h
    have hl' := hbase l' (Option.filter_eq_some_iff.mp hf).1
    by_cases hsize : size = 0
    · simp only [if_pos hsize, Option.some.injEq] at h
      subst h
      exact Leaf.canon_layout hl'
    · simp only [if_neg hsize, Option.some.injEq] at h
      subst h
      exact canon_indexFields hl' size 1

mutual

/-- The layout of a type tree is canonical. -/
theorem ArgTree.canon_layout : ∀ (d : ArgTree), d.WF → ∀ l, d.layout = some l → l.Canon
  | .number, _, l, h | .byte, _, l, h | .word, _, l, h | .dword, _, l, h | .string, _, l, h => by
      rw [ArgTree.layout, Option.some.injEq] at h
      subst h
      exact Leaf.canon_layout trivial
  | .array b size, hwf, l, h => by
      rw [ArgTree.layout] at h
      exact canon_arrayLayout (ArgTree.canon_layout b hwf) h
  | .table _ _ fs, hwf, l, h => by
      rw [ArgTree.layout] at h
      obtain ⟨t, ht, rfl⟩ := Option.map_eq_some_iff.mp h
      exact FieldTree.canon_layout fs hwf t ht

/-- The layout of a table's fields is canonical. -/
theorem FieldTree.canon_layout : ∀ (fs : FieldTree), fs.WF → ∀ t, fs.layout = some t → t.Canon
  | .nil, _, t, h => by
      rw [FieldTree.layout, Option.some.injEq] at h
      subst h
      exact Fields.canon_none
  | .leaf key a rest, ⟨hkey, ha, hrest⟩, t, h => by
      rw [FieldTree.layout] at h
      obtain ⟨l, hl, h⟩ := Option.bind_eq_some_iff.mp h
      obtain ⟨t', ht', rfl⟩ := Option.map_eq_some_iff.mp h
      exact Fields.canon_entry (FieldTree.layout_free ht' hkey)
        (ArgTree.canon_layout a ha l (Option.filter_eq_some_iff.mp hl).1)
        (FieldTree.canon_layout rest hrest t' ht')
  | .sub key fs rest, ⟨hkey, hfs, hrest⟩, t, h => by
      rw [FieldTree.layout] at h
      obtain ⟨f, hf, h⟩ := Option.bind_eq_some_iff.mp h
      obtain ⟨t', ht', rfl⟩ := Option.map_eq_some_iff.mp h
      exact Fields.canon_entry (FieldTree.layout_free ht' hkey)
        (FieldTree.canon_layout fs hfs f hf) (FieldTree.canon_layout rest hrest t' ht')

end

/-! ## Values to try -/

mutual

/-- A bound for the length of the values to try. -/
def Layout.span : Layout → Nat
  | .mk _ leaves => leaves.span

/-- A bound for the length of a leaf's values to try. -/
def Leaf.span : Leaf → Nat
  | .prim .number => 2
  | .prim .byte => 1
  | .prim .word => 2
  | .prim .dword => 4
  | .prim .string => 2
  | .arr base => 1 + base.span

/-- A bound for the length of the leaves' values to try. -/
def Leaves.span : Leaves → Nat
  | .done m => m
  | .cons m _ leaf rest => m + leaf.span + rest.span

end

/-- A short value of a leaf. -/
def Leaf.sample : Leaf → LuaValue
  | .prim .string => .string []
  | .prim _ => .ofInt 1
  | .arr _ => .newtable

/-- Samples at the paths of the leaves. -/
noncomputable def Leaves.sample : Leaves → Path → LuaValue
  | .done _ => fun _ => .nil
  | .cons _ path leaf rest => Function.update rest.sample path leaf.sample

/-- A short value of a layout. -/
noncomputable def Layout.sample (l : Layout) : LuaValue := l.skel.build .nil l.leaves.sample

/-- The array `{v}`. -/
noncomputable def singleton (v : LuaValue) (key : LuaKey) : LuaValue :=
  if key = .index 1 then v else .nil

/-- A value of a leaf with another first byte. -/
noncomputable def Leaf.alt : Leaf → LuaValue
  | .prim .number => .ofInt (-1)
  | .prim .string => .string [97]
  | .prim _ => .ofInt 0
  | .arr base => .table (singleton base.sample)

/-- A value of a leaf with another last byte, unless the sample is one byte long. -/
def Leaf.altLast : Leaf → LuaValue
  | .prim .word => .ofInt 256
  | .prim .dword => .ofInt 16777216
  | _ => .ofInt 0

theorem objlen_newtable : objlen (fun _ => .nil) = 0 := by
  simp [objlen, borderFrom, LuaValue.isNil]

theorem LuaValue.isNil_iff {v : LuaValue} : v.isNil = true ↔ v = .nil := by
  cases v <;> simp [LuaValue.isNil]

theorem objlen_singleton {v : LuaValue} (hv : v ≠ .nil) : objlen (singleton v) = 1 := by
  have h1 : (singleton v (.index 1)).isNil = false := by
    rw [singleton, if_pos rfl]
    exact Bool.eq_false_iff.mpr fun h => hv (LuaValue.isNil_iff.mp h)
  have h2 : (singleton v (.index 2)).isNil = true := by
    rw [singleton, if_neg fun h => absurd (LuaKey.index_injective h) (by decide)]
    rfl
  simp [objlen, borderFrom, h1, h2]

/-- A table with no `nil` in it is too long for an array. -/
theorem objlen_full {get : LuaKey → LuaValue} (h : ∀ key, get key ≠ .nil) : objlen get = 256 := by
  have hfrom : ∀ fuel n, borderFrom get fuel n = n + fuel := by
    intro fuel
    induction fuel with
    | zero => exact fun n => rfl
    | succ fuel ih =>
      intro n
      have hnil : (get (.index (n + 1))).isNil = false :=
        Bool.eq_false_iff.mpr fun h' => h _ (LuaValue.isNil_iff.mp h')
      rw [borderFrom, if_neg (by simp [hnil]), ih]
      omega
  rw [objlen, hfrom, Nat.zero_add]

/-! ## What the values to try encode to -/

/-- `nil` is no value of a leaf. -/
theorem Leaf.encode_nil (leaf : Leaf) : leaf.encode lua .nil = none := by
  cases leaf with
  | prim p => cases p <;> simp [Leaf.encode, Prim.encode, Lua.checkInt, Lua.checklstring]
  | arr base => simp [Leaf.encode]

/-- A one-element array is its length and its element. -/
theorem Leaf.encode_singleton (base : Layout) {v : LuaValue} (hv : v ≠ .nil) :
    (Leaf.arr base).encode lua (.table (singleton v)) = cat (some [1]) (base.encode lua v) := by
  have helem : singleton v (.index 1) = v := by rw [singleton, if_pos rfl]
  simp [Leaf.encode, objlen_singleton hv, elements, helem, leBytes]

theorem Leaf.encode_newtable (base : Layout) :
    (Leaf.arr base).encode lua .newtable = some [0] := by
  simp [Leaf.encode, LuaValue.newtable, objlen_newtable, elements, leBytes]

/-- The bytes of an integer in the basic types of numbers. -/
def Prim.intBytes (p : Prim) (num : Int) : List UInt8 :=
  let data : Nat := ((if num < 0 then -num else num) % 4294967296).toNat
  match p with
  | .number =>
    leBytes 1 ((if num < 0 then 1 else 0) + 2 * numberLen data) ++ leBytes (numberLen data) data
  | .byte => leBytes 1 (num % 4294967296).toNat
  | .word => leBytes 2 (num % 4294967296).toNat
  | .dword => leBytes 4 (num % 4294967296).toNat
  | .string => []

theorem Leaf.encode_ofInt (p : Prim) (hp : p ≠ .string) (i : Int)
    (h : -2147483648 ≤ i ∧ i < 2147483648) :
    (Leaf.prim p).encode lua (.ofInt i) = some (p.intBytes i) := by
  cases p with
  | string => exact absurd rfl hp
  | _ => simp [encode, Prim.encode, Prim.intBytes, checkInt_ofInt lua h]

/-- The bytes of the sample. -/
def Leaf.sampleBytes : Leaf → List UInt8
  | .prim .string => [1]
  | .prim p => p.intBytes 1
  | .arr _ => [0]

theorem Leaf.encode_sample (leaf : Leaf) :
    leaf.encode lua leaf.sample = some leaf.sampleBytes ∧ leaf.sampleBytes.length ≤ leaf.span := by
  cases leaf with
  | prim p =>
    cases p with
    | string => exact ⟨by simp [encode, sample, Prim.encode, Lua.checklstring, leBytes,
        sampleBytes], by decide⟩
    | number => exact ⟨encode_ofInt lua .number (by decide) 1 (by decide), by decide⟩
    | byte => exact ⟨encode_ofInt lua .byte (by decide) 1 (by decide), by decide⟩
    | word => exact ⟨encode_ofInt lua .word (by decide) 1 (by decide), by decide⟩
    | dword => exact ⟨encode_ofInt lua .dword (by decide) 1 (by decide), by decide⟩
  | arr base => exact ⟨encode_newtable lua base, by simp [sampleBytes, span]⟩

/-- The value with another last byte. -/
theorem Leaf.encode_altLast (leaf : Leaf) : leaf.sampleBytes.length = 1 ∨
    ∃ b, leaf.encode lua leaf.altLast = some b ∧ b.length ≤ leaf.span ∧
      b.getLast? ≠ leaf.sampleBytes.getLast? := by
  cases leaf with
  | prim p =>
    cases p with
    | string | byte => exact .inl rfl
    | number =>
      exact .inr ⟨_, encode_ofInt lua .number (by decide) 0 (by decide), by decide, by decide⟩
    | word =>
      exact .inr ⟨_, encode_ofInt lua .word (by decide) 256 (by decide), by decide, by decide⟩
    | dword =>
      exact .inr ⟨_, encode_ofInt lua .dword (by decide) 16777216 (by decide), by decide, by decide⟩
  | arr base => exact .inl rfl

/-! ## The leaves of a layout, one by one -/

theorem Leaves.mem_paths_iff {p : Path} : ∀ {l : Leaves}, p ∈ l.paths ↔ ∃ leaf, l.Has p leaf
  | .done m => by simp [paths, Has]
  | .cons m path leaf rest => by
      simp only [paths, List.mem_cons, Has, mem_paths_iff (l := rest)]
      constructor
      · rintro (rfl | ⟨leaf', h⟩)
        · exact ⟨leaf, .inl ⟨rfl, rfl⟩⟩
        · exact ⟨leaf', .inr h⟩
      · rintro ⟨leaf', ⟨rfl, -⟩ | h⟩
        · exact .inl rfl
        · exact .inr ⟨leaf', h⟩

/-- Leaves that encode, encode one by one. -/
theorem Leaves.encode_has {ρ : Path → LuaValue} {p : Path} {leaf : Leaf} :
    ∀ {l : Leaves} {b : List UInt8}, l.encode lua ρ = some b → l.Has p leaf →
    ∃ b', leaf.encode lua (ρ p) = some b'
  | .cons m path leaf' rest, b, h, hhas => by
      rw [encode] at h
      obtain ⟨-, b2, -, h2, -⟩ := cat_eq_some.mp h
      obtain ⟨b3, b4, h3, h4, -⟩ := cat_eq_some.mp h2
      obtain ⟨rfl, rfl⟩ | hrest := hhas
      · exact ⟨b3, h3⟩
      · exact encode_has h4 hrest

/-- Only the values at the leaves matter. -/
theorem Leaves.encode_congr {ρ ρ' : Path → LuaValue} : ∀ {l : Leaves},
    (∀ p ∈ l.paths, ρ p = ρ' p) → l.encode lua ρ = l.encode lua ρ'
  | .done m, _ => rfl
  | .cons m path leaf rest, h => by
      rw [encode, encode, h path List.mem_cons_self,
        encode_congr fun p hp => h p (List.mem_cons_of_mem _ hp)]

theorem Leaves.canon_has {p : Path} {leaf : Leaf} : ∀ {l : Leaves}, l.Canon → l.Has p leaf →
    leaf.Canon
  | .cons m path leaf' rest, hcanon, hhas => by
      obtain ⟨-, rfl⟩ | hrest := hhas
      · exact hcanon.1
      · exact canon_has hcanon.2 hrest

/-- A path has one leaf. -/
theorem Leaves.Has.unique {p : Path} {leaf leaf' : Leaf} : ∀ {l : Leaves}, l.paths.Nodup →
    l.Has p leaf → l.Has p leaf' → leaf = leaf'
  | .cons m path leaf0 rest, hnodup, h, h' => by
      obtain ⟨hpath, hrest⟩ := List.nodup_cons.mp hnodup
      obtain ⟨rfl, rfl⟩ | h := h
      · obtain ⟨-, rfl⟩ | h' := h'
        · rfl
        · exact absurd (mem_paths_iff.mpr ⟨_, h'⟩) hpath
      · obtain ⟨rfl, -⟩ | h' := h'
        · exact absurd (mem_paths_iff.mpr ⟨_, h⟩) hpath
        · exact unique hrest h h'

/-- Every leaf has a value no longer than its span. -/
def Leaves.Small (l : Leaves) (ρ : Path → LuaValue) : Prop :=
  ∀ p leaf, l.Has p leaf → ∃ b, leaf.encode lua (ρ p) = some b ∧ b.length ≤ leaf.span

/-- Small values encode to no more than the span. -/
theorem Leaves.encode_small {ρ : Path → LuaValue} : ∀ {l : Leaves}, l.Small lua ρ →
    ∃ b, l.encode lua ρ = some b ∧ b.length ≤ l.span
  | .done m, _ => ⟨_, by rw [encode], by simp [span]⟩
  | .cons m path leaf rest, h => by
      obtain ⟨b1, h1, hlen1⟩ := h path leaf (.inl ⟨rfl, rfl⟩)
      obtain ⟨b2, h2, hlen2⟩ := encode_small fun p leaf' hp => h p leaf' (.inr hp)
      refine ⟨_, by rw [encode, h1, h2, cat_some_some, cat_some_some], ?_⟩
      simp only [List.length_append, List.length_replicate, span]
      omega

/-- The sample of a leaf is in the samples of the leaves. -/
theorem Leaves.sample_has {p : Path} {leaf : Leaf} : ∀ {l : Leaves}, l.paths.Nodup →
    l.Has p leaf → l.sample p = leaf.sample
  | .cons m path leaf' rest, hnodup, hhas => by
      rw [sample]
      obtain ⟨rfl, rfl⟩ | hrest := hhas
      · rw [Function.update_self]
      · have hne : p ≠ path := by
          rintro rfl
          exact (List.nodup_cons.mp hnodup).1 (mem_paths_iff.mpr ⟨leaf, hrest⟩)
        rw [Function.update_of_ne hne]
        exact sample_has (List.nodup_cons.mp hnodup).2 hrest

/-- The samples are small. -/
theorem Leaves.small_sample {l : Leaves} (hnodup : l.paths.Nodup) : l.Small lua l.sample := by
  intro p leaf hhas
  rw [sample_has hnodup hhas]
  exact ⟨_, leaf.encode_sample lua⟩

/-- One leaf's value may be changed for another small one. -/
theorem Leaves.small_update {l : Leaves} (hnodup : l.paths.Nodup) {ρ : Path → LuaValue}
    (h : l.Small lua ρ) {p : Path} {leaf : Leaf} (hhas : l.Has p leaf) {v : LuaValue}
    {b : List UInt8} (hb : leaf.encode lua v = some b) (hlen : b.length ≤ leaf.span) :
    l.Small lua (Function.update ρ p v) := by
  intro q leaf' hhas'
  by_cases hq : q = p
  · subst hq
    rw [Function.update_self, Has.unique hnodup hhas' hhas]
    exact ⟨b, hb, hlen⟩
  · rw [Function.update_of_ne hq]
    exact h q leaf' hhas'

/-! ## Values with a given skeleton -/

@[simp] theorem atPath_nil (v : LuaValue) : v.atPath [] = v := by
  cases v <;> rfl

theorem Skel.ok_build (z : LuaValue) : ∀ (s : Skel) (ρ : Path → LuaValue), s.Ok (s.build z ρ)
  | .free, _ | .leaf, _ => trivial
  | .emptyArr, _ => ⟨_, rfl, objlen_newtable⟩
  | .tab sub, ρ => ⟨_, rfl, fun key => ok_build z (sub key) fun path => ρ (key :: path)⟩

theorem Skel.atPath_build (z : LuaValue) : ∀ (p : Path) (s : Skel) (ρ : Path → LuaValue),
    s.atPath p = .leaf → (s.build z ρ).atPath p = ρ p
  | [], s, ρ, h => by
      rw [Skel.atPath_nil] at h
      subst h
      exact Mydb.atPath_nil _
  | key :: path, .tab sub, ρ, h => atPath_build z path (sub key) (fun path => ρ (key :: path)) h

/-- The layout encodes a value with its skeleton as the leaves. -/
theorem Layout.encode_build {s : Skel} {ls : Leaves} (h : (Layout.mk s ls).Canon) (z : LuaValue)
    (ρ : Path → LuaValue) : (Layout.mk s ls).encode lua (s.build z ρ) = ls.encode lua ρ := by
  rw [encode, if_pos (s.ok_build z ρ)]
  exact Leaves.encode_congr lua fun p hp => s.atPath_build z p ρ ((h.2.2.1 p).mp hp)

/-- The sample of a layout encodes to no more than the span. -/
theorem Layout.encode_sample {l : Layout} (h : l.Canon) :
    ∃ b, l.encode lua l.sample = some b ∧ b.length ≤ l.span := by
  obtain ⟨s, ls⟩ := l
  obtain ⟨b, hb, hlen⟩ := Leaves.encode_small lua (Leaves.small_sample lua h.2.1)
  exact ⟨b, (encode_build lua h .nil ls.sample).trans hb, hlen⟩

/-- No layout accepts `nil`. -/
theorem Layout.encode_nil {l : Layout} (h : l.Canon) : l.encode lua .nil = none := by
  obtain ⟨s, ls⟩ := l
  obtain ⟨hfree, hnodup, hpaths, -⟩ := h
  cases s with
  | free => exact absurd rfl hfree
  | leaf =>
    obtain ⟨leaf, hleaf⟩ := Leaves.mem_paths_iff.mp ((hpaths []).mpr rfl)
    rw [encode, if_pos (show Skel.leaf.Ok .nil from trivial), Option.eq_none_iff_forall_ne_some]
    intro b hb
    obtain ⟨b', hb'⟩ := Leaves.encode_has lua hb hleaf
    rw [LuaValue.atPath, leaf.encode_nil] at hb'
    cases hb'
  | emptyArr | tab sub =>
    rw [encode, if_neg]
    rintro ⟨get, hget, -⟩
    cases hget

theorem Layout.sample_ne_nil {l : Layout} (h : l.Canon) : l.sample ≠ .nil := by
  intro hnil
  obtain ⟨b, hb, -⟩ := encode_sample .x86 h
  rw [hnil, encode_nil .x86 h] at hb
  cases hb

/-- The value with another first byte. -/
theorem Leaf.encode_alt {leaf : Leaf} (h : leaf.Canon) :
    ∃ b, leaf.encode lua leaf.alt = some b ∧ b.length ≤ leaf.span ∧
      b.head? ≠ leaf.sampleBytes.head? := by
  cases leaf with
  | prim p =>
    cases p with
    | string =>
      exact ⟨[2, 97], by simp [encode, alt, Prim.encode, Lua.checklstring, leBytes], by decide,
        by decide⟩
    | number => exact ⟨_, encode_ofInt lua .number (by decide) (-1) (by decide), by decide, by decide⟩
    | byte => exact ⟨_, encode_ofInt lua .byte (by decide) 0 (by decide), by decide, by decide⟩
    | word => exact ⟨_, encode_ofInt lua .word (by decide) 0 (by decide), by decide, by decide⟩
    | dword => exact ⟨_, encode_ofInt lua .dword (by decide) 0 (by decide), by decide, by decide⟩
  | arr base =>
    obtain ⟨b, hb, hlen⟩ := Layout.encode_sample lua h
    refine ⟨1 :: b, ?_, ?_, ?_⟩
    · rw [alt, encode_singleton lua base (Layout.sample_ne_nil h), hb]
      rfl
    · rw [List.length_cons, span]
      omega
    · simp [sampleBytes]

/-! ## Equal skeletons -/

/-- Two encodings agree on results of up to `N` bytes. -/
def Agree (N : Nat) (x y : Option (List UInt8)) : Prop :=
  ∀ b, b.length ≤ N → (x = some b ↔ y = some b)

theorem Agree.symm {N : Nat} {x y : Option (List UInt8)} (h : Agree N x y) : Agree N y x :=
  fun b hb => (h b hb).symm

/-- A skeleton without what is below it. -/
inductive SkelKind where
  | free
  | leaf
  | emptyArr
  | tab

def Skel.kind : Skel → SkelKind
  | .free => .free
  | .leaf => .leaf
  | .emptyArr => .emptyArr
  | .tab _ => .tab

/-- A skeleton is known from the kinds at all paths. -/
theorem Skel.ext_kind : ∀ {s s' : Skel}, (∀ p, (s.atPath p).kind = (s'.atPath p).kind) → s = s'
  | s, s', h => by
      have hroot := h []
      rw [atPath_nil, atPath_nil] at hroot
      cases s <;> cases s' <;> try first | rfl | cases hroot
      rename_i sub sub'
      congr
      funext key
      exact ext_kind fun path => h (key :: path)

theorem nil_atPath (p : Path) : LuaValue.nil.atPath p = .nil := by
  cases p <;> rfl

/-- A value with the skeleton has the skeleton below every path. -/
theorem Skel.Ok.atPath : ∀ {s : Skel} {v : LuaValue}, s.Ok v → ∀ p, (s.atPath p).Ok (v.atPath p)
  | s, v, h, [] => by
      rw [Skel.atPath_nil, Mydb.atPath_nil]
      exact h
  | .free, v, _, key :: path | .leaf, v, _, key :: path | .emptyArr, v, _, key :: path => trivial
  | .tab sub, v, h, key :: path => by
      obtain ⟨get, rfl, hsub⟩ := h
      exact (hsub key).atPath path

/-- What is built at a path is built from the skeleton there. -/
theorem Skel.build_atPath (z : LuaValue) : ∀ (p : Path) (s : Skel) (ρ : Path → LuaValue),
    s.atPath p ≠ .free →
    (s.build z ρ).atPath p = (s.atPath p).build z fun path => ρ (p ++ path)
  | [], s, ρ, _ => by
      rw [Skel.atPath_nil, Mydb.atPath_nil]
      rfl
  | key :: path, .tab sub, ρ, h =>
      build_atPath z path (sub key) (fun path => ρ (key :: path)) h
  | key :: path, .free, ρ, h | key :: path, .leaf, ρ, h | key :: path, .emptyArr, ρ, h =>
      absurd rfl h

/-- The values at leaves have nothing below them. -/
def Flat (ρ : Path → LuaValue) : Prop := ∀ p key path, (ρ p).atPath (key :: path) = .nil

/-- Where nothing is asked there is nothing. -/
theorem Skel.build_atPath_free : ∀ (p : Path) (s : Skel) (ρ : Path → LuaValue), Flat ρ →
    s.atPath p = .free → (s.build .nil ρ).atPath p = .nil
  | [], s, ρ, _, h => by
      rw [Skel.atPath_nil] at h
      subst h
      rfl
  | key :: path, .free, ρ, _, _ => rfl
  | key :: path, .leaf, ρ, hflat, _ => hflat [] key path
  | key :: path, .emptyArr, ρ, _, _ => nil_atPath path
  | key :: path, .tab sub, ρ, hflat, h =>
      build_atPath_free path (sub key) _ (fun p => hflat (key :: p)) h

theorem Skel.build_ne_nil {z : LuaValue} (hz : z ≠ .nil) {s : Skel} {ρ : Path → LuaValue}
    (h : s = .leaf → ρ [] ≠ .nil) : s.build z ρ ≠ .nil := by
  cases s with
  | free => exact hz
  | leaf => exact h rfl
  | emptyArr | tab sub => exact nofun

theorem Skel.atPath_append : ∀ (p q : Path) (s : Skel),
    s.atPath (p ++ q) = (s.atPath p).atPath q
  | [], q, s => by rw [List.nil_append, Skel.atPath_nil]
  | key :: path, q, .tab sub => atPath_append path q (sub key)
  | key :: path, q, .free | key :: path, q, .leaf | key :: path, q, .emptyArr =>
      (atPath_free q).symm

theorem Leaf.sample_atPath (leaf : Leaf) (key : LuaKey) (path : Path) :
    leaf.sample.atPath (key :: path) = .nil := by
  cases leaf with
  | prim p => cases p <;> rfl
  | arr base => exact nil_atPath path

theorem Leaf.sample_ne_nil (leaf : Leaf) : leaf.sample ≠ .nil := by
  cases leaf with
  | prim p => cases p <;> exact nofun
  | arr base => exact nofun

theorem Leaves.flat_sample : ∀ l : Leaves, Flat l.sample
  | .done _ => fun _ _ _ => rfl
  | .cons m path leaf rest => by
      intro p key path'
      by_cases hp : p = path
      · rw [sample, hp, Function.update_self]
        exact leaf.sample_atPath key path'
      · rw [sample, Function.update_of_ne hp]
        exact flat_sample rest p key path'

/-- What an accepted value is like where the layout has a leaf. -/
theorem Layout.encode_leaf {s : Skel} {ls : Leaves} (h : (Layout.mk s ls).Canon) {v : LuaValue}
    {b : List UInt8} (hb : (Layout.mk s ls).encode lua v = some b) {p : Path}
    (hp : s.atPath p = .leaf) :
    ∃ leaf b', ls.Has p leaf ∧ leaf.encode lua (v.atPath p) = some b' := by
  obtain ⟨leaf, hleaf⟩ := Leaves.mem_paths_iff.mp ((h.2.2.1 p).mpr hp)
  rw [encode] at hb
  split at hb
  · obtain ⟨b', hb'⟩ := Leaves.encode_has lua hb hleaf
    exact ⟨leaf, b', hleaf, hb'⟩
  · cases hb

/-- An accepted value has the skeleton. -/
theorem Layout.encode_ok {s : Skel} {ls : Leaves} {v : LuaValue} {b : List UInt8}
    (hb : (Layout.mk s ls).encode lua v = some b) : s.Ok v := by
  rw [encode] at hb
  split at hb
  · assumption
  · cases hb

section Skeletons

variable {lua} {s s' : Skel} {ls ls' : Leaves} (h : (Layout.mk s ls).Canon)
  (h' : (Layout.mk s' ls').Canon) {N : Nat} (hspan : ls.span ≤ N) (hspan' : ls'.span ≤ N)
  (hagree : ∀ v, Agree N ((Layout.mk s ls).encode lua v) ((Layout.mk s' ls').encode lua v))

include h hspan hagree

/-- Small values at the leaves of one layout are accepted by the other. -/
theorem encode_other (z : LuaValue) {ρ : Path → LuaValue} (hsmall : ls.Small lua ρ) :
    ∃ b, (Layout.mk s' ls').encode lua (s.build z ρ) = some b := by
  obtain ⟨b, hb, hlen⟩ := Leaves.encode_small lua hsmall
  rw [← Layout.encode_build lua h z ρ] at hb
  exact ⟨b, (hagree _ b (hlen.trans hspan)).mp hb⟩

include h'

theorem free_of_agree {p : Path} (hp : s.atPath p = .free) : s'.atPath p = .free := by
  obtain ⟨b, hb⟩ := encode_other h hspan hagree .nil (Leaves.small_sample lua h.2.1)
  have hnil := s.build_atPath_free p _ (Leaves.flat_sample ls) hp
  have hok := (Layout.encode_ok lua hb).atPath p
  rw [hnil] at hok
  cases hk : s'.atPath p with
  | free => rfl
  | leaf =>
    obtain ⟨leaf, b', -, hb'⟩ := Layout.encode_leaf lua h' hb hk
    rw [hnil, leaf.encode_nil] at hb'
    cases hb'
  | emptyArr | tab sub =>
    rw [hk] at hok
    obtain ⟨get, hget, -⟩ := hok
    cases hget

/-- A table full of values is accepted where a layout has a table, not where it has an
array. -/
theorem tab_of_agree {p : Path} {sub : LuaKey → Skel} (hp : s.atPath p = .tab sub) :
    s'.atPath p ≠ .leaf ∧ s'.atPath p ≠ .emptyArr := by
  obtain ⟨b, hb⟩ := encode_other h hspan hagree (.ofInt 0) (Leaves.small_sample lua h.2.1)
  have hne : s.atPath p ≠ .free := by rw [hp]; exact nofun
  have htable := s.build_atPath (.ofInt 0) p ls.sample hne
  have hfull : objlen (fun key => (sub key).build (.ofInt 0) fun q => ls.sample (p ++ key :: q)) =
      256 := by
    have hz : LuaValue.ofInt 0 ≠ .nil := nofun
    refine objlen_full fun key => Skel.build_ne_nil hz fun hleaf => ?_
    have hpath : s.atPath (p ++ [key]) = .leaf := by
      rw [Skel.atPath_append, hp, Skel.atPath, Skel.atPath_nil, hleaf]
    obtain ⟨leaf, hhas⟩ := Leaves.mem_paths_iff.mp ((h.2.2.1 _).mpr hpath)
    rw [Leaves.sample_has h.2.1 hhas]
    exact leaf.sample_ne_nil
  rw [hp, Skel.build] at htable
  constructor
  · intro hk
    obtain ⟨leaf, b', -, hb'⟩ := Layout.encode_leaf lua h' hb hk
    rw [htable] at hb'
    cases leaf with
    | prim q => cases q <;> simp [Leaf.encode, Prim.encode, Lua.checkInt, Lua.checklstring] at hb'
    | arr base => simp [Leaf.encode, hfull] at hb'
  · intro hk
    have hok := (Layout.encode_ok lua hb).atPath p
    rw [htable, hk] at hok
    obtain ⟨get, hget, hlen⟩ := hok
    cases hget
    omega

include hspan'

/-- An array with an element is accepted where a layout has a leaf for arrays, not where
it has an array that must be empty. -/
theorem emptyArr_of_agree {p : Path} (hp : s.atPath p = .emptyArr) : s'.atPath p ≠ .leaf := by
  intro hk
  obtain ⟨b, hb⟩ := encode_other h hspan hagree .nil (Leaves.small_sample lua h.2.1)
  have hne : s.atPath p ≠ .free := by rw [hp]; exact nofun
  have hempty := s.build_atPath .nil p ls.sample hne
  rw [hp, Skel.build] at hempty
  obtain ⟨leaf, b', hhas, hb'⟩ := Layout.encode_leaf lua h' hb hk
  rw [hempty] at hb'
  cases leaf with
  | prim q =>
    cases q <;>
      simp [Leaf.encode, Prim.encode, Lua.checkInt, Lua.checklstring, LuaValue.newtable] at hb'
  | arr base =>
    have hcanon := Leaves.canon_has h'.2.2.2 hhas
    obtain ⟨b1, hb1, hlen1, -⟩ := Leaf.encode_alt lua hcanon
    obtain ⟨b2, hb2⟩ := encode_other h' hspan' (fun v => (hagree v).symm) .nil
      (Leaves.small_update lua h'.2.1 (Leaves.small_sample lua h'.2.1) hhas hb1 hlen1)
    have hok := (Layout.encode_ok lua hb2).atPath p
    rw [hp, Skel.atPath_build .nil p s' _ hk, Function.update_self] at hok
    obtain ⟨get, hget, hlen⟩ := hok
    cases hget
    rw [objlen_singleton (Layout.sample_ne_nil hcanon)] at hlen
    cases hlen

/-- **Layouts that agree have the same skeleton.** -/
theorem skel_of_agree : s = s' := by
  have hsymm := fun v => (hagree v).symm
  refine Skel.ext_kind fun p => ?_
  cases hp : s.atPath p with
  | free => rw [free_of_agree h h' hspan hagree hp]
  | leaf =>
    cases hp' : s'.atPath p with
    | leaf => rfl
    | free => rw [free_of_agree h' h hspan' hsymm hp'] at hp; cases hp
    | emptyArr => exact absurd hp (emptyArr_of_agree h' h hspan' hspan hsymm hp')
    | tab sub => exact absurd hp (tab_of_agree h' h hspan' hsymm hp').1
  | emptyArr =>
    cases hp' : s'.atPath p with
    | emptyArr => rfl
    | free => rw [free_of_agree h' h hspan' hsymm hp'] at hp; cases hp
    | leaf => exact absurd hp' (emptyArr_of_agree h h' hspan hspan' hagree hp)
    | tab sub => exact absurd hp (tab_of_agree h' h hspan' hsymm hp').2
  | tab sub =>
    have hne := tab_of_agree h h' hspan hagree hp
    cases hp' : s'.atPath p with
    | tab sub' => rfl
    | free => rw [free_of_agree h' h hspan' hsymm hp'] at hp; cases hp
    | leaf => exact absurd hp' hne.1
    | emptyArr => exact absurd hp' hne.2

end Skeletons

/-! ## The first leaf -/

theorem Leaves.encode_cons_eq_some {m : Nat} {p : Path} {leaf : Leaf} {rest : Leaves}
    {ρ : Path → LuaValue} {b : List UInt8} :
    (Leaves.cons m p leaf rest).encode lua ρ = some b ↔
      ∃ a r, leaf.encode lua (ρ p) = some a ∧ rest.encode lua ρ = some r ∧
        b = List.replicate m 0 ++ (a ++ r) := by
  rw [encode]
  constructor
  · intro h
    obtain ⟨b1, b2, h1, h2, rfl⟩ := cat_eq_some.mp h
    obtain ⟨a, r, ha, hr, rfl⟩ := cat_eq_some.mp h2
    cases h1
    exact ⟨a, r, ha, hr, rfl⟩
  · rintro ⟨a, r, ha, hr, rfl⟩
    rw [ha, hr]
    rfl

/-- The zeros before a leaf's first byte, and that byte. -/
theorem getElem?_zeros (m : Nat) {a : List UInt8} (ha : a ≠ []) (r : List UInt8) :
    (∀ k, k < m → (List.replicate m 0 ++ (a ++ r))[k]? = some 0) ∧
      (List.replicate m 0 ++ (a ++ r))[m]? = a.head? := by
  constructor
  · intro k hk
    rw [List.getElem?_append_left (by simpa using hk)]
    simp [hk]
  · rw [List.getElem?_append_right (by simp), List.length_replicate, Nat.sub_self]
    cases a with
    | nil => exact absurd rfl ha
    | cons x xs => rfl

/-- Two encodings that differ where the first leaf begins. -/
theorem Leaves.encode_alt {m : Nat} {p : Path} {leaf : Leaf} {rest : Leaves}
    (hnodup : (Leaves.cons m p leaf rest).paths.Nodup) (hcanon : leaf.Canon) :
    let l := Leaves.cons m p leaf rest
    ∃ b b', l.encode lua l.sample = some b ∧
      l.encode lua (Function.update l.sample p leaf.alt) = some b' ∧
      b.length ≤ l.span ∧ b'.length ≤ l.span ∧ b[m]? ≠ b'[m]? := by
  intro l
  have hhas : l.Has p leaf := .inl ⟨rfl, rfl⟩
  obtain ⟨a, ha, hlen, hhead⟩ := Leaf.encode_alt lua hcanon
  have hsmall := small_sample lua hnodup
  obtain ⟨b, hb, hb1⟩ := encode_small lua hsmall
  obtain ⟨b', hb', hb1'⟩ := encode_small lua (small_update lua hnodup hsmall hhas ha hlen)
  refine ⟨b, b', hb, hb', hb1, hb1', ?_⟩
  obtain ⟨a0, r0, ha0, -, rfl⟩ := (encode_cons_eq_some lua).mp hb
  obtain ⟨a1, r1, ha1, -, rfl⟩ := (encode_cons_eq_some lua).mp hb'
  have hne0 : a0 ≠ [] := fun h => leaf.encode_ne_nil lua _ (h ▸ ha0)
  have hne1 : a1 ≠ [] := fun h => leaf.encode_ne_nil lua _ (h ▸ ha1)
  rw [(getElem?_zeros m hne0 r0).2, (getElem?_zeros m hne1 r1).2]
  rw [sample_has hnodup hhas, (leaf.encode_sample lua).1] at ha0
  rw [Function.update_self, ha] at ha1
  cases ha0
  cases ha1
  exact hhead.symm

/-- The leaves of a layout that agrees do not begin after the first leaf. -/
theorem Leaves.first_of_agree {m : Nat} {p : Path} {leaf : Leaf} {rest ls' : Leaves}
    (hnodup : (Leaves.cons m p leaf rest).paths.Nodup) (hcanon : leaf.Canon) {N : Nat}
    (hspan : (Leaves.cons m p leaf rest).span ≤ N)
    (hagree : ∀ ρ, Agree N ((Leaves.cons m p leaf rest).encode lua ρ) (ls'.encode lua ρ)) :
    ∃ m' p' leaf' rest', ls' = .cons m' p' leaf' rest' ∧ m' ≤ m ∧ (m' = m → p' = p) := by
  obtain ⟨b, b', hb, hb', hlen, hlen', hdiff⟩ := encode_alt lua hnodup hcanon
  have h := (hagree _ b (hlen.trans hspan)).mp hb
  have h' := (hagree _ b' (hlen'.trans hspan)).mp hb'
  cases ls' with
  | done m' =>
    rw [encode] at h h'
    cases h
    cases h'
    exact absurd rfl hdiff
  | cons m' p' leaf' rest' =>
    refine ⟨m', p', leaf', rest', rfl, ?_⟩
    obtain ⟨a, r, ha, -, rfl⟩ := (encode_cons_eq_some lua).mp h
    obtain ⟨a', r', ha', -, rfl⟩ := (encode_cons_eq_some lua).mp h'
    have hne : a ≠ [] := fun h => leaf'.encode_ne_nil lua _ (h ▸ ha)
    have hne' : a' ≠ [] := fun h => leaf'.encode_ne_nil lua _ (h ▸ ha')
    have hget := getElem?_zeros m' hne r
    have hget' := getElem?_zeros m' hne' r'
    constructor
    · by_contra hlt
      exact hdiff (by rw [hget.1 m (by omega), hget'.1 m (by omega)])
    · rintro rfl
      by_contra hp
      rw [Function.update_of_ne hp, ha] at ha'
      cases ha'
      exact hdiff (by rw [hget.2, hget'.2])

/-! ## The leaves after the first -/

/-- If all values of a leaf are followed by `r`, and each is what another encoding
followed by `r'` makes of it, then `r'` is not longer than `r`. -/
theorem not_longer (leaf : Leaf) {g : LuaValue → Option (List UInt8)} {r r' : List UInt8}
    (hg : ∀ v, g v ≠ some [])
    (h : ∀ v a, leaf.encode lua v = some a → a.length ≤ leaf.span →
      ∃ a', g v = some a' ∧ a ++ r = a' ++ r') : ¬ r.length < r'.length := by
  intro hlt
  -- the bytes of `r'` before `r` end every value of the leaf
  have hsuffix : ∀ v a, leaf.encode lua v = some a → a.length ≤ leaf.span →
      ∃ a', a' ≠ [] ∧ a = a' ++ r'.take (r'.length - r.length) := by
    intro v a ha hlen
    obtain ⟨a', ha', heq⟩ := h v a ha hlen
    refine ⟨a', fun hnil => hg v (hnil ▸ ha'), ?_⟩
    rw [List.append_eq_append_iff] at heq
    obtain ⟨y, -, hr⟩ | ⟨y, rfl, rfl⟩ := heq
    · rw [hr, List.length_append] at hlt
      omega
    · simp
  obtain ⟨hs, hslen⟩ := leaf.encode_sample lua
  obtain ⟨a0, hne0, h0⟩ := hsuffix _ _ hs hslen
  have hlen0 : 1 ≤ a0.length := List.length_pos_iff.mpr hne0
  have hy : r'.take (r'.length - r.length) ≠ [] := by
    intro hnil
    have := congrArg List.length hnil
    simp only [List.length_take, List.length_nil] at this
    omega
  have hylen : 1 ≤ (r'.take (r'.length - r.length)).length := List.length_pos_iff.mpr hy
  obtain hone | ⟨b, hb, hblen, hlast⟩ := leaf.encode_altLast lua
  · rw [h0, List.length_append] at hone
    omega
  · obtain ⟨a1, -, h1⟩ := hsuffix _ _ hb hblen
    rw [h0, h1, List.getLast?_append_of_ne_nil _ hy, List.getLast?_append_of_ne_nil _ hy] at hlast
    exact hlast rfl

/-- Changing the first leaf changes only its own bytes. -/
theorem Leaves.encode_update {m : Nat} {p : Path} {leaf : Leaf} {rest : Leaves}
    (hp : p ∉ rest.paths) (ρ : Path → LuaValue) (v : LuaValue) :
    (Leaves.cons m p leaf rest).encode lua (Function.update ρ p v) =
      cat (some (List.replicate m 0)) (cat (leaf.encode lua v) (rest.encode lua ρ)) := by
  have hrest : rest.encode lua (Function.update ρ p v) = rest.encode lua ρ := by
    refine encode_congr lua fun q hq => ?_
    have hne : q ≠ p := fun h => hp (h ▸ hq)
    rw [Function.update_of_ne hne]
  rw [encode, hrest, Function.update_self]

/-- A value of the first leaf, seen through leaves that agree. -/
theorem Leaves.step_of_agree {m : Nat} {p : Path} {leaf leaf' : Leaf} {rest rest' : Leaves}
    (hp : p ∉ rest.paths) (hp' : p ∉ rest'.paths) {N : Nat}
    (hagree : ∀ ρ, Agree N ((Leaves.cons m p leaf rest).encode lua ρ)
      ((Leaves.cons m p leaf' rest').encode lua ρ))
    {ρ : Path → LuaValue} {r r' : List UInt8} (hr : rest.encode lua ρ = some r)
    (hr' : rest'.encode lua ρ = some r') {v : LuaValue} {a : List UInt8}
    (ha : leaf.encode lua v = some a) (hlen : m + a.length + r.length ≤ N) :
    ∃ a', leaf'.encode lua v = some a' ∧ a ++ r = a' ++ r' := by
  have h := hagree (Function.update ρ p v)
  rw [encode_update lua hp, encode_update lua hp', ha, hr, hr'] at h
  have hb := (h (List.replicate m 0 ++ (a ++ r)) (by simp; omega)).mp rfl
  obtain ⟨b1, b2, h1, h2, heq⟩ := cat_eq_some.mp hb
  obtain ⟨a', r'', ha', hr'', rfl⟩ := cat_eq_some.mp h2
  cases h1
  cases hr''
  exact ⟨a', ha', List.append_cancel_left heq⟩

/-- **Leaves that agree have the same first leaf**, as far as its values can tell. -/
theorem Leaves.leaf_of_agree {m : Nat} {p : Path} {leaf leaf' : Leaf} {rest rest' : Leaves}
    (hnodup : (Leaves.cons m p leaf rest).paths.Nodup)
    (hnodup' : (Leaves.cons m p leaf' rest').paths.Nodup) {N : Nat}
    (hspan : (Leaves.cons m p leaf rest).span + (Leaves.cons m p leaf' rest').span ≤ N)
    (hagree : ∀ ρ, Agree N ((Leaves.cons m p leaf rest).encode lua ρ)
      ((Leaves.cons m p leaf' rest').encode lua ρ)) :
    ∃ M, leaf.span + leaf'.span ≤ M ∧
      ∀ v, Agree M (leaf.encode lua v) (leaf'.encode lua v) := by
  have hp := (List.nodup_cons.mp hnodup).1
  have hp' := (List.nodup_cons.mp hnodup').1
  simp only [span] at hspan
  -- the leaves behind, at samples
  obtain ⟨b, hb, hblen⟩ := encode_small lua (small_sample lua hnodup)
  simp only [span] at hblen
  have hb' := (hagree _ b (by omega)).mp hb
  obtain ⟨a, r, ha, hr, rfl⟩ := (encode_cons_eq_some lua).mp hb
  obtain ⟨a', r', ha', hr', heq⟩ := (encode_cons_eq_some lua).mp hb'
  replace heq := List.append_cancel_left heq
  have hrlen : r.length ≤ rest.span := by
    obtain ⟨r2, hr2, hlen⟩ := encode_small lua fun q l hq =>
      small_sample lua hnodup q l (.inr hq)
    rw [hr] at hr2
    cases hr2
    exact hlen
  have hnot : ¬ r.length < r'.length := by
    refine not_longer lua leaf (fun v => leaf'.encode_ne_nil lua v) fun v x hx hxlen => ?_
    exact step_of_agree lua hp hp' hagree hr hr' hx (by omega)
  have hnot' : ¬ r'.length < r.length := by
    intro hlt
    refine not_longer lua leaf' (fun v => leaf.encode_ne_nil lua v) (fun v x hx hxlen => ?_) hlt
    exact step_of_agree lua hp' hp (fun ρ => (hagree ρ).symm) hr' hr hx (by omega)
  have hsame : r = r' := (List.append_inj' heq (by omega)).2
  subst hsame
  refine ⟨N - m - r.length, by omega, fun v x hx => ⟨fun h => ?_, fun h => ?_⟩⟩
  · obtain ⟨x', hx', heq⟩ := step_of_agree lua hp hp' hagree hr hr' h (by omega)
    rw [hx', List.append_cancel_right heq]
  · obtain ⟨x', hx', heq⟩ :=
      step_of_agree lua hp' hp (fun ρ => (hagree ρ).symm) hr' hr h (by omega)
    rw [hx', List.append_cancel_right heq]

/-- Leaves that agree and have the same first leaf agree on the leaves behind. -/
theorem Leaves.rest_of_agree {m : Nat} {p : Path} {leaf : Leaf} {rest rest' : Leaves}
    (hp : p ∉ rest.paths) (hp' : p ∉ rest'.paths) {N : Nat}
    (hspan : (Leaves.cons m p leaf rest).span + (Leaves.cons m p leaf rest').span ≤ N)
    (hagree : ∀ ρ, Agree N ((Leaves.cons m p leaf rest).encode lua ρ)
      ((Leaves.cons m p leaf rest').encode lua ρ)) :
    ∃ M, rest.span + rest'.span ≤ M ∧
      ∀ ρ, Agree M (rest.encode lua ρ) (rest'.encode lua ρ) := by
  obtain ⟨hs, hslen⟩ := leaf.encode_sample lua
  simp only [span] at hspan
  have hput : ∀ {l l' : Leaves}, p ∉ l.paths → p ∉ l'.paths →
      (∀ ρ, Agree N ((Leaves.cons m p leaf l).encode lua ρ)
        ((Leaves.cons m p leaf l').encode lua ρ)) →
      ∀ ρ x, x.length ≤ N - m - leaf.sampleBytes.length → m + leaf.sampleBytes.length ≤ N →
        l.encode lua ρ = some x → l'.encode lua ρ = some x := by
    intro l l' hl hl' h ρ x hx hroom hlx
    have hag := h (Function.update ρ p leaf.sample)
    rw [encode_update lua hl, encode_update lua hl', hs, hlx] at hag
    have hb := (hag (List.replicate m 0 ++ (leaf.sampleBytes ++ x)) (by simp; omega)).mp rfl
    obtain ⟨b1, b2, h1, h2, heq⟩ := cat_eq_some.mp hb
    obtain ⟨a', r, ha', hr, rfl⟩ := cat_eq_some.mp h2
    cases h1
    cases ha'
    rw [hr, List.append_cancel_left (List.append_cancel_left heq)]
  refine ⟨N - m - leaf.sampleBytes.length, by omega, fun ρ x hx => ⟨?_, ?_⟩⟩
  · exact hput hp hp' hagree ρ x hx (by omega)
  · exact hput hp' hp (fun ρ => (hagree ρ).symm) ρ x hx (by omega)

/-! ## Equal layouts -/

theorem cat_cons_iff {c : UInt8} {y : Option (List UInt8)} {x : List UInt8} :
    cat (some [c]) y = some (c :: x) ↔ y = some x := by
  cases y <;> simp

/-- The basic types of numbers encode 1 differently. -/
theorem Prim.eq_of_intBytes {p q : Prim} (hp : p ≠ .string) (hq : q ≠ .string)
    (h : p.intBytes 1 = q.intBytes 1) : p = q := by
  cases p <;> cases q <;>
    first
    | rfl
    | exact absurd rfl hp
    | exact absurd rfl hq
    | exact absurd h (by decide)

/-- Leaves of different kinds do not agree. -/
theorem Leaf.prim_of_agree {p : Prim} {leaf : Leaf} {M : Nat}
    (hspan : (Leaf.prim p).span + leaf.span ≤ M)
    (hagree : ∀ v, Agree M ((Leaf.prim p).encode lua v) (leaf.encode lua v)) :
    leaf = .prim p := by
  have hfirst : leaf.encode lua (Leaf.prim p).sample = some (Leaf.prim p).sampleBytes := by
    obtain ⟨hs, hlen⟩ := (Leaf.prim p).encode_sample lua
    exact (hagree _ _ (by omega)).mp hs
  have hsecond : (Leaf.prim p).encode lua leaf.sample = some leaf.sampleBytes := by
    obtain ⟨hs, hlen⟩ := leaf.encode_sample lua
    exact (hagree _ _ (by omega)).mpr hs
  cases leaf with
  | arr base =>
    cases p <;>
      simp [Leaf.encode, Leaf.sample, Prim.encode, Lua.checkInt, Lua.checklstring,
        LuaValue.newtable] at hsecond
  | prim q =>
    have hnum : ∀ {q : Prim}, q ≠ .string → (Leaf.prim q).encode lua (.string []) = none := by
      intro q hq
      cases q with
      | string => exact absurd rfl hq
      | _ => simp [Leaf.encode, Prim.encode, Lua.checkInt]
    by_cases hp : p = .string
    · subst hp
      by_cases hq : q = .string
      · rw [hq]
      · rw [Leaf.sample, hnum hq] at hfirst
        cases hfirst
    · by_cases hq : q = .string
      · subst hq
        rw [Leaf.sample, hnum hp] at hsecond
        cases hsecond
      · have hsample : (Leaf.prim q).sample = .ofInt 1 := by
          cases q <;> first | rfl | exact absurd rfl hq
        have hbytes : (Leaf.prim q).sampleBytes = q.intBytes 1 := by
          cases q <;> first | rfl | exact absurd rfl hq
        rw [hsample, hbytes, Leaf.encode_ofInt lua p hp 1 (by decide), Option.some.injEq]
          at hsecond
        rw [Prim.eq_of_intBytes hp hq hsecond]

mutual

/-- **Layouts that agree are equal.** -/
theorem Layout.eq_of_agree : ∀ (l l' : Layout) {N : Nat}, l.Canon → l'.Canon →
    l.span + l'.span ≤ N → (∀ v, Agree N (l.encode lua v) (l'.encode lua v)) → l = l'
  | .mk s ls, .mk s' ls', N, h, h', hspan, hagree => by
      simp only [Layout.span] at hspan
      have hskel : s = s' := skel_of_agree h h' (by omega) (by omega) hagree
      subst hskel
      have hleaves : ls = ls' := by
        refine Leaves.eq_of_agree ls ls' h.2.1 h'.2.1 h.2.2.2 h'.2.2.2 hspan fun ρ => ?_
        have := hagree (s.build .nil ρ)
        rw [Layout.encode_build lua h, Layout.encode_build lua h'] at this
        exact this
      rw [hleaves]

/-- Leaves that agree are equal. -/
theorem Leaf.eq_of_agree : ∀ (l l' : Leaf) {M : Nat}, l.Canon → l'.Canon →
    l.span + l'.span ≤ M → (∀ v, Agree M (l.encode lua v) (l'.encode lua v)) → l = l'
  | .prim p, l', M, _, _, hspan, hagree => (Leaf.prim_of_agree lua hspan hagree).symm
  | .arr base, .prim p, M, _, _, hspan, hagree =>
      Leaf.prim_of_agree lua (by omega) fun v => (hagree v).symm
  | .arr base, .arr base', M, h, h', hspan, hagree => by
      simp only [Leaf.span] at hspan
      have hbase : base = base' := by
        refine Layout.eq_of_agree base base' (N := M - 1) h h' (by omega) fun v x hx => ?_
        by_cases hv : v = .nil
        · rw [hv, Layout.encode_nil lua h, Layout.encode_nil lua h']
        · have hone := hagree (.table (singleton v)) (1 :: x) (by simp; omega)
          rw [Leaf.encode_singleton lua base hv, Leaf.encode_singleton lua base' hv,
            cat_cons_iff, cat_cons_iff] at hone
          exact hone
      rw [hbase]

/-- Lists of leaves that agree are equal. -/
theorem Leaves.eq_of_agree : ∀ (ls ls' : Leaves) {N : Nat}, ls.paths.Nodup → ls'.paths.Nodup →
    ls.Canon → ls'.Canon → ls.span + ls'.span ≤ N →
    (∀ ρ, Agree N (ls.encode lua ρ) (ls'.encode lua ρ)) → ls = ls'
  | .done m, .done m', N, _, _, _, _, hspan, hagree => by
      simp only [Leaves.span] at hspan
      have h := (hagree (fun _ => .nil) (List.replicate m 0) (by simp; omega)).mp
        (by rw [Leaves.encode])
      rw [Leaves.encode, Option.some.injEq] at h
      have hlen := congrArg List.length h
      simp only [List.length_replicate] at hlen
      rw [hlen]
  | .done m, .cons m' p' leaf' rest', N, _, hnodup', _, hcanon', hspan, hagree => by
      obtain ⟨m2, p2, leaf2, rest2, heq, -⟩ := Leaves.first_of_agree lua hnodup' hcanon'.1
        (by omega) fun ρ => (hagree ρ).symm
      cases heq
  | .cons m p leaf rest, ls', N, hnodup, hnodup', hcanon, hcanon', hspan, hagree => by
      obtain ⟨m', p', leaf', rest', rfl, hle, hpath⟩ :=
        Leaves.first_of_agree lua hnodup hcanon.1 (by omega) hagree
      obtain ⟨m2, p2, leaf2, rest2, heq, hle', -⟩ :=
        Leaves.first_of_agree lua hnodup' hcanon'.1 (by omega) fun ρ => (hagree ρ).symm
      cases heq
      have hm : m = m' := Nat.le_antisymm hle' hle
      subst hm
      have hp := hpath rfl
      subst hp
      obtain ⟨M, hM, hleaf⟩ := Leaves.leaf_of_agree lua hnodup hnodup' hspan hagree
      have hl : leaf = leaf' := Leaf.eq_of_agree leaf leaf' hcanon.1 hcanon'.1 hM hleaf
      subst hl
      obtain ⟨hpr, hnr⟩ := List.nodup_cons.mp hnodup
      obtain ⟨hpr', hnr'⟩ := List.nodup_cons.mp hnodup'
      obtain ⟨M', hM', hrest⟩ := Leaves.rest_of_agree lua hpr hpr' hspan hagree
      rw [Leaves.eq_of_agree rest rest' hnr hnr' hcanon.2 hcanon'.2 hM' hrest]

end

end Donkeyji.Mydb
