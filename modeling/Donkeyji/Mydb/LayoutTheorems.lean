/-
Donkeyji.Mydb.LayoutTheorems — a type tree and its layout have one wire format.

`ArgTree.encode_layout` and `ArgTree.decode_layout`: a value has the same
bytes under a type tree and under its layout, and bytes decode to the same
value. Both are inductions on the tree that rest on one lemma about putting
a field before other fields (`encode_entry`, `decode_entry`), which serves
the fields of a table and the elements of an array of fixed size.

An encoder of the tree also fails where the buffer is too small.
`Enc.Writes f b` says that `f` writes `b` wherever there is room for it.
-/
import Donkeyji.Mydb.Layout
import Donkeyji.Mydb.RoundTripTheorems

namespace Donkeyji.Mydb

open Memory

/-! ## Byte strings that may be missing -/

theorem cat_eq_some {x y : Option (List UInt8)} {b : List UInt8} :
    cat x y = some b ↔ ∃ b1 b2, x = some b1 ∧ y = some b2 ∧ b = b1 ++ b2 := by
  unfold cat
  constructor
  · intro h
    obtain ⟨b1, hx, h⟩ := Option.bind_eq_some_iff.mp h
    obtain ⟨b2, hy, rfl⟩ := Option.map_eq_some_iff.mp h
    exact ⟨b1, b2, hx, hy, rfl⟩
  · rintro ⟨b1, b2, rfl, rfl, rfl⟩
    rfl

@[simp] theorem cat_none_left (y : Option (List UInt8)) : cat none y = none := rfl

@[simp] theorem cat_none_right (x : Option (List UInt8)) : cat x none = none := by
  cases x <;> rfl

@[simp] theorem cat_nil_left (y : Option (List UInt8)) : cat (some []) y = y := by
  cases y <;> rfl

@[simp] theorem cat_nil_right (x : Option (List UInt8)) : cat x (some []) = x := by
  cases x <;> simp [cat]

@[simp] theorem cat_some_some (a b : List UInt8) : cat (some a) (some b) = some (a ++ b) := rfl

theorem cat_assoc (x y z : Option (List UInt8)) : cat (cat x y) z = cat x (cat y z) := by
  cases x <;> cases y <;> cases z <;> simp

/-! ## Encoding the parts of a layout -/

variable (lua : Lua)

theorem Leaves.encode_pad (m : Nat) (l : Leaves) (ρ : Path → LuaValue) :
    (l.pad m).encode lua ρ = cat (some (List.replicate m 0)) (l.encode lua ρ) := by
  cases l with
  | done n => simp only [pad, encode, List.replicate_add, cat_some_some]
  | cons n path leaf rest =>
    simp only [pad, encode, List.replicate_add]
    rw [← cat_some_some, cat_assoc]

theorem Leaves.encode_append : ∀ (a b : Leaves) (ρ : Path → LuaValue),
    (a.append b).encode lua ρ = cat (a.encode lua ρ) (b.encode lua ρ)
  | .done m, b, ρ => by rw [append, encode_pad, encode]
  | .cons m path leaf rest, b, ρ => by
      simp only [append, encode, encode_append rest b ρ, cat_assoc]

theorem Leaves.encode_under (key : LuaKey) : ∀ (l : Leaves) (ρ : Path → LuaValue),
    (l.under key).encode lua ρ = l.encode lua fun path => ρ (key :: path)
  | .done m, ρ => by simp only [under, encode]
  | .cons m path leaf rest, ρ => by simp only [under, encode, encode_under key rest ρ]

/-- A field's skeleton and those of other fields hold together exactly if each does. -/
theorem ok_entry {key : LuaKey} {skel : Skel} {sub : LuaKey → Skel} (hfree : sub key = .free)
    (get : LuaKey → LuaValue) :
    (Skel.tab (Function.update sub key skel)).Ok (.table get) ↔
      skel.Ok (get key) ∧ (Skel.tab sub).Ok (.table get) := by
  simp only [Skel.Ok, LuaValue.table.injEq, exists_eq_left']
  constructor
  · intro h
    refine ⟨by simpa using h key, fun k => ?_⟩
    by_cases hk : k = key
    · rw [hk, hfree]
      trivial
    · simpa [hk] using h k
  · intro h k
    by_cases hk : k = key
    · rw [hk, Function.update_self]
      exact h.1
    · rw [Function.update_of_ne hk]
      exact h.2 k

/-- A table's bytes are those of its first field and those of the others. -/
theorem Fields.encode_entry {key : LuaKey} {t : Fields} (hfree : t.1 key = .free) (l : Layout)
    (get : LuaKey → LuaValue) :
    (entry key l t).table.encode lua (.table get) =
      cat (l.encode lua (get key)) (t.table.encode lua (.table get)) := by
  obtain ⟨skel, leaves⟩ := l
  have hleaves : (entry key (.mk skel leaves) t).2.encode lua (LuaValue.table get).atPath =
      cat (leaves.encode lua (get key).atPath) (t.2.encode lua (LuaValue.table get).atPath) := by
    rw [entry, Leaves.encode_append, Leaves.encode_under]
    rfl
  have hok : (entry key (.mk skel leaves) t).table.skel.Ok (.table get) ↔
      skel.Ok (get key) ∧ (Skel.tab t.1).Ok (.table get) := ok_entry hfree get
  simp only [table, Layout.skel] at hok
  simp only [table, Layout.encode, hleaves]
  by_cases h1 : skel.Ok (get key)
  · by_cases h2 : (Skel.tab t.1).Ok (.table get)
    · rw [if_pos (hok.mpr ⟨h1, h2⟩), if_pos h1, if_pos h2]
    · rw [if_neg fun h => h2 (hok.mp h).2, if_neg h2, cat_none_right]
  · rw [if_neg fun h => h1 (hok.mp h).1, if_neg h1, cat_none_left]

/-- A table with no fields takes no bytes. -/
theorem Fields.encode_none (get : LuaKey → LuaValue) :
    Fields.none.table.encode lua (.table get) = some [] := by
  simp [none, table, Layout.encode, Skel.Ok, Leaves.encode]

/-! ## Encoders and the bytes they write -/

/-- Wherever a buffer of `n` bytes has room for `b`, and only there, `f` writes it. -/
def Enc.Writes (f : Int → Enc) (b : Option (List UInt8)) : Prop :=
  ∀ n, 0 ≤ n → n < 2147483648 → ∀ out, f n = .ok out ↔ b = some out ∧ (out.length : Int) ≤ n

namespace Enc

/-- An encoder that always fails writes nothing. -/
theorem writes_error {f : Int → Enc} (hf : ∀ n, ∃ e, f n = .error e) : Writes f none := by
  intro n hn hn' out
  obtain ⟨e, he⟩ := hf n
  simp [he]

/-- The empty byte string fits everywhere. -/
theorem writes_nil : Writes (fun _ => .ok []) (some []) := by
  intro n hn hn' out
  constructor
  · rintro ⟨⟩
    exact ⟨rfl, hn⟩
  · rintro ⟨⟨⟩, -⟩
    rfl

/-- Two encoders in sequence write their byte strings one after the other. -/
theorem writes_seq {f g : Int → Enc} {b c : Option (List UInt8)} (hf : Writes f b)
    (hg : Writes g c) : Writes (seq f g) (cat b c) := by
  intro n hn hn' out
  constructor
  · intro h
    obtain ⟨b1, b2, h1, h2, rfl⟩ := seq_ok h
    obtain ⟨rfl, hlen1⟩ := (hf n hn hn' b1).mp h1
    obtain ⟨rfl, hlen2⟩ := (hg _ (by omega) (by omega) b2).mp h2
    refine ⟨rfl, ?_⟩
    rw [List.length_append]
    push_cast
    omega
  · rintro ⟨h, hlen⟩
    obtain ⟨b1, b2, rfl, rfl, rfl⟩ := cat_eq_some.mp h
    rw [List.length_append] at hlen
    push_cast at hlen
    have h1 : f n = .ok b1 := (hf n hn hn' b1).mpr ⟨rfl, by omega⟩
    have h2 : g (n - b1.length) = .ok b2 :=
      (hg _ (by omega) (by omega) b2).mpr ⟨rfl, by omega⟩
    rw [seq, h1]
    simp only [h2]

/-- An element that must not be empty. -/
theorem writes_nonempty {f : Int → Enc} {b : Option (List UInt8)} (hf : Writes f b) :
    Writes (fun n => (f n).nonempty) (b.filter fun out => !out.isEmpty) := by
  intro n hn hn' out
  have hiff : (f n).nonempty = .ok out ↔ f n = .ok out ∧ out ≠ [] := by
    match hfn : f n with
    | .error _ => simp [nonempty]
    | .ok [] =>
      simp only [nonempty, reduceCtorEq, Except.ok.injEq, false_iff]
      rintro ⟨h, hne⟩
      exact hne h.symm
    | .ok (x :: xs) =>
      simp only [nonempty, Except.ok.injEq]
      constructor
      · rintro rfl
        exact ⟨rfl, by simp⟩
      · exact And.left
  rw [hiff, hf n hn hn' out, Option.filter_eq_some_iff]
  simp only [Bool.not_eq_true', List.isEmpty_eq_false_iff]
  tauto

end Enc

/-! ## Encoding basic types -/

/-- A basic packer writes what it emits, where that fits. -/
theorem ofPackOut_emit_iff {bufLen usedLen : Int} {bytes out : List UInt8} (hused : usedLen ≠ 0) :
    Enc.ofPackOut (emit bufLen usedLen bytes ()) = .ok out ↔
      bytes = out ∧ (out.length : Int) ≤ bufLen := by
  constructor
  · intro h
    obtain ⟨rfl, hlen⟩ := ofPackOut_emit h
    exact ⟨rfl, hlen⟩
  · rintro ⟨rfl, hlen⟩
    rw [emit, if_pos hlen, Enc.ofPackOut, if_neg hused]

/-- A packer that reports 0 wrote nothing of use. -/
theorem ofPackOut_zero {out bytes : List UInt8} :
    ¬ Enc.ofPackOut (.ret 0 bytes ()) = .ok out := by
  simp [Enc.ofPackOut]

/-- A basic packer that writes `bytes` if they fit the buffer. -/
theorem writes_emit {usedLen : Int} {bytes : List UInt8} (hused : usedLen = bytes.length)
    (hne : bytes ≠ []) :
    Enc.Writes (fun n => Enc.ofPackOut
      (if usedLen > n then .ret 0 [] () else emit n usedLen bytes ())) (some bytes) := by
  intro n hn hn' out
  have hpos : 0 < bytes.length := List.length_pos_iff.mpr hne
  by_cases h : usedLen > n
  · simp only [if_pos h, ofPackOut_zero, false_iff, Option.some.injEq, not_and]
    rintro rfl
    omega
  · simp only [if_neg h, ofPackOut_emit_iff (show usedLen ≠ 0 by omega), Option.some.injEq]

theorem writes_number (v : LuaValue) :
    Enc.Writes (fun n => Enc.ofPackOut (numberPack lua () v n)) (Prim.number.encode lua v) := by
  unfold numberPack Prim.encode
  cases lua.checkInt v with
  | none => exact Enc.writes_error fun n => ⟨.raise, rfl⟩
  | some num =>
    simp only [Option.map_some]
    refine writes_emit ?_ (by simp [leBytes])
    simp [length_leBytes]

theorem writes_fixed (width : Nat) (hw : 0 < width) (v : LuaValue) :
    Enc.Writes (fun n => Enc.ofPackOut (fixedPack width lua () v n))
      ((lua.checkInt v).map fun num => leBytes width (num % 4294967296).toNat) := by
  unfold fixedPack
  cases lua.checkInt v with
  | none => exact Enc.writes_error fun n => ⟨.raise, rfl⟩
  | some num =>
    refine writes_emit (by simp [length_leBytes]) ?_
    exact List.ne_nil_of_length_pos (by rw [length_leBytes]; exact hw)

/-- A string too long for an `int` fits no buffer. -/
theorem not_emit_of_long {usedLen bufLen : Int} {pre data out : List UInt8}
    (hlong : 2147483647 ≤ data.length) (hpre : 0 < pre.length) (hbuf : bufLen < 2147483648) :
    ¬ Enc.ofPackOut (emit bufLen usedLen (pre ++ data) ()) = .ok out := by
  intro h
  have hlen := (ofPackOut_emit h).2
  rw [List.length_append] at hlen
  push_cast at hlen
  omega

theorem writes_string (v : LuaValue) :
    Enc.Writes (fun n => Enc.ofPackOut (stringPack lua () v n)) (Prim.string.encode lua v) := by
  unfold stringPack Prim.encode
  cases lua.checklstring v with
  | none => exact Enc.writes_error fun n => ⟨.raise, rfl⟩
  | some data =>
    simp only [Option.bind_some]
    by_cases hlong : 2147483647 ≤ data.length
    · rw [if_neg (by omega), if_neg (by omega)]
      intro n hn hn' out
      simp only [reduceCtorEq, false_and, iff_false]
      split
      · split
        · exact ofPackOut_zero
        · exact not_emit_of_long hlong (by simp [leBytes]) hn'
      · split
        · split
          · exact ofPackOut_zero
          · exact not_emit_of_long hlong (by simp) hn'
        · simp [Enc.ofPackOut]
    · have hid : wrap32 (wrap32 data.length + 1) = data.length + 1 := wrap32_succ (by omega)
      have hnat : (((data.length : Int) + 1) % 4294967296).toNat = data.length + 1 := by omega
      rw [hid, hnat]
      by_cases hshort : data.length + 1 ≤ 255
      · have hshort' : (data.length : Int) + 1 ≤ 255 := by omega
        simp only [if_pos hshort, if_pos hshort']
        refine writes_emit ?_ (by simp [leBytes])
        rw [wrap32_of_bounds (by omega) (by omega)]
        simp [leBytes]
      · have hshort' : ¬ (data.length : Int) + 1 ≤ 255 := by omega
        simp only [if_neg hshort, if_neg hshort']
        by_cases hfits : data.length + 1 ≤ 65535
        · have hfits' : (data.length : Int) + 1 ≤ 65535 := by omega
          simp only [if_pos hfits, if_pos hfits']
          refine writes_emit ?_ (by simp)
          rw [wrap32_of_bounds (by omega) (by omega)]
          simp [leBytes]
          omega
        · have hfits' : ¬ (data.length : Int) + 1 ≤ 65535 := by omega
          simp only [if_neg hfits, if_neg hfits']
          exact Enc.writes_error fun n => ⟨.raise, rfl⟩

/-! ## The keys of fields -/

theorem Fields.entry_fst (key : LuaKey) (l : Layout) (t : Fields) :
    (entry key l t).1 = Function.update t.1 key l.skel := rfl

theorem Fields.entry_snd (key : LuaKey) (l : Layout) (t : Fields) :
    (entry key l t).2 = (l.leaves.under key).append t.2 := rfl

/-- A field that a table does not have is free in its layout. -/
theorem FieldTree.layout_free {key : LuaKey} : ∀ {fs : FieldTree} {t : Fields},
    fs.layout = some t → key ∉ fs.keys → t.1 key = .free
  | .nil, t, h, _ => by
      cases h
      rfl
  | .leaf k a rest, t, h, hkey => by
      obtain ⟨hne, hrest⟩ := List.ne_and_not_mem_of_not_mem_cons hkey
      obtain ⟨l, -, h⟩ := Option.bind_eq_some_iff.mp h
      obtain ⟨t', ht', rfl⟩ := Option.map_eq_some_iff.mp h
      rw [Fields.entry_fst, Function.update_of_ne hne]
      exact layout_free ht' hrest
  | .sub k fs rest, t, h, hkey => by
      obtain ⟨hne, hrest⟩ := List.ne_and_not_mem_of_not_mem_cons hkey
      obtain ⟨l, -, h⟩ := Option.bind_eq_some_iff.mp h
      obtain ⟨t', ht', rfl⟩ := Option.map_eq_some_iff.mp h
      rw [Fields.entry_fst, Function.update_of_ne hne]
      exact layout_free ht' hrest

/-- The elements from index `i` on leave the indices before it free. -/
theorem indexFields_free (base : Layout) : ∀ (todo i j : Nat), j < i →
    (indexFields base todo i).1 (.index j) = .free
  | 0, i, j, _ => rfl
  | todo + 1, i, j, hj => by
      have hne : LuaKey.index j ≠ LuaKey.index i := fun h =>
        absurd (LuaKey.index_injective h) (by omega)
      rw [indexFields, Fields.entry_fst, Function.update_of_ne hne]
      exact indexFields_free base todo (i + 1) j (by omega)

/-! ## How many bytes a layout takes -/

/-- A value of a basic type takes at least one byte. -/
theorem Prim.encode_ne_nil (p : Prim) (v : LuaValue) : p.encode lua v ≠ some [] := by
  cases p with
  | number | byte | word | dword =>
    simp only [Prim.encode]
    cases lua.checkInt v <;> simp [leBytes]
  | string =>
    simp only [Prim.encode]
    cases lua.checklstring v with
    | none => simp
    | some data =>
      simp only [Option.bind_some]
      split
      · simp [leBytes]
      · split <;> simp

/-- A leaf takes at least one byte. -/
theorem Leaf.encode_ne_nil (leaf : Leaf) (v : LuaValue) : leaf.encode lua v ≠ some [] := by
  cases leaf with
  | prim p =>
    rw [Leaf.encode]
    exact p.encode_ne_nil lua v
  | arr base =>
    cases v with
    | table get =>
      simp only [Leaf.encode]
      split
      · exact nofun
      · intro h
        obtain ⟨b1, b2, h1, -, h2⟩ := cat_eq_some.mp h
        cases h1
        simp [leBytes] at h2
    | _ => simp [Leaf.encode]

/-- Leaves that are not void take at least one byte. -/
theorem Leaves.encode_ne_nil {l : Leaves} (h : l ≠ .done 0) (ρ : Path → LuaValue) :
    l.encode lua ρ ≠ some [] := by
  cases l with
  | done m =>
    rw [Leaves.encode]
    intro hnil
    have hm : m = 0 := by simpa using hnil
    exact h (by rw [hm])
  | cons m path leaf rest =>
    rw [Leaves.encode]
    intro hnil
    obtain ⟨b1, b2, -, h2, happ⟩ := cat_eq_some.mp hnil
    obtain ⟨b3, b4, h3, -, rfl⟩ := cat_eq_some.mp h2
    have hb3 : b3 = [] := by simp_all
    exact leaf.encode_ne_nil lua _ (by rw [h3, hb3])

theorem Layout.void_iff {l : Layout} : l.void = true ↔ l.leaves = .done 0 := by
  unfold void
  split
  · rename_i h
    simp [h]
  · rename_i h
    simpa using h

/-- The bytes of an element or a field: those of the layout, if it takes any. -/
theorem encode_filter (l : Option Layout) (v : LuaValue) :
    (l.bind fun l => l.encode lua v).filter (fun out => !out.isEmpty) =
      (l.filter fun l => !l.void).bind fun l => l.encode lua v := by
  cases l with
  | none => rfl
  | some l =>
    obtain ⟨skel, leaves⟩ := l
    simp only [Option.bind_some, Layout.encode]
    by_cases hvoid : (Layout.mk skel leaves).void = true
    · have hdone : leaves = .done 0 := Layout.void_iff.mp hvoid
      rw [Option.filter_some_neg (by simp [hvoid])]
      subst hdone
      split <;> simp [Leaves.encode, Option.filter]
    · have hdone : leaves ≠ .done 0 := fun h => hvoid (Layout.void_iff.mpr h)
      rw [Option.filter_some_pos (by simp [hvoid]), Option.bind_some, Layout.encode]
      split
      · cases hb : leaves.encode lua v.atPath with
        | none => rfl
        | some b =>
          rw [Option.filter_some_pos]
          have hne := Leaves.encode_ne_nil lua hdone v.atPath
          rw [hb] at hne
          simpa using hne
      · rfl

/-! ## A tree and its layout encode alike -/

/-- The elements of an array are written one after the other. -/
theorem writes_elements {base : LuaValue → Int → Enc} {enc : LuaValue → Option (List UInt8)}
    (hbase : ∀ v, Enc.Writes (fun n => (base v n).nonempty) (enc v)) (get : LuaKey → LuaValue) :
    ∀ todo i, Enc.Writes (arrayEncode base get todo i) (elements enc get todo i)
  | 0, _ => Enc.writes_nil
  | todo + 1, i => Enc.writes_seq (hbase _) (writes_elements hbase get todo (i + 1))

/-- The elements of an array of fixed size are the fields of a table. -/
theorem elements_indexFields (l : Layout) (get : LuaKey → LuaValue) : ∀ todo i,
    elements (l.encode lua) get todo i =
      (indexFields l todo i).table.encode lua (.table get)
  | 0, i => (Fields.encode_none lua get).symm
  | todo + 1, i => by
      rw [elements, indexFields,
        Fields.encode_entry lua (indexFields_free l todo (i + 1) i (by omega)),
        elements_indexFields l get todo (i + 1)]

/-- No element can be written if none has a layout. -/
theorem elements_none (get : LuaKey → LuaValue) (todo i : Nat) :
    elements (fun _ => none) get todo i = if todo = 0 then some [] else none := by
  cases todo <;> simp [elements]

/-- The length byte of an array, where there is room for it. -/
theorem writes_length (b : List UInt8) (hb : b.length = 1) :
    Enc.Writes (fun n => if 1 > n then .error (.zero []) else .ok b) (some b) := by
  intro n hn hn' out
  by_cases h : 1 > n
  · simp only [if_pos h, reduceCtorEq, Option.some.injEq, false_iff, not_and]
    rintro rfl
    omega
  · simp only [if_neg h, Except.ok.injEq, Option.some.injEq]
    constructor
    · rintro rfl
      exact ⟨rfl, by omega⟩
    · exact And.left

/-- Only tables are encoded as tables. -/
theorem table_encode_of_not {v : LuaValue} (hv : ∀ get, v ≠ .table get) (t : Fields) :
    t.table.encode lua v = none := by
  rw [Fields.table, Layout.encode, if_neg]
  rintro ⟨get, rfl, -⟩
  exact hv get rfl

/-- Only tables are encoded as arrays. -/
theorem arrayLayout_of_not {v : LuaValue} (hv : ∀ get, v ≠ .table get) (base : Option Layout)
    (size : Nat) : (arrayLayout base size).bind (fun l => l.encode lua v) = none := by
  unfold arrayLayout
  cases base.filter fun l => !l.void with
  | none =>
    by_cases hsize : size = 0
    · simp only [if_pos hsize, Option.bind_some, Layout.encode]
      rw [if_neg]
      rintro ⟨get, rfl, -⟩
      exact hv get rfl
    · simp [hsize]
  | some l =>
    by_cases hsize : size = 0
    · simp only [if_pos hsize, Option.bind_some, Leaf.layout, Layout.encode, Skel.Ok, if_true,
        Leaves.encode, LuaValue.atPath]
      cases v with
      | table get => exact absurd rfl (hv get)
      | _ => simp [Leaf.encode]
    · simp only [if_neg hsize, Option.bind_some]
      exact table_encode_of_not lua hv _

/-- An array of variable length encodes as its layout does, if the elements do. -/
theorem writes_varArray {b : ArgTree} {enc : LuaValue → Option (List UInt8)}
    (helem : ∀ w, Enc.Writes (fun n => (b.encode lua w n).nonempty) (enc w))
    (get : LuaKey → LuaValue) :
    Enc.Writes ((ArgTree.array b 0).encode lua (.table get))
      (if objlen get > 255 then none
        else cat (some (leBytes 1 (objlen get))) (elements enc get (objlen get) 1)) := by
  by_cases hlong : objlen get > 255
  · rw [if_pos hlong]
    exact Enc.writes_error fun n => ⟨.raise, by simp [ArgTree.encode, hlong]⟩
  · rw [if_neg hlong]
    have hw := Enc.writes_seq (writes_length (leBytes 1 (objlen get)) (length_leBytes 1 _))
      (writes_elements helem get (objlen get) 1)
    intro n hn hn' out
    rw [← hw n hn hn' out]
    by_cases hroom : 1 > n <;> simp [ArgTree.encode, hlong, hroom, Enc.seq]

/-- The array type encodes as its layout does, if the element type does. -/
theorem writes_array {b : ArgTree} (size : Nat)
    (hb : ∀ v, Enc.Writes (b.encode lua v) (b.layout.bind fun l => l.encode lua v))
    (v : LuaValue) :
    Enc.Writes ((ArgTree.array b size).encode lua v)
      ((arrayLayout b.layout size).bind fun l => l.encode lua v) := by
  have helem : ∀ w, Enc.Writes (fun n => (b.encode lua w n).nonempty)
      ((b.layout.filter fun l => !l.void).bind fun l => l.encode lua w) := by
    intro w
    rw [← encode_filter]
    exact Enc.writes_nonempty (hb w)
  by_cases hv : ∃ get, v = .table get
  · obtain ⟨get, rfl⟩ := hv
    unfold arrayLayout
    by_cases hsize : size = 0
    · subst hsize
      have hvar := writes_varArray lua helem get
      cases hl : b.layout.filter fun l => !l.void with
      | none =>
        simp only [hl, Option.bind_none, elements_none] at hvar
        convert hvar using 1
        by_cases hzero : objlen get = 0
        · simp [Layout.encode, Skel.Ok, Leaves.encode, hzero, leBytes]
        · simp [Layout.encode, Skel.Ok, hzero]
      | some l =>
        simp only [hl, Option.bind_some] at hvar
        convert hvar using 1
        simp [Leaf.layout, Layout.encode, Skel.Ok, Leaves.encode, Leaf.encode, LuaValue.atPath]
    · have hfix := writes_elements helem get size 1
      have henc : (ArgTree.array b size).encode lua (.table get) =
          arrayEncode (b.encode lua) get size 1 := by
        funext n
        simp only [ArgTree.encode, if_neg hsize]
      rw [henc]
      cases hl : b.layout.filter fun l => !l.void with
      | none => simpa only [hl, Option.bind_none, elements_none, if_neg hsize] using hfix
      | some l =>
        have heq := elements_indexFields lua l get size 1
        simp only [hl, Option.bind_some] at hfix
        simp only [if_neg hsize, Option.bind_some]
        rw [← heq]
        exact hfix
  · rw [not_exists] at hv
    rw [arrayLayout_of_not lua hv]
    refine Enc.writes_error fun n => ⟨.raise, ?_⟩
    cases v with
    | table get => exact absurd rfl (hv get)
    | _ => simp [ArgTree.encode]

/-- A layout of one leaf encodes as the leaf. -/
theorem Leaf.encode_layout (leaf : Leaf) (v : LuaValue) :
    leaf.layout.encode lua v = leaf.encode lua v := by
  simp [Leaf.layout, Layout.encode, Skel.Ok, Leaves.encode, LuaValue.atPath]

/-- A field that is a table of its own encodes as its layout does. -/
theorem writes_sub {key : LuaKey} {fs rest : FieldTree} {get : LuaKey → LuaValue}
    (hfs : ∀ sub, Enc.Writes (fs.encode lua sub)
      (fs.layout.bind fun t => t.table.encode lua (.table sub)))
    (hrest : Enc.Writes (rest.encode lua get)
      (rest.layout.bind fun t => t.table.encode lua (.table get))) :
    Enc.Writes ((FieldTree.sub key fs rest).encode lua get)
      (cat (fs.layout.bind fun t => t.table.encode lua (get key))
        (rest.layout.bind fun t => t.table.encode lua (.table get))) := by
  by_cases hv : ∃ sub, get key = .table sub
  · obtain ⟨sub, hsub⟩ := hv
    have henc : (FieldTree.sub key fs rest).encode lua get =
        Enc.seq (fs.encode lua sub) (rest.encode lua get) := by
      funext n
      simp only [FieldTree.encode, hsub]
    rw [henc, hsub]
    exact Enc.writes_seq (hfs sub) hrest
  · rw [not_exists] at hv
    have hnone : (fs.layout.bind fun t => t.table.encode lua (get key)) = none := by
      cases fs.layout with
      | none => rfl
      | some t => exact table_encode_of_not lua hv t
    rw [hnone, cat_none_left]
    refine Enc.writes_error fun n => ⟨.raise, ?_⟩
    simp only [FieldTree.encode]

/-- The bytes of a field and of the other fields are those of the table. -/
theorem cat_entry {key : LuaKey} {l : Option Layout} {r : Option Fields}
    (hfree : ∀ t, r = some t → t.1 key = .free) (get : LuaKey → LuaValue) :
    cat (l.bind fun l => l.encode lua (get key))
        (r.bind fun t => t.table.encode lua (.table get)) =
      (l.bind fun l => r.map (Fields.entry key l)).bind
        fun t => t.table.encode lua (.table get) := by
  cases l with
  | none => rfl
  | some l =>
    cases r with
    | none => simp
    | some t => exact (Fields.encode_entry lua (hfree t rfl) l get).symm

mutual

/-- **A type and its layout have the same encoder.** -/
theorem ArgTree.encode_layout : ∀ (d : ArgTree), d.WF → ∀ (v : LuaValue),
    Enc.Writes (d.encode lua v) (d.layout.bind fun l => l.encode lua v)
  | .number, _, v => by
      rw [ArgTree.layout, Option.bind_some, Leaf.encode_layout, Leaf.encode]
      exact writes_number lua v
  | .byte, _, v => by
      rw [ArgTree.layout, Option.bind_some, Leaf.encode_layout, Leaf.encode]
      exact writes_fixed lua 1 (by omega) v
  | .word, _, v => by
      rw [ArgTree.layout, Option.bind_some, Leaf.encode_layout, Leaf.encode]
      exact writes_fixed lua 2 (by omega) v
  | .dword, _, v => by
      rw [ArgTree.layout, Option.bind_some, Leaf.encode_layout, Leaf.encode]
      exact writes_fixed lua 4 (by omega) v
  | .string, _, v => by
      rw [ArgTree.layout, Option.bind_some, Leaf.encode_layout, Leaf.encode]
      exact writes_string lua v
  | .array b size, hwf, v => by
      rw [ArgTree.layout]
      exact writes_array lua size (ArgTree.encode_layout b hwf) v
  | .table _ _ fs, hwf, v => by
      rw [ArgTree.layout, Option.bind_map, Function.comp_def]
      by_cases hv : ∃ get, v = .table get
      · obtain ⟨get, rfl⟩ := hv
        exact FieldTree.encode_layout fs hwf get
      · rw [not_exists] at hv
        simp only [table_encode_of_not lua hv, Option.bind_fun_none]
        refine Enc.writes_error fun n => ⟨.raise, ?_⟩
        cases v with
        | table get => exact absurd rfl (hv get)
        | _ => simp [ArgTree.encode]

/-- The fields of a table encode as their layout does. -/
theorem FieldTree.encode_layout : ∀ (fs : FieldTree), fs.WF → ∀ (get : LuaKey → LuaValue),
    Enc.Writes (fs.encode lua get) (fs.layout.bind fun t => t.table.encode lua (.table get))
  | .nil, _, get => by
      rw [FieldTree.layout, Option.bind_some, Fields.encode_none]
      exact Enc.writes_nil
  | .leaf key a rest, ⟨hkey, ha, hrest⟩, get => by
      have hfirst := Enc.writes_nonempty (ArgTree.encode_layout a ha (get key))
      rw [encode_filter] at hfirst
      have hseq := Enc.writes_seq hfirst (FieldTree.encode_layout rest hrest get)
      rw [cat_entry lua fun t ht => FieldTree.layout_free ht hkey] at hseq
      rw [FieldTree.layout]
      exact hseq
  | .sub key fs rest, ⟨hkey, hfs, hrest⟩, get => by
      have hseq := @writes_sub lua key fs rest get (fun sub => FieldTree.encode_layout fs hfs sub)
        (FieldTree.encode_layout rest hrest get)
      have hfirst : (fs.layout.bind fun t => t.table.encode lua (get key)) =
          (fs.layout.map Fields.table).bind fun l => l.encode lua (get key) := by
        rw [Option.bind_map, Function.comp_def]
      rw [hfirst, cat_entry lua fun t ht => FieldTree.layout_free ht hkey] at hseq
      rw [FieldTree.layout]
      simpa only [Option.bind_map, Function.comp_def] using hseq

end

/-! ## Decoding the parts of a layout -/

theorem take_add_replicate (m n : Nat) (buf : List UInt8) :
    buf.take (m + n) = List.replicate (m + n) 0 ↔
      buf.take m = List.replicate m 0 ∧ (buf.drop m).take n = List.replicate n 0 := by
  constructor
  · intro h
    have hlen : m + n ≤ buf.length := by
      have := congrArg List.length h
      simp only [List.length_take, List.length_replicate] at this
      omega
    rw [List.take_add, List.replicate_add] at h
    exact List.append_inj h (by simp; omega)
  · rintro ⟨h1, h2⟩
    rw [List.take_add, h1, h2, List.replicate_add]

theorem Leaves.decode_pad (m : Nat) (l : Leaves) (buf : List UInt8) (v : LuaValue) :
    (l.pad m).decode buf v =
      if buf.take m = List.replicate m 0 then
        (l.decode (buf.drop m) v).map fun r => (r.1, m + r.2)
      else none := by
  cases l with
  | done n =>
    simp only [pad, decode, take_add_replicate]
    by_cases h1 : buf.take m = List.replicate m 0
    · by_cases h2 : (buf.drop m).take n = List.replicate n 0 <;> simp [h1, h2]
    · simp [h1]
  | cons n path leaf rest =>
    simp only [pad, decode, take_add_replicate]
    by_cases h1 : buf.take m = List.replicate m 0
    · by_cases h2 : (buf.drop m).take n = List.replicate n 0
      · simp only [h1, h2, and_self, if_true, List.drop_drop, Option.map_bind, Option.map_map,
          Function.comp_def, Nat.add_assoc]
      · simp [h1, h2]
    · simp [h1]

theorem Leaves.decode_append : ∀ (a b : Leaves) (buf : List UInt8) (v : LuaValue),
    (a.append b).decode buf v =
      (a.decode buf v).bind fun x =>
        (b.decode (buf.drop x.2) x.1).map fun r => (r.1, x.2 + r.2)
  | .done m, b, buf, v => by
      rw [append, decode_pad, decode]
      split <;> rfl
  | .cons m path leaf rest, b, buf, v => by
      simp only [append, decode]
      split
      · cases leaf.decode (buf.drop m) with
        | none => rfl
        | some x =>
          simp only [Option.bind_some, decode_append rest b, Option.map_bind, Option.map_map,
            Option.bind_map, Function.comp_def, List.drop_drop, Nat.add_assoc]
      · rfl

theorem Leaves.decode_under (key : LuaKey) : ∀ (l : Leaves) (buf : List UInt8)
    (get : LuaKey → LuaValue),
    (l.under key).decode buf (.table get) =
      (l.decode buf (get key)).map fun r => (.table (Function.update get key r.1), r.2)
  | .done m, buf, get => by
      simp only [under, decode]
      split
      · simp
      · rfl
  | .cons m path leaf rest, buf, get => by
      simp only [under, decode]
      split
      · cases leaf.decode (buf.drop m) with
        | none => rfl
        | some x =>
          simp only [Option.bind_some, LuaValue.insertAt, decode_under key rest, Option.map_map,
            Function.comp_def, Function.update_self, Function.update_idem]
      · rfl

/-- The fields that a table has at first: those of `t`, and tables and empty arrays
where the skeleton has them. -/
def overlay (t : LuaKey → LuaValue) (sub : LuaKey → Skel) (key : LuaKey) : LuaValue :=
  (sub key).build (t key) fun _ => .nil

/-- A table is decoded from its first field and the others. -/
theorem Fields.decode_entry {key : LuaKey} {f : Fields} (hfree : f.1 key = .free)
    {t : LuaKey → LuaValue} (ht : t key = .nil) (l : Layout) (buf : List UInt8) :
    (entry key l f).2.decode buf (.table (overlay t (entry key l f).1)) =
      (l.decode buf).bind fun x =>
        (f.2.decode (buf.drop x.2) (.table (overlay (Function.update t key x.1) f.1))).map
          fun r => (r.1, x.2 + r.2) := by
  obtain ⟨skel, leaves⟩ := l
  have hstart : overlay t (entry key (.mk skel leaves) f).1 key =
      skel.build .nil fun _ => .nil := by
    rw [overlay, entry_fst, Function.update_self, ht]
    rfl
  have hput : ∀ x, Function.update (overlay t (entry key (.mk skel leaves) f).1) key x =
      overlay (Function.update t key x) f.1 := by
    intro x
    funext k
    by_cases hk : k = key
    · subst hk
      simp [overlay, hfree, Skel.build]
    · simp [overlay, entry_fst, hk]
  rw [entry_snd, Leaves.decode_append, Layout.leaves, Leaves.decode_under, hstart, Layout.decode,
    Option.bind_map]
  simp only [Function.comp_def, hput]

/-! ## How many bytes a decoder takes -/

/-- An element or a field must take at least one byte. -/
def Dec.nonempty {α : Type} (d : Dec α) : Dec α := d.filter fun x => decide (0 < x.2)

/-- A leaf takes at least one byte. -/
theorem Leaf.decode_pos {leaf : Leaf} {buf : List UInt8} {x : LuaValue × Nat}
    (h : leaf.decode buf = some x) : 0 < x.2 := by
  cases leaf with
  | prim p =>
    have hunpack : ∀ r, Dec.ofUnpack r = some x → 0 < x.2 := by
      intro r hr
      unfold Dec.ofUnpack at hr
      split at hr
      · cases hr
        exact Nat.succ_pos _
      · cases hr
    cases p <;> exact hunpack _ h
  | arr base =>
    cases buf with
    | nil => cases h
    | cons n buf =>
      obtain ⟨r, -, rfl⟩ := Option.map_eq_some_iff.mp h
      exact Nat.lt_of_lt_of_le Nat.one_pos (Nat.le_add_right 1 r.2)

/-- Leaves that are not void take at least one byte. -/
theorem Leaves.decode_pos {l : Leaves} (hl : l ≠ .done 0) {buf : List UInt8} {v : LuaValue}
    {x : LuaValue × Nat} (h : l.decode buf v = some x) : 0 < x.2 := by
  cases l with
  | done m =>
    rw [decode] at h
    split at h
    · cases h
      exact Nat.pos_of_ne_zero fun (hm : m = 0) => hl (by rw [hm])
    · cases h
  | cons m path leaf rest =>
    rw [decode] at h
    split at h
    · obtain ⟨y, hy, h⟩ := Option.bind_eq_some_iff.mp h
      obtain ⟨r, -, rfl⟩ := Option.map_eq_some_iff.mp h
      have := Leaf.decode_pos hy
      show 0 < m + y.2 + r.2
      omega
    · cases h

/-- A layout that is not void takes at least one byte. -/
theorem Layout.decode_nonempty {l : Layout} (h : l.void = false) (buf : List UInt8) :
    (l.decode buf).nonempty = l.decode buf := by
  obtain ⟨skel, leaves⟩ := l
  have hdone : leaves ≠ .done 0 := by
    intro hdone
    have hvoid : (Layout.mk skel leaves).void = true := Layout.void_iff.mpr hdone
    rw [hvoid] at h
    cases h
  cases hd : (Layout.mk skel leaves).decode buf with
  | none => rfl
  | some x =>
    rw [decode] at hd
    rw [Dec.nonempty, Option.filter_some_pos]
    simpa using Leaves.decode_pos hdone hd

/-- A field or an element is decoded as its layout says, if that takes any bytes. -/
theorem decode_filter (l : Option Layout) (buf : List UInt8) :
    Dec.nonempty (l.bind fun l => l.decode buf) =
      (l.filter fun l => !l.void).bind fun l => l.decode buf := by
  cases l with
  | none => rfl
  | some l =>
    cases hvoid : l.void with
    | true =>
      rw [Option.filter_some_neg (by simp [hvoid])]
      obtain ⟨skel, leaves⟩ := l
      have hdone : leaves = .done 0 := Layout.void_iff.mp hvoid
      subst hdone
      simp [Layout.decode, Leaves.decode, Dec.nonempty, Option.filter]
    | false =>
      rw [Option.filter_some_pos (by simp [hvoid])]
      exact Layout.decode_nonempty hvoid buf

/-! ## A tree and its layout decode alike -/

/-- A layout of one leaf decodes as the leaf. -/
theorem Leaf.decode_layout (leaf : Leaf) (buf : List UInt8) :
    leaf.layout.decode buf = leaf.decode buf := by
  cases h : leaf.decode buf <;>
    simp [Leaf.layout, Layout.decode, Leaves.decode, LuaValue.insertAt, h]

theorem arrayDecode_succ (base : List UInt8 → Dec LuaValue) (todo i : Nat) (buf : List UInt8)
    (t : LuaKey → LuaValue) :
    arrayDecode base (todo + 1) i buf t =
      (base buf).nonempty.bind fun x =>
        (arrayDecode base todo (i + 1) (buf.drop x.2) (Function.update t (.index i) x.1)).map
          fun r => (r.1, x.2 + r.2) := by
  rw [arrayDecode]
  cases base buf with
  | none => rfl
  | some x =>
    obtain ⟨v, n⟩ := x
    cases n <;> rfl

/-- Only elements that take a byte matter to an array. -/
theorem arrayDecode_congr {base base' : List UInt8 → Dec LuaValue}
    (h : ∀ buf, (base buf).nonempty = (base' buf).nonempty) : ∀ todo i buf t,
    arrayDecode base todo i buf t = arrayDecode base' todo i buf t
  | 0, i, buf, t => rfl
  | todo + 1, i, buf, t => by
      simp only [arrayDecode_succ, h, arrayDecode_congr h todo]

/-- The elements of an array of fixed size are the fields of a table. -/
theorem arrayDecode_indexFields {base : List UInt8 → Dec LuaValue} {l : Layout}
    (hbase : ∀ buf, (base buf).nonempty = l.decode buf) : ∀ (todo i : Nat) (buf : List UInt8)
    (t : LuaKey → LuaValue), (∀ j, i ≤ j → t (.index j) = .nil) →
    (arrayDecode base todo i buf t).map (fun r => (.table r.1, r.2)) =
      (indexFields l todo i).2.decode buf (.table (overlay t (indexFields l todo i).1))
  | 0, i, buf, t, _ => rfl
  | todo + 1, i, buf, t, ht => by
      have hrest : ∀ v j, i + 1 ≤ j → Function.update t (.index i) v (.index j) = .nil := by
        intro v j hj
        have hne : LuaKey.index j ≠ LuaKey.index i := fun h =>
          absurd (LuaKey.index_injective h) (by omega)
        rw [Function.update_of_ne hne]
        exact ht j (by omega)
      rw [arrayDecode_succ, indexFields,
        Fields.decode_entry (indexFields_free l todo (i + 1) i (by omega)) (ht i le_rfl), hbase,
        Option.map_bind]
      refine Option.bind_congr fun x hx => ?_
      rw [← arrayDecode_indexFields hbase todo (i + 1) _ _ (hrest x.1), Function.comp_apply,
        Option.map_map, Option.map_map]
      rfl

/-- No element can be decoded if none has a layout. -/
theorem arrayDecode_none {base : List UInt8 → Dec LuaValue}
    (hbase : ∀ buf, (base buf).nonempty = none) (todo i : Nat) (buf : List UInt8)
    (t : LuaKey → LuaValue) :
    arrayDecode base todo i buf t = if todo = 0 then some (t, 0) else none := by
  cases todo with
  | zero => rfl
  | succ todo => simp [arrayDecode_succ, hbase]

/-- The array type decodes as its layout does, if the element type does. -/
theorem decode_array {b : ArgTree} (size : Nat)
    (hb : ∀ buf, b.decode buf = b.layout.bind fun l => l.decode buf) (buf : List UInt8) :
    (ArgTree.array b size).decode buf =
      (arrayLayout b.layout size).bind fun l => l.decode buf := by
  have helem : ∀ buf, (b.decode buf).nonempty =
      (b.layout.filter fun l => !l.void).bind fun l => l.decode buf := by
    intro buf
    rw [hb, decode_filter]
  unfold arrayLayout
  cases hl : b.layout.filter fun l => !l.void with
  | none =>
    simp only [hl, Option.bind_none] at helem
    by_cases hsize : size = 0
    · simp only [if_pos hsize, Option.bind_some, ArgTree.decode]
      cases buf with
      | nil => rfl
      | cons n buf =>
        simp only [arrayDecode_none helem]
        by_cases hn : n = 0
        · simp [hn, Layout.decode, Leaves.decode, Skel.build, LuaValue.newtable]
        · have hn' : n.toNat ≠ 0 := fun h => hn (UInt8.toNat_inj.mp h)
          simp [hn, hn', Layout.decode, Leaves.decode]
    · simp only [if_neg hsize, Option.bind_none, ArgTree.decode, arrayDecode_none helem,
        Option.map_none]
  | some l =>
    have hvoid : l.void = false := by
      have := (Option.filter_eq_some_iff.mp hl).2
      simpa using this
    simp only [hl, Option.bind_some] at helem
    by_cases hsize : size = 0
    · simp only [if_pos hsize, Option.bind_some, Leaf.decode_layout, Leaf.decode, ArgTree.decode]
      cases buf with
      | nil => rfl
      | cons n buf =>
        have hcongr := @arrayDecode_congr b.decode l.decode fun buf => by
          rw [helem, Layout.decode_nonempty hvoid]
        simp only [hcongr]
    · simp only [if_neg hsize, Option.bind_some, ArgTree.decode]
      exact arrayDecode_indexFields helem size 1 buf _ fun _ _ => rfl

/-- Putting a field leaves the keys of the other fields empty. -/
theorem update_nil_of_keys {key : LuaKey} {rest : FieldTree} {t : LuaKey → LuaValue}
    {v : LuaValue} (hkey : key ∉ rest.keys) (ht : ∀ k ∈ key :: rest.keys, t k = .nil) :
    ∀ k ∈ rest.keys, Function.update t key v k = .nil := by
  intro k hk
  have hne : k ≠ key := fun h => hkey (h ▸ hk)
  rw [Function.update_of_ne hne]
  exact ht k (List.mem_cons_of_mem _ hk)

/-- A table of fields is decoded from the first field and the others. -/
theorem decode_fields {key : LuaKey} {rest : FieldTree} {t : LuaKey → LuaValue}
    (hfree : ∀ f, rest.layout = some f → f.1 key = .free) (ht : t key = .nil)
    (hrest : ∀ buf v, (rest.decode buf (Function.update t key v)).map
        (fun r => (LuaValue.table r.1, r.2)) =
      rest.layout.bind fun f => f.2.decode buf (.table (overlay (Function.update t key v) f.1)))
    (l : Option Layout) (buf : List UInt8) :
    ((l.bind fun l => l.decode buf).bind fun x =>
        (rest.decode (buf.drop x.2) (Function.update t key x.1)).map
          fun r => (LuaValue.table r.1, x.2 + r.2)) =
      (l.bind fun l => rest.layout.map (Fields.entry key l)).bind
        fun f => f.2.decode buf (.table (overlay t f.1)) := by
  have hshift : ∀ x : LuaValue × Nat,
      (rest.decode (buf.drop x.2) (Function.update t key x.1)).map
        (fun r => (LuaValue.table r.1, x.2 + r.2)) =
      (rest.layout.bind fun f => f.2.decode (buf.drop x.2)
        (.table (overlay (Function.update t key x.1) f.1))).map fun r => (r.1, x.2 + r.2) := by
    intro x
    rw [← hrest, Option.map_map]
    rfl
  simp only [hshift]
  cases l with
  | none => rfl
  | some l =>
    cases hr : rest.layout with
    | none => simp
    | some f => exact (Fields.decode_entry (hfree f hr) ht l buf).symm

mutual

/-- **A type and its layout have the same decoder.** -/
theorem ArgTree.decode_layout : ∀ (d : ArgTree), d.WF → ∀ (buf : List UInt8),
    d.decode buf = d.layout.bind fun l => l.decode buf
  | .number, _, buf => by
      rw [ArgTree.layout, Option.bind_some, Leaf.decode_layout, Leaf.decode, Prim.tree]
  | .byte, _, buf => by
      rw [ArgTree.layout, Option.bind_some, Leaf.decode_layout, Leaf.decode, Prim.tree]
  | .word, _, buf => by
      rw [ArgTree.layout, Option.bind_some, Leaf.decode_layout, Leaf.decode, Prim.tree]
  | .dword, _, buf => by
      rw [ArgTree.layout, Option.bind_some, Leaf.decode_layout, Leaf.decode, Prim.tree]
  | .string, _, buf => by
      rw [ArgTree.layout, Option.bind_some, Leaf.decode_layout, Leaf.decode, Prim.tree]
  | .array b size, hwf, buf => by
      rw [ArgTree.layout]
      exact decode_array size (ArgTree.decode_layout b hwf) buf
  | .table _ _ fs, hwf, buf => by
      rw [ArgTree.layout, Option.bind_map, ArgTree.decode,
        FieldTree.decode_layout fs hwf buf _ fun _ _ => rfl]
      rfl

/-- The fields of a table decode as their layout does. -/
theorem FieldTree.decode_layout : ∀ (fs : FieldTree), fs.WF → ∀ (buf : List UInt8)
    (t : LuaKey → LuaValue), (∀ key ∈ fs.keys, t key = .nil) →
    (fs.decode buf t).map (fun r => (LuaValue.table r.1, r.2)) =
      fs.layout.bind fun f => f.2.decode buf (.table (overlay t f.1))
  | .nil, _, buf, t, _ => rfl
  | .leaf key a rest, ⟨hkey, ha, hrest⟩, buf, t, ht => by
      have hdec : (FieldTree.leaf key a rest).decode buf t =
          (a.decode buf).nonempty.bind fun x =>
            (rest.decode (buf.drop x.2) (Function.update t key x.1)).map
              fun r => (r.1, x.2 + r.2) := by
        rw [FieldTree.decode]
        match a.decode buf with
        | none => rfl
        | some (_, 0) => rfl
        | some (_, _ + 1) => rfl
      have hih : ∀ buf v, (rest.decode buf (Function.update t key v)).map
          (fun r => (LuaValue.table r.1, r.2)) =
          rest.layout.bind fun f =>
            f.2.decode buf (.table (overlay (Function.update t key v) f.1)) := by
        intro buf v
        exact FieldTree.decode_layout rest hrest buf _ (update_nil_of_keys hkey ht)
      rw [hdec, ArgTree.decode_layout a ha, decode_filter, Option.map_bind, FieldTree.layout,
        ← decode_fields (fun f hf => FieldTree.layout_free hf hkey) (ht key List.mem_cons_self) hih]
      simp only [Function.comp_def, Option.map_map]
  | .sub key fs rest, ⟨hkey, hfs, hrest⟩, buf, t, ht => by
      have hdec : (FieldTree.sub key fs rest).decode buf t =
          ((fs.decode buf fun _ => .nil).map fun r => (LuaValue.table r.1, r.2)).bind fun x =>
            (rest.decode (buf.drop x.2) (Function.update t key x.1)).map
              fun r => (r.1, x.2 + r.2) := by
        rw [FieldTree.decode]
        cases fs.decode buf fun _ => .nil <;> rfl
      have hih : ∀ buf v, (rest.decode buf (Function.update t key v)).map
          (fun r => (LuaValue.table r.1, r.2)) =
          rest.layout.bind fun f =>
            f.2.decode buf (.table (overlay (Function.update t key v) f.1)) := by
        intro buf v
        exact FieldTree.decode_layout rest hrest buf _ (update_nil_of_keys hkey ht)
      have hsub : (fs.layout.bind fun f => f.2.decode buf (.table (overlay (fun _ => .nil) f.1))) =
          (fs.layout.map Fields.table).bind fun l => l.decode buf := by
        rw [Option.bind_map]
        rfl
      have hfields := decode_fields (fun f hf => FieldTree.layout_free hf hkey)
        (ht key List.mem_cons_self) hih (fs.layout.map Fields.table) buf
      rw [hdec, FieldTree.decode_layout fs hfs buf _ fun _ _ => rfl, hsub, Option.map_bind,
        FieldTree.layout]
      simpa only [Function.comp_def, Option.map_map, Option.bind_map] using hfields

end

end Donkeyji.Mydb
