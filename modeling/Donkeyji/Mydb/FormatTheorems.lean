/-
Donkeyji.Mydb.FormatTheorems — which format tables `_travel_table` takes and what its
opcodes do.

The member `_cur_table_deep` goes up at every table and never comes down, so after a table it
has counted all the tables of the tree so far (`travelEntries_deep`): the limit is one on the
number of tables, not on how deep they are nested.

The opcodes of a format that is taken are the code of its field tree (`Format.fields`), which
has the entries in the order of the traversal and the registered types at its leaves. What the
two loops do on the code of a field tree is `FieldTree.packLoop_code` and
`FieldTree.unpackLoop_code`.
-/
import Donkeyji.Mydb.StackTheorems

namespace Donkeyji.Mydb

/-! ## Depth and number of tables -/

namespace Format

/-- How deep the tables are nested: 1 for a table without tables in it. -/
def depth : Format → Nat
  | .nil => 1
  | .leaf _ _ rest => rest.depth
  | .sub _ f rest => max (f.depth + 1) rest.depth

/-- How many tables there are below this one. -/
def subTables : Format → Nat
  | .nil => 0
  | .leaf _ _ rest => rest.subTables
  | .sub _ f rest => f.subTables + 1 + rest.subTables

/-- How many tables the tree has. -/
def tables (f : Format) : Nat := f.subTables + 1

theorem depth_le_tables (f : Format) : f.depth ≤ f.tables := by
  unfold tables
  induction f with
  | nil => simp [depth, subTables]
  | leaf key val rest ih => exact ih
  | sub key f rest ihf ih =>
    simp only [depth, subTables]
    omega

end Format

/-- A number, or the name of a registered type. -/
def FormatLeaf.Legal (lua : Lua) (reg : Registry) : FormatLeaf → Prop
  | .number => True
  | .string s => lua.isNumeral s = true ∨ (reg.getArg (untilNul s)).isSome
  | .other => False

/-- Every key is a number or a string, every value legal or again such a table. -/
def Format.Legal (lua : Lua) (reg : Registry) : Format → Prop
  | .nil => True
  | .leaf key val rest => key ≠ .other ∧ val.Legal lua reg ∧ rest.Legal lua reg
  | .sub key f rest => key ≠ .other ∧ f.Legal lua reg ∧ rest.Legal lua reg

/-! ## The depth counter -/

section Legal

variable {lua : Lua} {reg : Registry}

theorem registered_number (h : Registered lua reg) : (reg.getArg (cstr "number")).isSome := by
  have hmem : FcallArg.number ∈ reg := by
    induction h with
    | init => simp [Registry.init]
    | addTable _ _ ih => exact List.mem_append_left _ ih
    | addArray _ _ _ ih => exact List.mem_append_left _ ih
  rw [Registry.getArg, List.find?_isSome]
  exact ⟨.number, hmem, by simp [FcallArg.type]⟩

theorem travelKey_legal (lua : Lua) {key : FormatKey} (h : key ≠ .other) :
    ∃ k keyHash, travelKey lua key = some (k, keyHash) := by
  match key with
  | .key (.number x) => exact ⟨_, _, rfl⟩
  | .key (.string s) => exact ⟨_, _, rfl⟩
  | .other => exact absurd rfl h

theorem travelLeaf_legal (hnum : (reg.getArg (cstr "number")).isSome) {val : FormatLeaf}
    (h : val.Legal lua reg) : ∃ a valHash, travelLeaf lua reg val = some (a, valHash) := by
  obtain ⟨num, hnum⟩ := Option.isSome_iff_exists.mp hnum
  match val with
  | .number => exact ⟨num, _, by rw [travelLeaf, hnum]; rfl⟩
  | .string s =>
    by_cases hs : lua.isNumeral s = true
    · exact ⟨num, _, by rw [travelLeaf, if_pos hs, hnum]; rfl⟩
    · obtain ⟨a, ha⟩ := Option.isSome_iff_exists.mp (h.resolve_left hs)
      exact ⟨a, _, by rw [travelLeaf, if_neg hs, ha]; rfl⟩
  | .other => exact absurd h id

/-- The loop over the entries adds every table below to the counter, and raises if that
passes the limit. -/
theorem travelEntries_deep (hnum : (reg.getArg (cstr "number")).isSome) (f : Format) (deep : Nat)
    (hdeep : deep ≤ maxTableDeep) (hlegal : f.Legal lua reg) :
    (travelEntries lua reg f deep).map Prod.fst =
      if deep + f.subTables ≤ maxTableDeep then some (deep + f.subTables) else none := by
  induction f generalizing deep with
  | nil => simp [travelEntries, Format.subTables, hdeep]
  | leaf key val rest ih =>
    obtain ⟨k, keyHash, hk⟩ := travelKey_legal lua hlegal.1
    obtain ⟨a, valHash, hv⟩ := travelLeaf_legal hnum hlegal.2.1
    rw [Format.subTables, ← ih deep hdeep hlegal.2.2]
    simp only [travelEntries, hk, hv, Option.bind_eq_bind, Option.bind_some]
    cases travelEntries lua reg rest deep with
    | none => rfl
    | some r => rfl
  | sub key f rest ihf ih =>
    obtain ⟨k, keyHash, hk⟩ := travelKey_legal lua hlegal.1
    rw [Format.subTables]
    simp only [travelEntries, hk, Option.bind_eq_bind, Option.bind_some]
    by_cases hmax : deep + 1 > maxTableDeep
    · rw [if_pos hmax, if_neg (by omega)]
      rfl
    have hsub := ihf (deep + 1) (by omega) hlegal.2.1
    rw [if_neg hmax]
    by_cases hroom : deep + 1 + f.subTables ≤ maxTableDeep
    · rw [if_pos hroom] at hsub
      obtain ⟨⟨d, subHash, subOps⟩, hsub, rfl⟩ := Option.map_eq_some_iff.mp hsub
      have hrest := ih _ hroom hlegal.2.2
      simp only [hsub, Option.bind_some]
      rw [show deep + (f.subTables + 1 + rest.subTables) =
        deep + 1 + f.subTables + rest.subTables by omega, ← hrest]
      cases travelEntries lua reg rest (deep + 1 + f.subTables) with
      | none => rfl
      | some r => rfl
    · rw [if_neg hroom] at hsub
      simp only [Option.map_eq_none_iff.mp hsub, Option.bind_none, Option.map_none]
      rw [if_neg (by omega)]

/-- A format is taken if and only if it has at most `max_table_deep` tables. -/
theorem travelTable_isSome (hnum : (reg.getArg (cstr "number")).isSome) {f : Format}
    (hlegal : f.Legal lua reg) :
    (travelTable lua reg f 0).isSome = true ↔ f.tables ≤ maxTableDeep := by
  have hmap := travelEntries_deep hnum f 1 (by simp [maxTableDeep]) hlegal
  have hfirst : ¬ 0 + 1 > maxTableDeep := by simp [maxTableDeep]
  rw [travelTable, if_neg hfirst, ← Option.isSome_map (f := Prod.fst), Nat.zero_add, hmap,
    Nat.add_comm 1]
  unfold Format.tables
  split
  · simp_all
  · simp_all

end Legal

/-- **When a format is accepted by its depth**: exactly if it has at most `max_table_deep`
tables or is nested deeper than that. -/
theorem format_accepted_iff {lua : Lua} {reg : Registry} (hreg : Registered lua reg) {f : Format}
    (hlegal : f.Legal lua reg) :
    ((travelTable lua reg f 0).isSome = true ↔ f.depth ≤ maxTableDeep) ↔
      (f.tables ≤ maxTableDeep ∨ maxTableDeep < f.depth) := by
  have hle := f.depth_le_tables
  rw [travelTable_isSome (registered_number hreg) hlegal]
  omega

/-- A table with `n` empty tables side by side. -/
def sideBySide : Nat → Format
  | 0 => .nil
  | n + 1 => .sub (.key (.index (n + 1))) .nil (sideBySide n)

/-- A format with one table in it. -/
theorem format_accepted_iff_one :
    (sideBySide 1).Legal .x86 .init ∧
      (((travelTable .x86 .init (sideBySide 1) 0).isSome = true ↔
        (sideBySide 1).depth ≤ maxTableDeep) ↔
      ((sideBySide 1).tables ≤ maxTableDeep ∨ maxTableDeep < (sideBySide 1).depth)) := by
  have hlegal : (sideBySide 1).Legal .x86 .init := by simp [sideBySide, Format.Legal]
  exact ⟨hlegal, format_accepted_iff .init hlegal⟩

/-- **Ten tables side by side are too deep.** -/
theorem wide_format_refused :
    ¬ ∀ (lua : Lua) (reg : Registry) (f : Format), Registered lua reg → f.WF → f.Legal lua reg →
      ((travelTable lua reg f 0).isSome = true ↔ f.depth ≤ maxTableDeep) := by
  intro h
  have hwf : (sideBySide 10).WF := by
    simp [sideBySide, Format.WF, Format.keys, LuaKey.index]
  have hlegal : (sideBySide 10).Legal .x86 .init := by simp [sideBySide, Format.Legal]
  have hreg : Registered .x86 .init := .init
  have htaken := (h .x86 .init (sideBySide 10) hreg hwf hlegal).mpr
    (by simp [sideBySide, Format.depth, maxTableDeep])
  rw [travelTable_isSome (registered_number hreg) hlegal] at htaken
  simp [Format.tables, Format.subTables, sideBySide, maxTableDeep] at htaken

/-! ## The field tree of a format -/

/-- The first type of that name, as `get_arg` looks it up. -/
def typeNamed (types : List ArgTree) (typeName : List UInt8) : Option ArgTree :=
  types.find? fun d => d.arg.type = typeName

/-- The type that an entry names. -/
def FormatLeaf.tree (lua : Lua) (types : List ArgTree) : FormatLeaf → Option ArgTree
  | .number => typeNamed types (cstr "number")
  | .string s => typeNamed types (if lua.isNumeral s then cstr "number" else untilNul s)
  | .other => none

/-- The fields that a format describes, in the order of its entries. -/
def Format.fields (lua : Lua) (types : List ArgTree) : Format → Option FieldTree
  | .nil => some .nil
  | .leaf (.key k) val rest => do
    let d ← val.tree lua types
    let fs ← rest.fields lua types
    return .leaf k d fs
  | .sub (.key k) f rest => do
    let sub ← f.fields lua types
    let fs ← rest.fields lua types
    return .sub k sub fs
  | .leaf .other _ _ => none
  | .sub .other _ _ => none

theorem getArg_typeNamed (types : List ArgTree) (ty : List UInt8) :
    Registry.getArg (types.map ArgTree.arg) ty = (typeNamed types ty).map ArgTree.arg := by
  rw [Registry.getArg, typeNamed, List.find?_map]
  rfl

/-- The packer that the traversal finds for an entry is that of its type. -/
theorem travelLeaf_tree {lua : Lua} {types : List ArgTree} {val : FormatLeaf} {a : FcallArg}
    {valHash : List UInt8}
    (h : travelLeaf lua (types.map ArgTree.arg) val = some (a, valHash)) :
    ∃ d, val.tree lua types = some d ∧ d.arg = a := by
  have hnamed : ∀ {ty hash : List UInt8},
      (Registry.getArg (types.map ArgTree.arg) ty).map (fun a => (a, hash)) = some (a, valHash) →
      ∃ d, typeNamed types ty = some d ∧ d.arg = a := by
    intro ty hash h
    rw [getArg_typeNamed, Option.map_map, Option.map_eq_some_iff] at h
    obtain ⟨d, hd, heq⟩ := h
    cases heq
    exact ⟨d, hd, rfl⟩
  match val with
  | .number => exact hnamed h
  | .string s =>
    simp only [travelLeaf] at h
    simp only [FormatLeaf.tree]
    split at h
    · rename_i hs
      rw [if_pos hs]
      exact hnamed h
    · rename_i hs
      rw [if_neg hs]
      exact hnamed h
  | .other => cases h

/-- The opcodes of a format that is taken are the code of its fields. -/
theorem travelEntries_fields {lua : Lua} {types : List ArgTree} (f : Format) {deep deep' : Nat}
    {hash : List UInt8} {ops : TableOpcodes}
    (h : travelEntries lua (types.map ArgTree.arg) f deep = some (deep', hash, ops)) :
    ∃ fields, f.fields lua types = some fields ∧ fields.code .nil = ops := by
  induction f generalizing deep deep' hash ops with
  | nil =>
    simp only [travelEntries, Option.some.injEq, Prod.mk.injEq] at h
    exact ⟨.nil, rfl, h.2.2⟩
  | leaf key val rest ih =>
    obtain ⟨k, a, valHash, restHash, restOps, rfl, hv, hrest, rfl⟩ := travelEntries_leaf h
    obtain ⟨d, hd, rfl⟩ := travelLeaf_tree hv
    obtain ⟨fs, hfs, rfl⟩ := ih hrest
    exact ⟨.leaf k d fs, by simp [Format.fields, hd, hfs], rfl⟩
  | sub key f rest ihf ih =>
    obtain ⟨k, d1, subHash, subOps, restHash, restOps, rfl, hsub, hrest, rfl⟩ :=
      travelEntries_sub h
    obtain ⟨sub, hsubFields, rfl⟩ := ihf hsub
    obtain ⟨fs, hfs, rfl⟩ := ih hrest
    refine ⟨.sub k sub fs, by simp [Format.fields, hsubFields, hfs], ?_⟩
    rw [FieldTree.code, FieldTree.code_append]
    rfl

/-! ## Brackets -/

/-- Every `tb_end` closes a `tb_begin` before it or one of `opened`, and all are closed. -/
def TableOpcodes.Bracketed : Nat → TableOpcodes → Prop
  | opened, .nil => opened = 0
  | opened, .tbBegin _ rest => rest.Bracketed (opened + 1)
  | opened, .pushValue _ _ rest => rest.Bracketed opened
  | 0, .tbEnd _ => False
  | opened + 1, .tbEnd rest => rest.Bracketed opened

/-- The opcodes of some fields without the `tb_end` that ends their table. -/
def FieldTree.body : FieldTree → TableOpcodes
  | .nil => .nil
  | .leaf key a rest => .pushValue key a.arg rest.body
  | .sub key fs rest => .tbBegin key (fs.code rest.body)

theorem FieldTree.code_body (fs : FieldTree) (k : TableOpcodes) :
    fs.code k = fs.body.append (.tbEnd k) := by
  match fs with
  | .nil => rfl
  | .leaf key a rest => simp only [code, body, TableOpcodes.append, rest.code_body k]
  | .sub key inner rest =>
    simp only [code, body, TableOpcodes.append]
    rw [code_append, rest.code_body k]

/-- The code of some fields closes one bracket. -/
theorem FieldTree.bracketed_code (fs : FieldTree) (k : TableOpcodes) (opened : Nat) :
    (fs.code k).Bracketed (opened + 1) ↔ k.Bracketed opened := by
  match fs with
  | .nil => simp [code, TableOpcodes.Bracketed]
  | .leaf key a rest =>
    simp only [code, TableOpcodes.Bracketed]
    exact rest.bracketed_code k opened
  | .sub key inner rest =>
    simp only [code, TableOpcodes.Bracketed]
    rw [inner.bracketed_code _ (opened + 1), rest.bracketed_code k opened]

theorem FieldTree.bracketed_body (fs : FieldTree) : fs.body.Bracketed 0 := by
  match fs with
  | .nil => rfl
  | .leaf key a rest => exact rest.bracketed_body
  | .sub key inner rest =>
    rw [body, TableOpcodes.Bracketed, inner.bracketed_code _ 0]
    exact rest.bracketed_body

/-! ## The opcodes as a program -/

/-- A registry as the packers of a list of types. -/
theorem registered_types {lua : Lua} {reg : Registry} (h : Registered lua reg) :
    ∃ types : List ArgTree, types.map ArgTree.arg = reg := by
  have hrange : reg ∈ Set.range (List.map ArgTree.arg) := by
    rw [Set.range_list_map]
    intro a ha
    obtain ⟨d, -, hd⟩ := registered_isTree h a ha
    exact ⟨d, hd⟩
  exact hrange

/-- **The opcodes of a table format implement it.** For every format that is taken they are
well bracketed with one more `tb_end` at the end; `pack` gives what the encoder of the
format's fields gives and leaves the stack as it was, and `unpack` gives what their decoder
gives. -/
theorem opcodes_implement_format (lua : Lua) :
    (∀ reg, Registered lua reg → ∃ types : List ArgTree, types.map ArgTree.arg = reg) ∧
      ∀ (types : List ArgTree) (f : Format) (deep deep' : Nat) (hash : List UInt8)
        (ops : TableOpcodes),
        travelTable lua (types.map ArgTree.arg) f deep = some (deep', hash, ops) →
        (∃ body : TableOpcodes, body.Bracketed 0 ∧ ops = body.append (.tbEnd .nil)) ∧
          ∃ fields, f.fields lua types = some fields ∧
            ∀ (type hashstr : List UInt8) (L : LuaStack),
              (∀ (v : LuaValue) (bufLen : Int), bufLen < 2147483648 →
                (FcallArg.table type hashstr ops).pack lua L v bufLen =
                  ((ArgTree.table type hashstr fields).encode lua v bufLen).lift L) ∧
              ∀ buf : List UInt8, (FcallArg.table type hashstr ops).unpack L buf =
                ((ArgTree.table type hashstr fields).decode buf).clean L := by
  refine ⟨fun reg hreg => registered_types hreg, ?_⟩
  intro types f deep deep' hash ops h
  unfold travelTable at h
  split at h
  · cases h
  obtain ⟨fields, hfields, rfl⟩ := travelEntries_fields f h
  refine ⟨⟨fields.body, fields.bracketed_body, fields.code_body .nil⟩, fields, hfields, ?_⟩
  intro type hashstr L
  constructor
  · intro v bufLen hbuf
    exact (ArgTree.table type hashstr fields).pack_arg lua L v bufLen hbuf
  · intro buf
    exact (ArgTree.table type hashstr fields).unpack_clean L buf (by simp [LengthMissing])

/-- The types that are registered first. -/
def basicTypes : List ArgTree := [.number, .byte, .word, .dword, .string]

/-- The format `{1, {1}}`. -/
def innerFormat : Format :=
  .leaf (.key (.index 1)) .number
    (.sub (.key (.index 2)) (.leaf (.key (.index 1)) .number .nil) .nil)

/-- Its opcodes. -/
def innerOpcodes : TableOpcodes :=
  .pushValue (.index 1) .number
    (.tbBegin (.index 2) (.pushValue (.index 1) .number (.tbEnd (.tbEnd .nil))))

/-- That format among the first types. -/
theorem opcodes_implement_format_inner :
    (∃ types : List ArgTree, types.map ArgTree.arg = Registry.init) ∧ ∃ hash fields,
      travelTable .x86 (basicTypes.map ArgTree.arg) innerFormat 0 = some (2, hash, innerOpcodes) ∧
      innerFormat.fields .x86 basicTypes = some fields ∧
      (FcallArg.table [] [] innerOpcodes).pack .x86 [] .newtable 64 =
        ((ArgTree.table [] [] fields).encode .x86 .newtable 64).lift [] ∧
      (FcallArg.table [] [] innerOpcodes).unpack [] [2, 7] =
        ((ArgTree.table [] [] fields).decode [2, 7]).clean [] := by
  have htravel : ∃ hash, travelTable .x86 (basicTypes.map ArgTree.arg) innerFormat 0 =
      some (2, hash, innerOpcodes) := ⟨_, rfl⟩
  obtain ⟨hash, htravel⟩ := htravel
  obtain ⟨-, fields, hfields, hrun⟩ := (opcodes_implement_format .x86).2 _ _ _ _ _ _ htravel
  obtain ⟨hpack, hunpack⟩ := hrun [] [] []
  exact ⟨(opcodes_implement_format .x86).1 _ .init, hash, fields, htravel, hfields,
    hpack .newtable 64 (by omega), hunpack [2, 7]⟩

end Donkeyji.Mydb
