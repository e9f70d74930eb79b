/-
Donkeyji.Mydb.CheckIdTheorems — what the check id of a protocol says about its
wire format.

The arguments of a protocol are the fields of a table with the keys 1, 2, …:
`marshal` encodes and `unpack` decodes them as `argFields` does. So two
protocols with the same layout (`argLayout`) have the same wire format, and,
by `Layout.eq_of_agree`, two with different layouts do not. The string that
`get_check_id` hashes leaves array lengths and the keys' kinds out and runs
names together; protocols with the same string can have different layouts.
-/
import Donkeyji.Mydb.LayoutExactTheorems
import Donkeyji.Mydb.Protocol

namespace Donkeyji.Mydb

open Memory

variable (lua : Lua)

/-! ## Argument lists as tables -/

/-- Argument types as the fields of a table, from index `i` on. -/
def argFields : List ArgTree → Nat → FieldTree
  | [], _ => .nil
  | d :: ds, i => .leaf (.index i) d (argFields ds (i + 1))

/-- The layout of an argument list. -/
noncomputable def argLayout (ds : List ArgTree) : Option Fields := (argFields ds 1).layout

/-- The packers of the protocol are those of the types. -/
def NetProtocol.ArgTypes (P : NetProtocol) (ds : List ArgTree) : Prop :=
  P.args = ds.map ArgTree.arg ∧ ∀ d ∈ ds, d.WF

/-- An entry that is accepted finds a type's packer and keeps the registry registered. -/
theorem arglistEntry_type {reg reg' : Registry} {desc : ArgDesc} {arg : FcallArg}
    (hreg : Registered lua reg) (h : arglistEntry reg desc = .ok (reg', arg)) :
    Registered lua reg' ∧ IsTree arg := by
  unfold arglistEntry at h
  split at h
  · rename_i arrayLen hlen
    split at h
    · cases h
    · rename_i hrange
      split at h
      · rename_i arg' harg
        cases h
        exact ⟨.addArray hreg (by omega) harg,
          fcallArrayArg_isTree (registered_isTree hreg) harg⟩
      · cases h
  · split at h
    · rename_i arg' harg
      cases h
      exact ⟨hreg, registered_isTree hreg _ (getArg_mem harg)⟩
    · cases h

/-- `arglist_proc` finds packers of types only. -/
theorem arglistProc_types {descs : List (Option ArgDesc)} : ∀ {reg reg' : Registry}
    {args : List FcallArg}, Registered lua reg → arglistProc reg descs = (reg', args, none) →
    ∃ ds : List ArgTree, args = ds.map ArgTree.arg ∧ ∀ d ∈ ds, d.WF := by
  induction descs with
  | nil =>
    intro reg reg' args _ h
    cases h
    exact ⟨[], rfl, nofun⟩
  | cons desc descs ih =>
    intro reg reg' args hreg h
    cases desc with
    | none => cases h
    | some desc =>
      rw [arglistProc] at h
      split at h
      · cases h
      · rename_i reg1 arg hentry
        obtain ⟨hreg1, d, hd, rfl⟩ := arglistEntry_type lua hreg hentry
        simp only [Prod.mk.injEq] at h
        obtain ⟨-, rfl, hfail⟩ := h
        obtain ⟨ds, hargs, hds⟩ := ih hreg1 (Prod.ext rfl (Prod.ext rfl hfail))
        exact ⟨d :: ds, congrArg (d.arg :: ·) hargs, by simpa using ⟨hd, hds⟩⟩

theorem NetProtocol.Built.argTypes {P : NetProtocol} (h : P.Built lua) : ∃ ds, P.ArgTypes ds := by
  obtain ⟨reg, hreg, descs, reg', hargs⟩ := h
  exact arglistProc_types lua hreg hargs

theorem mem_argFields_keys {key : LuaKey} : ∀ {ds : List ArgTree} {i : Nat},
    key ∈ (argFields ds i).keys ↔ ∃ j, i ≤ j ∧ j < i + ds.length ∧ key = .index j
  | [], i => by
      simp only [argFields, FieldTree.keys, List.not_mem_nil, List.length_nil, false_iff]
      rintro ⟨j, h1, h2, -⟩
      omega
  | d :: ds, i => by
      simp only [argFields, FieldTree.keys, List.mem_cons, @mem_argFields_keys key ds,
        List.length_cons]
      constructor
      · rintro (rfl | ⟨j, h1, h2, rfl⟩)
        · exact ⟨i, le_rfl, by omega, rfl⟩
        · exact ⟨j, by omega, by omega, rfl⟩
      · rintro ⟨j, h1, h2, rfl⟩
        by_cases hj : j = i
        · exact .inl (by rw [hj])
        · exact .inr ⟨j, by omega, by omega, rfl⟩

theorem argFields_wf : ∀ {ds : List ArgTree} {i : Nat}, (∀ d ∈ ds, d.WF) → (argFields ds i).WF
  | [], _, _ => trivial
  | d :: ds, i, h => by
      refine ⟨?_, h d List.mem_cons_self, argFields_wf fun d' hd' => h d' (List.mem_cons_of_mem d hd')⟩
      rw [mem_argFields_keys]
      rintro ⟨j, h1, -, h2⟩
      have := LuaKey.index_injective h2
      omega

/-! ## marshal -/

/-- The arguments on the stack under their indices: the first stands at index 2. -/
def stackArgs (L : LuaStack) : LuaKey → LuaValue
  | .number (.finite q) => if q.den = 1 then stackAt L (q.num.toNat + 1) else .nil
  | _ => .nil

theorem stackArgs_index (L : LuaStack) (i : Nat) : stackArgs L (.index i) = stackAt L (i + 1) := by
  simp [stackArgs, LuaKey.index]

/-- **`marshal` writes the arguments as fields of a table.** -/
theorem marshalArgs_eq {bufLen : Int} (hbuf : bufLen < 2147483648) (L : LuaStack) :
    ∀ (ds : List ArgTree) (i : Nat) (usedLen : Int), 0 ≤ usedLen → ∀ (out : List UInt8),
    marshalArgs lua bufLen (ds.map ArgTree.arg) i usedLen out L =
      match (argFields ds (i + 1)).encode lua (stackArgs L) (bufLen - usedLen) with
      | .ok bytes => .ret (usedLen + bytes.length) (out ++ bytes) L
      | .error .fault => .fault
      | .error _ => .raise
  | [], i, usedLen, _, out => by
      simp [marshalArgs, argFields, FieldTree.encode]
  | d :: ds, i, usedLen, hused, out => by
      simp only [List.map_cons, marshalArgs, argFields, FieldTree.encode,
        ArgTree.pack_arg lua d L _ (bufLen - usedLen) (by omega), stackArgs_index, Enc.seq]
      cases d.encode lua (stackAt L (i + 1 + 1)) (bufLen - usedLen) with
      | error e => cases e <;> rfl
      | ok bytes =>
        cases bytes with
        | nil => rfl
        | cons b bs =>
          have hne : (((b :: bs).length : Nat) : Int) ≠ 0 := by simp; omega
          simp only [Enc.lift, Enc.resume, Enc.nonempty, List.nil_append, zero_add, if_neg hne]
          rw [marshalArgs_eq hbuf L ds (i + 1) _ (by omega), sub_sub]
          cases (argFields ds (i + 1 + 1)).encode lua (stackArgs L)
            (bufLen - (usedLen + (b :: bs).length)) with
          | ok more =>
            simp [add_assoc]
            omega
          | error e => cases e <;> rfl

/-- `marshal` succeeds with some bytes exactly if the fields encode to them. -/
theorem encodes_iff {P : NetProtocol} {ds : List ArgTree} (hP : P.ArgTypes ds) (L : LuaStack)
    {n : Int} (hn : n < 2147483648) (out : List UInt8) :
    P.Encodes lua L n out ↔ (argFields ds 1).encode lua (stackArgs L) n = .ok out := by
  unfold NetProtocol.Encodes
  rw [hP.1, marshalArgs_eq lua hn L ds 0 0 le_rfl [], sub_zero, Nat.zero_add]
  match (argFields ds 1).encode lua (stackArgs L) n with
  | .ok b => simp
  | .error .raise | .error .fault | .error (.zero _) => simp

/-! ## unpack -/

/-- Decoding fields changes no other key. -/
theorem FieldTree.decode_frame {key : LuaKey} : ∀ {fs : FieldTree} {buf : List UInt8}
    {t t' : LuaKey → LuaValue} {n : Nat}, fs.decode buf t = some (t', n) → key ∉ fs.keys →
    t' key = t key
  | .nil, buf, t, t', n, h, _ => by
      cases h
      rfl
  | .leaf k a rest, buf, t, t', n, h, hkey => by
      obtain ⟨hne, hrest⟩ := List.ne_and_not_mem_of_not_mem_cons hkey
      rw [decode] at h
      split at h
      · obtain ⟨r, hr, heq⟩ := Option.map_eq_some_iff.mp h
        cases heq
        rw [decode_frame hr hrest, Function.update_of_ne hne]
      · cases h
  | .sub k fs rest, buf, t, t', n, h, hkey => by
      obtain ⟨hne, hrest⟩ := List.ne_and_not_mem_of_not_mem_cons hkey
      rw [decode] at h
      split at h
      · obtain ⟨r, hr, heq⟩ := Option.map_eq_some_iff.mp h
        cases heq
        rw [decode_frame hr hrest, Function.update_of_ne hne]
      · cases h

/-- The values of `n` arguments from index `i` on, the last on top. -/
def argValues (t : LuaKey → LuaValue) : Nat → Nat → LuaStack
  | 0, _ => []
  | n + 1, i => argValues t n (i + 1) ++ [t (.index i)]

/-- **`unpack` reads the arguments as fields of a table** and pushes them. -/
theorem unpackArgs_eq {L0 : LuaStack} (buf : List UInt8) : ∀ (ds : List ArgTree) (i readed : Nat)
    (t : LuaKey → LuaValue) (L : LuaStack), L0 <:+ L →
    unpackArgs L0.length buf (ds.map ArgTree.arg) readed L =
      match (argFields ds i).decode (buf.drop readed) t with
      | some (t', n) => some (((readed + n : Nat) : Int), argValues t' ds.length i ++ L)
      | none => some (xynetErrorUnpackFormat, L0)
  | [], i, readed, t, L, _ => rfl
  | d :: ds, i, readed, t, L, hsuffix => by
      have hunpack := ArgTree.unpack_arg d L (buf.drop readed)
      simp only [List.map_cons, unpackArgs, argFields, FieldTree.decode, Option.bind_eq_bind]
      cases hd : d.decode (buf.drop readed) with
      | none =>
        rw [hd] at hunpack
        obtain ⟨pre, hpre⟩ := hunpack
        have hsettop : settop L0.length (pre ++ L) = L0 :=
          settop_of_suffix (hsuffix.trans (List.suffix_append pre L))
        simp [hpre, hsettop]
      | some r =>
        obtain ⟨v, n⟩ := r
        rw [hd] at hunpack
        replace hunpack : d.arg.unpack L (buf.drop readed) = some (n, v :: L) := hunpack
        have hsuffix' : L0 <:+ v :: L := hsuffix.trans (List.suffix_cons v L)
        cases n with
        | zero => simp [hunpack, settop_of_suffix hsuffix']
        | succ n =>
          simp only [hunpack, Option.bind_some, Nat.add_one_ne_zero, if_false]
          rw [unpackArgs_eq buf ds (i + 1) (readed + (n + 1))
            (Function.update t (.index i) v) (v :: L) hsuffix', List.drop_drop]
          cases hr : (argFields ds (i + 1)).decode (buf.drop (readed + (n + 1)))
            (Function.update t (.index i) v) with
          | none => rfl
          | some r =>
            obtain ⟨t', k⟩ := r
            have hkey : LuaKey.index i ∉ (argFields ds (i + 1)).keys := by
              rw [mem_argFields_keys]
              rintro ⟨j, h1, -, h2⟩
              have := LuaKey.index_injective h2
              omega
            have hv : t' (.index i) = v := by
              rw [FieldTree.decode_frame hr hkey, Function.update_self]
            simp [argValues, hv, Nat.add_assoc]

/-- `unpack` of a protocol, from its layout. -/
theorem unpack_eq {P : NetProtocol} {ds : List ArgTree} (hP : P.ArgTypes ds) (callee : LuaValue)
    (L : LuaStack) (buf : List UInt8) (ext : Int) :
    P.unpack callee L buf ext =
      match (argFields ds 1).decode buf fun _ => .nil with
      | some (t, n) =>
        some (((n : Nat) : Int), argValues t ds.length 1 ++ .ofInt ext :: callee :: L)
      | none => some (xynetErrorUnpackFormat, L) := by
  have hsuffix : L <:+ .ofInt ext :: callee :: L := List.suffix_append [_, _] L
  rw [NetProtocol.unpack, hP.1, unpackArgs_eq buf ds 1 0 (fun _ => .nil) _ hsuffix, List.drop_zero]
  simp only [Nat.zero_add]

/-! ## The same layout -/

/-- A field of an argument list has a skeleton. -/
theorem argLayout_skel {ds : List ArgTree} (hwf : ∀ d ∈ ds, d.WF) {f : Fields} :
    ∀ {i : Nat}, (argFields ds i).layout = some f → ∀ j, i ≤ j →
    (f.1 (.index j) = .free ↔ i + ds.length ≤ j) := by
  induction ds generalizing f with
  | nil =>
    intro i h j hj
    cases h
    exact iff_of_true rfl hj
  | cons d ds ih =>
    intro i h j hj
    rw [argFields, FieldTree.layout] at h
    obtain ⟨l, hl, h⟩ := Option.bind_eq_some_iff.mp h
    obtain ⟨f', hf', rfl⟩ := Option.map_eq_some_iff.mp h
    rw [Fields.entry_fst, List.length_cons]
    by_cases hij : j = i
    · subst hij
      rw [Function.update_self]
      have hcanon := ArgTree.canon_layout d (hwf d List.mem_cons_self) l
        (Option.filter_eq_some_iff.mp hl).1
      obtain ⟨skel, leaves⟩ := l
      exact iff_of_false hcanon.1 (by omega)
    · have hne : LuaKey.index j ≠ LuaKey.index i := fun h => hij (LuaKey.index_injective h)
      rw [Function.update_of_ne hne,
        ih (fun d' hd' => hwf d' (List.mem_cons_of_mem d hd')) hf' j (by omega)]
      omega

/-- Argument lists with the same layout have the same length. -/
theorem length_of_argLayout {ds es : List ArgTree} (hds : ∀ d ∈ ds, d.WF) (hes : ∀ d ∈ es, d.WF)
    {f : Fields} (hd : argLayout ds = some f) (he : argLayout es = some f) :
    ds.length = es.length := by
  have h1 := argLayout_skel hds hd
  have h2 := argLayout_skel hes he
  have hle : 1 + es.length ≤ 1 + ds.length :=
    (h2 (1 + ds.length) (by omega)).mp ((h1 (1 + ds.length) (by omega)).mpr le_rfl)
  have hge : 1 + ds.length ≤ 1 + es.length :=
    (h1 (1 + es.length) (by omega)).mp ((h2 (1 + es.length) (by omega)).mpr le_rfl)
  omega

/-- **Protocols with the same layout have the same wire format.** -/
theorem sameWire_of_argLayout {P Q : NetProtocol} {ds es : List ArgTree} (hP : P.ArgTypes ds)
    (hQ : Q.ArgTypes es) (h : argLayout ds = argLayout es) : SameWire lua P Q := by
  have hwf := argFields_wf (i := 1) hP.2
  have hwf' := argFields_wf (i := 1) hQ.2
  constructor
  · intro callee L buf ext
    rw [unpack_eq hP, unpack_eq hQ]
    have hd := FieldTree.decode_layout (argFields ds 1) hwf buf _ fun _ _ => rfl
    have he := FieldTree.decode_layout (argFields es 1) hwf' buf _ fun _ _ => rfl
    have hl : (argFields ds 1).layout = (argFields es 1).layout := h
    rw [hl, ← he] at hd
    have hinj : Function.Injective fun r : (LuaKey → LuaValue) × Nat =>
        (LuaValue.table r.1, r.2) := by
      rintro ⟨t, n⟩ ⟨t', n'⟩ heq
      cases heq
      rfl
    have hdec := Option.map_injective hinj hd
    rw [hdec]
    cases hr : (argFields es 1).decode buf fun _ => .nil with
    | none => rfl
    | some r =>
      cases hf : argLayout es with
      | none =>
        rw [show (argFields es 1).layout = none from hf, hr] at he
        cases he
      | some f =>
        rw [length_of_argLayout hP.2 hQ.2 (h.trans hf) hf]
  · intro L n out hn hn'
    rw [encodes_iff lua hP L hn', encodes_iff lua hQ L hn',
      FieldTree.encode_layout lua _ hwf _ n hn hn' out,
      FieldTree.encode_layout lua _ hwf' _ n hn hn' out,
      show (argFields ds 1).layout = (argFields es 1).layout from h]

/-! ## Different layouts -/

/-- Encoding fields looks only at their keys. -/
theorem FieldTree.encode_congr {get get' : LuaKey → LuaValue} : ∀ {fs : FieldTree},
    (∀ key ∈ fs.keys, get key = get' key) → fs.encode lua get = fs.encode lua get'
  | .nil, _ => rfl
  | .leaf key a rest, h => by
      funext n
      rw [encode, encode, h key List.mem_cons_self,
        encode_congr fun k hk => h k (List.mem_cons_of_mem key hk)]
  | .sub key fs rest, h => by
      funext n
      rw [encode, encode, h key List.mem_cons_self,
        encode_congr fun k hk => h k (List.mem_cons_of_mem key hk)]

/-- A stack with the first `k` fields of a table as arguments. -/
def argStack (get : LuaKey → LuaValue) (k : Nat) : LuaStack :=
  ((List.range (k + 1)).map fun i => get (.index i)).reverse

theorem stackArgs_argStack (get : LuaKey → LuaValue) {k i : Nat} (hi : i ≤ k) :
    stackArgs (argStack get k) (.index i) = get (.index i) := by
  rw [stackArgs_index, stackAt, argStack, List.reverse_reverse, Nat.add_sub_cancel]
  simp [Nat.lt_succ_of_le hi]

/-- What a protocol makes of the fields of a table, from its layout. -/
theorem encodes_argStack {P : NetProtocol} {ds : List ArgTree} (hP : P.ArgTypes ds)
    (get : LuaKey → LuaValue) {k : Nat} (hk : ds.length ≤ k) {n : Int} (hn : 0 ≤ n)
    (hn' : n < 2147483648) (out : List UInt8) :
    P.Encodes lua (argStack get k) n out ↔
      ((argLayout ds).bind fun f => f.table.encode lua (.table get)) = some out ∧
        (out.length : Int) ≤ n := by
  have hkeys : ∀ key ∈ (argFields ds 1).keys, stackArgs (argStack get k) key = get key := by
    intro key hkey
    obtain ⟨j, -, hj, rfl⟩ := mem_argFields_keys.mp hkey
    exact stackArgs_argStack get (by omega)
  rw [encodes_iff lua hP _ hn', FieldTree.encode_congr lua hkeys]
  exact FieldTree.encode_layout lua _ (argFields_wf hP.2) get n hn hn' out

theorem Fields.table_injective : Function.Injective Fields.table := by
  intro f g h
  rw [table, table, Layout.mk.injEq, Skel.tab.injEq] at h
  exact Prod.ext h.1 h.2

/-- How many bytes hold a message with one element in every array. -/
noncomputable def argSpan (ds : List ArgTree) : Nat :=
  match argLayout ds with
  | some f => f.table.span
  | none => 0

/-- **Protocols with the same wire format have the same layout**, if an `int` can
count their short messages. -/
theorem argLayout_of_sameWire {P Q : NetProtocol} {ds es : List ArgTree} (hP : P.ArgTypes ds)
    (hQ : Q.ArgTypes es) (hspan : argSpan ds + argSpan es < 2147483648)
    (h : SameWire lua P Q) : argLayout ds = argLayout es := by
  have hagree : ∀ get out, out.length ≤ 2147483647 →
      (((argLayout ds).bind fun f => f.table.encode lua (.table get)) = some out ↔
        ((argLayout es).bind fun f => f.table.encode lua (.table get)) = some out) := by
    intro get out hlen
    have hlen' : (out.length : Int) ≤ 2147483647 := by exact_mod_cast hlen
    have hwire := h.2 (argStack get (max ds.length es.length)) 2147483647 out (by decide) (by decide)
    rw [encodes_argStack lua hP get (le_max_left _ _) (by decide) (by decide),
      encodes_argStack lua hQ get (le_max_right _ _) (by decide) (by decide)] at hwire
    simpa only [hlen', and_true] using hwire
  -- a layout has a short value, so no layout has no wire format
  have hsome : ∀ {ds : List ArgTree} {f : Fields}, (∀ d ∈ ds, d.WF) → argLayout ds = some f →
      ∃ get out, f.table.encode lua (.table get) = some out ∧ out.length ≤ argSpan ds := by
    intro ds f hwf hf
    have hcanon : f.table.Canon := FieldTree.canon_layout _ (argFields_wf hwf) f hf
    obtain ⟨out, hout, hlen⟩ := Layout.encode_sample lua hcanon
    refine ⟨_, out, hout, ?_⟩
    rw [argSpan, hf]
    exact hlen
  cases hd : argLayout ds with
  | none =>
    cases he : argLayout es with
    | none => rfl
    | some g =>
      obtain ⟨get, out, hout, hlen⟩ := hsome hQ.2 he
      have := (hagree get out (by omega)).mpr (by rw [he]; exact hout)
      rw [hd] at this
      cases this
  | some f =>
    cases he : argLayout es with
    | none =>
      obtain ⟨get, out, hout, hlen⟩ := hsome hP.2 hd
      have := (hagree get out (by omega)).mp (by rw [hd]; exact hout)
      rw [he] at this
      cases this
    | some g =>
      have hf : f.table.Canon := FieldTree.canon_layout _ (argFields_wf hP.2) f hd
      have hg : g.table.Canon := FieldTree.canon_layout _ (argFields_wf hQ.2) g he
      rw [argSpan, argSpan, hd, he] at hspan
      simp only at hspan
      have htable : f.table = g.table := by
        refine Layout.eq_of_agree lua f.table g.table (N := 2147483647) hf hg (by omega)
          fun v out hout => ?_
        by_cases hv : ∃ get, v = .table get
        · obtain ⟨get, rfl⟩ := hv
          have := hagree get out hout
          rwa [hd, he] at this
        · rw [not_exists] at hv
          rw [table_encode_of_not lua hv, table_encode_of_not lua hv]
      rw [Fields.table_injective htable]

/-! ## The check id -/

/-- Equal hash strings mean the same wire format. -/
def CheckIdDetects (P Q : NetProtocol) : Prop :=
  P.checkIdString = Q.checkIdString → SameWire lua P Q

/-- **What the check id detects.** The packers of a protocol are those of some
argument types. If equal hash strings mean equal layouts for two protocols,
then they mean the same wire format; and where an `int` counts the short
messages of the two, in no other case. -/
theorem checkId_detects_iff :
    (∀ P : NetProtocol, P.Built lua → ∃ ds, P.ArgTypes ds) ∧
    ∀ (P Q : NetProtocol) (ds es : List ArgTree), P.ArgTypes ds → Q.ArgTypes es →
      ((P.checkIdString = Q.checkIdString → argLayout ds = argLayout es) →
        CheckIdDetects lua P Q) ∧
      (argSpan ds + argSpan es < 2147483648 →
        (CheckIdDetects lua P Q ↔
          (P.checkIdString = Q.checkIdString → argLayout ds = argLayout es))) := by
  refine ⟨fun P hP => hP.argTypes lua, fun P Q ds es hP hQ => ?_⟩
  have hsuff : (P.checkIdString = Q.checkIdString → argLayout ds = argLayout es) →
      CheckIdDetects lua P Q := fun h hid => sameWire_of_argLayout lua hP hQ (h hid)
  refine ⟨hsuff, fun hspan => ⟨fun h hid => ?_, hsuff⟩⟩
  exact argLayout_of_sameWire lua hP hQ hspan (h hid)

/-- A protocol with one argument, an array of `n` numbers. -/
def numbersProtocol (n : Nat) : NetProtocol where
  packFuncName := cstr "s_move"
  args := [.array .number n]
  id := 1
  isMaker := false

theorem numbersProtocol_built {n : Nat} (h : n ≤ 255) : (numbersProtocol n).Built lua := by
  refine ⟨_, .init, [some ⟨cstr "number", some n⟩], Registry.init ++ [.array .number n], ?_⟩
  have hget : Registry.init.getArg (untilNul (cstr "number")) = some .number := rfl
  have hrange : ¬ ((n : Int) < 0 ∨ (n : Int) > 255) := by omega
  simp only [arglistProc, arglistEntry, if_neg hrange, fcallArrayArg, hget, numbersProtocol,
    Int.toNat_natCast, Option.map_some]

theorem numbersProtocol_argTypes (n : Nat) : (numbersProtocol n).ArgTypes [.array .number n] := by
  refine ⟨rfl, fun d hd => ?_⟩
  rw [List.mem_singleton] at hd
  subst hd
  trivial

/-- Two numbers are a message for an array of two, not for an array of three. -/
theorem numbersProtocol_not_sameWire : ¬ SameWire lua (numbersProtocol 2) (numbersProtocol 3) := by
  intro h
  have hcall := h.1 .nil [] [2, 1, 2, 1] 0
  have hread : ((numbersProtocol 2).unpack .nil [] [2, 1, 2, 1] 0).map Prod.fst =
      ((numbersProtocol 3).unpack .nil [] [2, 1, 2, 1] 0).map Prod.fst := by rw [hcall]
  revert hread
  decide

/-- Arrays of two and of three numbers have the same hash string and not the same
layout, so the hash string does not detect the difference. -/
theorem checkId_detects_iff_numbers :
    argLayout [.array .number 2] ≠ argLayout [.array .number 3] := by
  intro hlayout
  exact numbersProtocol_not_sameWire .x86 (((checkId_detects_iff .x86).2 (numbersProtocol 2)
    (numbersProtocol 3) _ _ (numbersProtocol_argTypes 2) (numbersProtocol_argTypes 3)).1
    (fun _ => hlayout) rfl)

/-- The check id does not tell arrays of two numbers from arrays of three. -/
theorem checkId_misses_arrayLen : ¬ ∀ lua : Lua, ∀ P Q : NetProtocol,
    P.Built lua → Q.Built lua → P.checkIdString = Q.checkIdString → SameWire lua P Q := by
  intro h
  exact numbersProtocol_not_sameWire .x86 (h .x86 _ _ (numbersProtocol_built .x86 (by decide))
    (numbersProtocol_built .x86 (by decide)) rfl)

end Donkeyji.Mydb
