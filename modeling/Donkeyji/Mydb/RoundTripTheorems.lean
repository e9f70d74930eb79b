/-
Donkeyji.Mydb.RoundTripTheorems — what `pack` writes, `unpack` reads.

`InDomain` says which Lua values an argument type is for, and `Agrees` when
the value that comes out counts as the value that went in: equal for the
basic types, equal entry by entry for an array of variable length, equal on
the indices `1 … n` for an array of fixed size and on the format's keys for a
table.

`decode_encode` is the round trip of the tree codec, by recursion on the
tree. The fields of a table are decoded into a table that already has the
fields before them, so the statement for fields also says that no other key
changes. `pack_unpack` carries it over to the packer objects.
-/
import Donkeyji.Mydb.ArgTreeTheorems

namespace Donkeyji.Mydb

open Memory

/-! ## Domains and agreement -/

mutual

/-- The values an argument type is for. -/
def ArgTree.InDomain : ArgTree → LuaValue → Prop
  | .number, v => ∃ i : Int, (-2147483648 ≤ i ∧ i < 2147483648) ∧ v = .ofInt i
  | .byte, v => ∃ i : Int, (0 ≤ i ∧ i < 256) ∧ v = .ofInt i
  | .word, v => ∃ i : Int, (-32768 ≤ i ∧ i < 32768) ∧ v = .ofInt i
  | .dword, v => ∃ i : Int, (-2147483648 ≤ i ∧ i < 2147483648) ∧ v = .ofInt i
  | .string, v => ∃ s, v = .string s
  | .array b size, v => ∃ get, v = .table get ∧
      if size = 0 then
        -- the elements are at `1 … m` and there is nothing else
        ∃ m : Nat, (∀ i, 1 ≤ i → i ≤ m → b.InDomain (get (.index i))) ∧
          ∀ key, (∀ i, 1 ≤ i → i ≤ m → key ≠ .index i) → get key = .nil
      else ∀ i, 1 ≤ i → i ≤ size → b.InDomain (get (.index i))
  | .table _ _ fs, v => ∃ get, v = .table get ∧ fs.InDomain get

/-- A table has every field, with a value of the field's type. -/
def FieldTree.InDomain : FieldTree → (LuaKey → LuaValue) → Prop
  | .nil, _ => True
  | .leaf key a rest, get => a.InDomain (get key) ∧ rest.InDomain get
  | .sub key fs rest, get =>
    (∃ sub, get key = .table sub ∧ fs.InDomain sub) ∧ rest.InDomain get

end

mutual

/-- Two values are equal as values of the type. -/
def ArgTree.Agrees : ArgTree → LuaValue → LuaValue → Prop
  | .array b size, v, w => ∃ g g', v = .table g ∧ w = .table g' ∧
      if size = 0 then ∀ key, (g key = .nil ∧ g' key = .nil) ∨ b.Agrees (g key) (g' key)
      else ∀ i, 1 ≤ i → i ≤ size → b.Agrees (g (.index i)) (g' (.index i))
  | .table _ _ fs, v, w => ∃ g g', v = .table g ∧ w = .table g' ∧ fs.Agrees g g'
  | _, v, w => v = w

/-- Two tables are equal on the fields. -/
def FieldTree.Agrees : FieldTree → (LuaKey → LuaValue) → (LuaKey → LuaValue) → Prop
  | .nil, _, _ => True
  | .leaf key a rest, g, g' => a.Agrees (g key) (g' key) ∧ rest.Agrees g g'
  | .sub key fs rest, g, g' =>
    (∃ s s', g key = .table s ∧ g' key = .table s' ∧ fs.Agrees s s') ∧ rest.Agrees g g'

end

/-- No type is for `nil`. -/
theorem ArgTree.InDomain.isNil_eq_false {d : ArgTree} {v : LuaValue} (h : d.InDomain v) :
    v.isNil = false := by
  cases d with
  | number | byte | word | dword =>
    obtain ⟨i, -, rfl⟩ := h
    rfl
  | string =>
    obtain ⟨s, rfl⟩ := h
    rfl
  | array | table =>
    obtain ⟨get, rfl, -⟩ := h
    rfl

/-! ## Basic types -/

/-- A basic packer that succeeds has written the bytes of its `emit`. -/
theorem ofPackOut_emit {bufLen usedLen : Int} {bytes out : List UInt8}
    (h : Enc.ofPackOut (emit bufLen usedLen bytes ()) = .ok out) :
    out = bytes ∧ (bytes.length : Int) ≤ bufLen := by
  unfold emit at h
  split at h
  · rename_i hle
    simp only [Enc.ofPackOut] at h
    split at h
    · cases h
    · cases h
      exact ⟨rfl, hle⟩
  · cases h

/-- `numberLen` bytes are enough for the magnitude of an `int`. -/
theorem numberLen_spec {data : Nat} (h : data < 4294967296) :
    data < 256 ^ numberLen data ∧ 1 ≤ numberLen data ∧ numberLen data ≤ 4 := by
  unfold numberLen
  split
  · norm_num; omega
  split
  · norm_num; omega
  split
  · norm_num; omega
  · norm_num; omega

/-- Sign and magnitude give the `int` back, the smallest one included. -/
theorem wrap32_magnitude {i : Int} (h : -2147483648 ≤ i ∧ i < 2147483648) {data : Nat}
    (hdata : data = ((if i < 0 then -i else i) % 4294967296).toNat) :
    (if i < 0 then wrap32 (-wrap32 data) else wrap32 data) = i := by
  unfold wrap32
  split
  · rw [if_pos ‹_›] at hdata
    omega
  · rw [if_neg ‹_›] at hdata
    omega

/-- `fcall_number_arg` round trip. -/
theorem number_round_trip (lua : Lua) {i : Int} (h : -2147483648 ≤ i ∧ i < 2147483648)
    {bufLen : Int} {out : List UInt8}
    (hp : Enc.ofPackOut (numberPack lua () (.ofInt i) bufLen) = .ok out) (extra : List UInt8) :
    numberUnpack [] (out ++ extra) = some (out.length, [.ofInt i]) := by
  unfold numberPack at hp
  rw [checkInt_ofInt lua h] at hp
  have hlt : ((if i < 0 then -i else i) % 4294967296).toNat < 4294967296 := by omega
  have hback := wrap32_magnitude h rfl
  revert hp
  show Enc.ofPackOut (if _ then _ else emit _ _ _ _) = _ → _
  generalize ((if i < 0 then -i else i) % 4294967296).toNat = data at hlt hback ⊢
  obtain ⟨hdata, h1, h4⟩ := numberLen_spec hlt
  generalize numberLen data = len at hdata h1 h4 ⊢
  intro hp
  split at hp
  · cases hp
  obtain ⟨rfl, -⟩ := ofPackOut_emit hp
  -- the header byte keeps the sign and the number of bytes
  obtain ⟨b, hb, hbyte⟩ : ∃ b : UInt8, leBytes 1 ((if i < 0 then 1 else 0) + 2 * len) = [b] ∧
      b.toNat = (if i < 0 then 1 else 0) + 2 * len := by
    refine ⟨_, rfl, ?_⟩
    rw [UInt8.toNat_ofNat']
    split <;> omega
  have hdiv : b.toNat / 2 = len := by rw [hbyte]; split <;> omega
  have hmod : b.toNat % 2 = 1 ↔ i < 0 := by rw [hbyte]; split <;> omega
  have htake : (leBytes len data ++ extra).take len = leBytes len data :=
    List.take_left' (length_leBytes len data)
  rw [hb, List.append_assoc, List.singleton_append, numberUnpack_cons, hdiv, htake,
    leNat_leBytes_of_lt hdata, if_neg (by simp; omega)]
  simp only [hmod, hback]
  simp [Nat.add_comm]

/-- Round trip of the packers with a fixed width. -/
theorem fixed_round_trip (width : Nat) (conv : Int → Int) (lua : Lua) {i : Int}
    (h : -2147483648 ≤ i ∧ i < 2147483648)
    (hconv : conv (((i % 4294967296).toNat % 256 ^ width : Nat) : Int) = i)
    {bufLen : Int} {out : List UInt8}
    (hp : Enc.ofPackOut (fixedPack width lua () (.ofInt i) bufLen) = .ok out)
    (extra : List UInt8) :
    fixedUnpack width conv [] (out ++ extra) = some (out.length, [.ofInt i]) := by
  unfold fixedPack at hp
  rw [checkInt_ofInt lua h] at hp
  simp only at hp
  split at hp
  · cases hp
  obtain ⟨rfl, -⟩ := ofPackOut_emit hp
  rw [fixedUnpack_eq, if_neg (by simp), List.take_left' (length_leBytes width _),
    leNat_leBytes, hconv, length_leBytes]

/-- `fcall_string_arg` round trip. -/
theorem string_round_trip (lua : Lua) (data : List UInt8) {bufLen : Int}
    (hbuf : bufLen < 2147483648) {out : List UInt8}
    (hp : Enc.ofPackOut (stringPack lua () (.string data) bufLen) = .ok out)
    (extra : List UInt8) :
    stringUnpack [] (out ++ extra) = some (out.length, [.string data]) := by
  unfold stringPack Lua.checklstring at hp
  simp only at hp
  split at hp
  · rename_i hshort
    split at hp
    · cases hp
    obtain ⟨rfl, hfit⟩ := ofPackOut_emit hp
    rw [List.length_append, length_leBytes] at hfit
    have hid := wrap32_succ (n := data.length) (by omega)
    rw [hid] at hshort ⊢
    have hnat : (((data.length : Int) + 1) % 4294967296).toNat = data.length + 1 := by omega
    obtain ⟨b, hb, hbyte⟩ : ∃ b : UInt8, leBytes 1 (data.length + 1) = [b] ∧
        b.toNat = data.length + 1 := by
      refine ⟨_, rfl, ?_⟩
      rw [UInt8.toNat_ofNat']
      omega
    rw [hnat, hb, List.append_assoc, List.singleton_append,
      stringUnpack_short _ _ _ (by omega), hbyte, Nat.add_sub_cancel, List.take_left' rfl,
      if_neg (by simp)]
    simp [Nat.add_comm]
  · rename_i hlong
    split at hp
    · rename_i hfits
      split at hp
      · cases hp
      obtain ⟨rfl, hfit⟩ := ofPackOut_emit hp
      rw [List.length_append, List.length_cons, length_leBytes] at hfit
      have hid := wrap32_succ (n := data.length) (by omega)
      rw [hid] at hfits ⊢
      have hnat : (((data.length : Int) + 1) % 4294967296).toNat = data.length + 1 := by omega
      have htake : (leBytes 2 (data.length + 1) ++ (data ++ extra)).take 2 =
          leBytes 2 (data.length + 1) := List.take_left' (length_leBytes 2 _)
      have hdrop : (leBytes 2 (data.length + 1) ++ (data ++ extra)).drop 2 = data ++ extra :=
        List.drop_left' (length_leBytes 2 _)
      rw [hnat, List.append_assoc, List.cons_append, stringUnpack_long, htake, hdrop,
        leNat_leBytes_of_lt (by norm_num; omega)]
      simp only [Nat.add_sub_cancel, List.take_left' rfl]
      rw [if_neg (by simp; omega)]
      simp
      omega
    · cases hp

/-! ## Sequences -/

/-- A sequence that succeeds is its two parts. -/
theorem Enc.seq_ok {b r : Int → Enc} {bufLen : Int} {out : List UInt8}
    (h : Enc.seq b r bufLen = .ok out) :
    ∃ b1 b2, b bufLen = .ok b1 ∧ r (bufLen - b1.length) = .ok b2 ∧ out = b1 ++ b2 := by
  unfold Enc.seq at h
  cases hb : b bufLen with
  | error e => rw [hb] at h; cases h
  | ok b1 =>
    rw [hb] at h
    simp only at h
    cases hr : r (bufLen - b1.length) with
    | error e => cases e <;> (rw [hr] at h; cases h)
    | ok b2 =>
      rw [hr] at h
      cases h
      exact ⟨b1, b2, rfl, hr, rfl⟩

/-- An element that succeeds took at least one byte. -/
theorem Enc.nonempty_ok {e : Enc} {out : List UInt8} (h : e.nonempty = .ok out) :
    e = .ok out ∧ ∃ n, out.length = n + 1 := by
  match e with
  | .error _ => cases h
  | .ok [] => cases h
  | .ok (b :: bs) =>
    cases h
    exact ⟨rfl, bs.length, rfl⟩

/-- Decoding what `todo` elements encode to fills the indices from `i` on and no
other key. -/
theorem arrayDecode_encode {base : LuaValue → Int → Enc} {dec : List UInt8 → Dec LuaValue}
    {dom : LuaValue → Prop} {agrees : LuaValue → LuaValue → Prop}
    (hbase : ∀ v bufLen out extra, bufLen < 2147483648 → dom v → base v bufLen = .ok out →
      ∃ w, dec (out ++ extra) = some (w, out.length) ∧ agrees v w)
    (get : LuaKey → LuaValue) (todo i : Nat) (bufLen : Int) (out extra : List UInt8)
    (t : LuaKey → LuaValue) (hbuf : bufLen < 2147483648)
    (hdom : ∀ j, i ≤ j → j < i + todo → dom (get (.index j)))
    (henc : arrayEncode base get todo i bufLen = .ok out) :
    ∃ t', arrayDecode dec todo i (out ++ extra) t = some (t', out.length) ∧
      (∀ j, i ≤ j → j < i + todo → agrees (get (.index j)) (t' (.index j))) ∧
      ∀ key, (∀ j, i ≤ j → j < i + todo → key ≠ .index j) → t' key = t key := by
  induction todo generalizing i bufLen out t with
  | zero =>
    cases henc
    exact ⟨t, rfl, fun j _ _ => by omega, fun key _ => rfl⟩
  | succ todo ih =>
    obtain ⟨b1, b2, h1, h2, rfl⟩ := Enc.seq_ok henc
    obtain ⟨h1, n, hn⟩ := Enc.nonempty_ok h1
    obtain ⟨w, hw, hagree⟩ :=
      hbase (get (.index i)) bufLen b1 (b2 ++ extra) hbuf (hdom i (by omega) (by omega)) h1
    obtain ⟨t', hdec, hrest, hframe⟩ := ih (i + 1) _ b2 (Function.update t (.index i) w)
      (by omega) (fun j hj hlt => hdom j (by omega) (by omega)) h2
    refine ⟨t', ?_, fun j hj hlt => ?_, fun key hkey => ?_⟩
    · rw [List.append_assoc, arrayDecode, hw, hn]
      simp only
      rw [← hn, List.drop_left, hdec]
      simp [List.length_append]
    · rcases Nat.eq_or_lt_of_le hj with rfl | hj
      · rw [hframe _ fun j hj _ heq => by have := LuaKey.index_injective heq; omega,
          Function.update_self]
        exact hagree
      · exact hrest j (by omega) (by omega)
    · rw [hframe key fun j hj hlt => hkey j (by omega) (by omega),
        Function.update_of_ne (hkey i (by omega) (by omega))]

/-- The border search ends before the first `nil` or runs out of indices. -/
theorem borderFrom_spec (get : LuaKey → LuaValue) (fuel n : Nat) :
    n ≤ borderFrom get fuel n ∧
      (∀ i, n < i → i ≤ borderFrom get fuel n → (get (.index i)).isNil = false) ∧
      (borderFrom get fuel n < n + fuel →
        (get (.index (borderFrom get fuel n + 1))).isNil = true) := by
  induction fuel generalizing n with
  | zero => exact ⟨le_refl _, fun i h1 h2 => by simp [borderFrom] at h2; omega, by simp [borderFrom]⟩
  | succ fuel ih =>
    unfold borderFrom
    split
    · rename_i hnil
      exact ⟨le_refl _, fun i h1 h2 => by omega, fun _ => hnil⟩
    · rename_i hsome
      obtain ⟨h1, h2, h3⟩ := ih (n + 1)
      refine ⟨by omega, fun i hi hle => ?_, fun hlt => h3 (by omega)⟩
      rcases Nat.eq_or_lt_of_le hi with rfl | hi
      · simpa using hsome
      · exact h2 i hi hle

/-- The length of a sequence of at most 255 elements is their number. -/
theorem objlen_sequence {get : LuaKey → LuaValue} {m : Nat}
    (hsome : ∀ i, 1 ≤ i → i ≤ m → (get (.index i)).isNil = false)
    (hnil : ∀ key, (∀ i, 1 ≤ i → i ≤ m → key ≠ .index i) → get key = .nil)
    (hle : objlen get ≤ 255) : objlen get = m := by
  obtain ⟨-, hbefore, hafter⟩ := borderFrom_spec get 256 0
  have hborder : (get (.index (objlen get + 1))).isNil = true := hafter (by
    show objlen get < _
    omega)
  have h1 : m ≤ objlen get := by
    by_contra hlt
    rw [hsome _ (by omega) (by omega)] at hborder
    cases hborder
  have h2 : objlen get ≤ m := by
    by_contra hlt
    have hin := hbefore (m + 1) (by omega) (by show m + 1 ≤ objlen get; omega)
    rw [hnil _ fun i _ hi heq => by have := LuaKey.index_injective heq; omega] at hin
    cases hin
  omega

/-! ## Trees -/

/-- A basic packer that pushes a value decodes to it. -/
theorem BasicUnpack.ofUnpack {f : LuaStack → Option (Nat × LuaStack)} (h : BasicUnpack f)
    {k : Nat} {v : LuaValue} (hf : f [] = some (k, [v])) : Dec.ofUnpack (f []) = some (v, k) := by
  obtain ⟨n, w, hw⟩ | hz := h
  · rw [hw] at hf ⊢
    cases hf
    rfl
  · rw [hz] at hf
    cases hf

mutual

/-- **The decoder inverts the encoder** on the values of a type, whatever follows
the bytes. -/
theorem ArgTree.decode_encode (lua : Lua) : ∀ (d : ArgTree), d.WF →
    ∀ (v : LuaValue) (bufLen : Int) (out extra : List UInt8), bufLen < 2147483648 →
    d.InDomain v → d.encode lua v bufLen = .ok out →
    ∃ w, d.decode (out ++ extra) = some (w, out.length) ∧ d.Agrees v w
  | .number, _, v, bufLen, out, extra, _, hdom, henc => by
      obtain ⟨i, hi, rfl⟩ := hdom
      exact ⟨_, (basicUnpack_number _).ofUnpack (number_round_trip lua hi henc extra), rfl⟩
  | .byte, _, v, bufLen, out, extra, _, hdom, henc => by
      obtain ⟨i, hi, rfl⟩ := hdom
      have hconv : id (((i % 4294967296).toNat % 256 ^ 1 : Nat) : Int) = i := by
        rw [id]; omega
      have hrt := fixed_round_trip 1 id lua (by omega) hconv henc extra
      exact ⟨_, (basicUnpack_fixed 1 (by omega) id _).ofUnpack hrt, rfl⟩
  | .word, _, v, bufLen, out, extra, _, hdom, henc => by
      obtain ⟨i, hi, rfl⟩ := hdom
      have hconv : wrap16 (((i % 4294967296).toNat % 256 ^ 2 : Nat) : Int) = i := by
        unfold wrap16; omega
      have hrt := fixed_round_trip 2 wrap16 lua (by omega) hconv henc extra
      exact ⟨_, (basicUnpack_fixed 2 (by omega) wrap16 _).ofUnpack hrt, rfl⟩
  | .dword, _, v, bufLen, out, extra, _, hdom, henc => by
      obtain ⟨i, hi, rfl⟩ := hdom
      have hconv : wrap32 (((i % 4294967296).toNat % 256 ^ 4 : Nat) : Int) = i := by
        unfold wrap32; omega
      have hrt := fixed_round_trip 4 wrap32 lua hi hconv henc extra
      exact ⟨_, (basicUnpack_fixed 4 (by omega) wrap32 _).ofUnpack hrt, rfl⟩
  | .string, _, v, bufLen, out, extra, hbuf, hdom, henc => by
      obtain ⟨s, rfl⟩ := hdom
      exact ⟨_, (basicUnpack_string _).ofUnpack (string_round_trip lua s hbuf henc extra), rfl⟩
  | .array b size, hwf, v, bufLen, out, extra, hbuf, hdom, henc => by
      have hbase := fun v bufLen out extra => b.decode_encode lua hwf v bufLen out extra
      obtain ⟨get, rfl, hdom⟩ := hdom
      simp only [ArgTree.encode] at henc
      by_cases hsize : size = 0
      · rw [if_pos hsize] at henc hdom
        obtain ⟨m, helem, hnil⟩ := hdom
        split at henc
        · cases henc
        rename_i hle
        split at henc
        · cases henc
        obtain ⟨b1, b2, h1, h2, rfl⟩ := Enc.seq_ok henc
        cases h1
        obtain rfl := objlen_sequence (fun i h1 hi => (helem i h1 hi).isNil_eq_false) hnil
          (by omega)
        obtain ⟨t', hdec, hagree, hframe⟩ := arrayDecode_encode hbase get _ 1 _ b2 extra
          (fun _ => .nil) (by omega) (fun j h1 hj => helem j h1 (by omega)) h2
        refine ⟨.table t', ?_, get, t', rfl, rfl, ?_⟩
        · have hlen : (UInt8.ofNat (objlen get)).toNat = objlen get := by
            rw [UInt8.toNat_ofNat']
            omega
          simp only [leBytes, List.cons_append, List.nil_append, ArgTree.decode, hsize, if_true,
            hlen, hdec]
          simp [Nat.add_comm]
        · rw [if_pos hsize]
          intro key
          by_cases hkey : ∀ i, 1 ≤ i → i ≤ objlen get → key ≠ .index i
          · exact .inl ⟨hnil key hkey, hframe key fun j h1 hj => hkey j h1 (by omega)⟩
          · push Not at hkey
            obtain ⟨i, h1, hi, rfl⟩ := hkey
            exact .inr (hagree i h1 (by omega))
      · rw [if_neg hsize] at henc hdom
        obtain ⟨t', hdec, hagree, -⟩ := arrayDecode_encode hbase get size 1 bufLen out extra
          (fun _ => .nil) hbuf (fun j h1 hj => hdom j h1 (by omega)) henc
        refine ⟨.table t', ?_, get, t', rfl, rfl, ?_⟩
        · simp [ArgTree.decode, hsize, hdec]
        · rw [if_neg hsize]
          exact fun i h1 hi => hagree i h1 (by omega)
  | .table ty h fs, hwf, v, bufLen, out, extra, hbuf, hdom, henc => by
      obtain ⟨get, rfl, hdom⟩ := hdom
      obtain ⟨t', hdec, hagree, -⟩ :=
        fs.decode_encode lua hwf get bufLen out extra (fun _ => .nil) hbuf hdom henc
      exact ⟨.table t', by simp [ArgTree.decode, hdec], get, t', rfl, rfl, hagree⟩

/-- The decoder of fields inverts their encoder and changes no other key. -/
theorem FieldTree.decode_encode (lua : Lua) : ∀ (fs : FieldTree), fs.WF →
    ∀ (get : LuaKey → LuaValue) (bufLen : Int) (out extra : List UInt8)
      (t : LuaKey → LuaValue), bufLen < 2147483648 →
    fs.InDomain get → fs.encode lua get bufLen = .ok out →
    ∃ t', fs.decode (out ++ extra) t = some (t', out.length) ∧ fs.Agrees get t' ∧
      ∀ key ∉ fs.keys, t' key = t key
  | .nil, _, get, bufLen, out, extra, t, _, _, henc => by
      cases henc
      exact ⟨t, rfl, trivial, fun key _ => rfl⟩
  | .leaf k a rest, hwf, get, bufLen, out, extra, t, hbuf, hdom, henc => by
      obtain ⟨hfresh, hwfa, hwfrest⟩ := hwf
      obtain ⟨b1, b2, h1, h2, rfl⟩ := Enc.seq_ok henc
      obtain ⟨h1, n, hn⟩ := Enc.nonempty_ok h1
      obtain ⟨w, hw, hagree⟩ :=
        a.decode_encode lua hwfa (get k) bufLen b1 (b2 ++ extra) hbuf hdom.1 h1
      obtain ⟨t', hdec, hrest, hframe⟩ := rest.decode_encode lua hwfrest get _ b2 extra
        (Function.update t k w) (by omega) hdom.2 h2
      refine ⟨t', ?_, ⟨?_, hrest⟩, fun key hkey => ?_⟩
      · rw [List.append_assoc, FieldTree.decode, hw, hn]
        simp only
        rw [← hn, List.drop_left, hdec]
        simp [List.length_append]
      · rw [hframe k hfresh, Function.update_self]
        exact hagree
      · simp only [FieldTree.keys, List.mem_cons, not_or] at hkey
        rw [hframe key hkey.2, Function.update_of_ne hkey.1]
  | .sub k fs rest, hwf, get, bufLen, out, extra, t, hbuf, hdom, henc => by
      obtain ⟨hfresh, hwfs, hwfrest⟩ := hwf
      obtain ⟨⟨sub, hsub, hdoms⟩, hdomrest⟩ := hdom
      simp only [FieldTree.encode, hsub] at henc
      obtain ⟨b1, b2, h1, h2, rfl⟩ := Enc.seq_ok henc
      obtain ⟨s', hdecs, hagree, -⟩ := fs.decode_encode lua hwfs sub bufLen b1 (b2 ++ extra)
        (fun _ => .nil) hbuf hdoms h1
      obtain ⟨t', hdec, hrest, hframe⟩ := rest.decode_encode lua hwfrest get _ b2 extra
        (Function.update t k (.table s')) (by omega) hdomrest h2
      refine ⟨t', ?_, ⟨⟨sub, s', hsub, ?_, hagree⟩, hrest⟩, fun key hkey => ?_⟩
      · rw [List.append_assoc, FieldTree.decode, hdecs]
        simp only
        rw [List.drop_left, hdec]
        simp [List.length_append]
      · rw [hframe k hfresh, Function.update_self]
      · simp only [FieldTree.keys, List.mem_cons, not_or] at hkey
        rw [hframe key hkey.2, Function.update_of_ne hkey.1]

end

/-! ## Packers -/

/-- A call of `pack` that returns a positive number wrote what the encoder says. -/
theorem Enc.lift_pos {e : Enc} {L L' : LuaStack} {k : Int} {out : List UInt8}
    (h : e.lift L = .ret k out L') (hk : 0 < k) : e = .ok out ∧ k = out.length ∧ L' = L := by
  match e with
  | .error .raise => cases h
  | .error .fault => cases h
  | .error (.zero _) =>
    cases h
    omega
  | .ok bytes =>
    cases h
    simp

/-- **Round trip of the argument codec.** Every packer that `fcall_arg_manager` holds
is the packer of a well-formed type, and for every well-formed type: if `pack` of a
value of the type returns `k > 0`, it wrote `k` bytes and left the stack as it was, and
`unpack` of these bytes, whatever follows them, returns `k` and pushes an equal value. -/
theorem pack_unpack_round_trip (lua : Lua) :
    (∀ reg, Registered lua reg → ∀ a ∈ reg, ∃ d : ArgTree, d.WF ∧ d.arg = a) ∧
    ∀ d : ArgTree, d.WF → ∀ (L : LuaStack) (v : LuaValue) (bufLen k : Int) (out : List UInt8)
      (L' : LuaStack), bufLen < 2147483648 → d.InDomain v →
      d.arg.pack lua L v bufLen = .ret k out L' → 0 < k →
      (k = out.length ∧ L' = L) ∧ ∀ (extra : List UInt8) (M : LuaStack),
        ∃ w, d.arg.unpack M (out ++ extra) = some (out.length, w :: M) ∧ d.Agrees v w := by
  refine ⟨fun reg hreg a ha => registered_isTree hreg a ha, ?_⟩
  intro d hwf L v bufLen k out L' hbuf hdom hpack hk
  rw [d.pack_arg lua L v bufLen hbuf] at hpack
  obtain ⟨henc, hlen, hstack⟩ := Enc.lift_pos hpack hk
  refine ⟨⟨hlen, hstack⟩, fun extra M => ?_⟩
  obtain ⟨w, hdec, hagree⟩ := d.decode_encode lua hwf v bufLen out extra hbuf hdom henc
  have hun := d.unpack_arg M (out ++ extra)
  rw [hdec] at hun
  exact ⟨w, hun, hagree⟩

/-- A table type with a number and a nested table that holds an array of bytes. -/
def nestedType : ArgTree :=
  .table (cstr "T") [] (.leaf (.string (cstr "n")) .number
    (.sub (.string (cstr "s")) (.leaf (.index 1) (.array .byte 0) .nil) .nil))

/-- The array of that value: `{7}`. -/
def nestedBytes (key : LuaKey) : LuaValue := if key = .index 1 then .ofInt 7 else .nil

/-- A value of that type: `{n = -300, s = {{7}}}`. -/
def nestedValue : LuaValue :=
  .table fun key =>
    if key = .string (cstr "n") then .ofInt (-300)
    else if key = .string (cstr "s") then
      .table fun key => if key = .index 1 then .table nestedBytes else .nil
    else .nil

theorem nestedType_wf : nestedType.WF := by
  simp [nestedType, ArgTree.WF, FieldTree.WF, FieldTree.keys, cstr]

theorem nestedValue_inDomain : nestedType.InDomain nestedValue := by
  have hbytes : (ArgTree.array .byte 0).InDomain (.table nestedBytes) := by
    refine ⟨_, rfl, ?_⟩
    rw [if_pos rfl]
    refine ⟨1, fun i h1 hi => ?_, fun key hkey => ?_⟩
    · obtain rfl : i = 1 := by omega
      exact ⟨7, by omega, rfl⟩
    · exact if_neg (hkey 1 (by omega) (by omega))
  exact ⟨_, rfl, ⟨-300, by omega, rfl⟩, ⟨_, rfl, hbytes, trivial⟩, trivial⟩

/-- The round trip at that value. -/
theorem pack_unpack_round_trip_nested :
    nestedType.arg.pack .x86 [] nestedValue 64 = .ret 5 [5, 44, 1, 1, 7] [] ∧
    ∃ w, nestedType.arg.unpack [] ([5, 44, 1, 1, 7] ++ [9]) = some (5, [w]) ∧
      nestedType.Agrees nestedValue w := by
  have hpack : nestedType.arg.pack .x86 [] nestedValue 64 = .ret 5 [5, 44, 1, 1, 7] [] := by
    rfl
  exact ⟨hpack, ((pack_unpack_round_trip .x86).2 nestedType nestedType_wf [] nestedValue 64 5 _ []
    (by omega) nestedValue_inDomain hpack (by omega)).2 [9] []⟩

end Donkeyji.Mydb
