/-
Donkeyji.Mydb.BoundTheorems — how far `unpack` looks and `pack` writes.

`unpack` looks at the bytes it takes and at no other (`ArgTree.local_decode`),
so it stays inside its buffer.
-/
import Donkeyji.Lib.Decoder
import Donkeyji.Mydb.ArgTreeTheorems
import Donkeyji.Mydb.Items

namespace Donkeyji.Mydb

open Memory
open Decoder (Local local_pure local_none local_take local_cons take)

/-! ## unpack -/

theorem ofUnpack_pos (n : Nat) (v : LuaValue) (L : LuaStack) :
    Dec.ofUnpack (some (1 + n, v :: L)) = some (v, 1 + n) := by
  rw [Nat.add_comm]
  rfl

theorem local_number : Local fun buf => Dec.ofUnpack (numberUnpack [] buf) := by
  refine local_cons (g := fun b =>
    if b.toNat / 2 = 0 ∨ 5 ≤ b.toNat / 2 then fun _ => none
    else take (b.toNat / 2) fun bytes =>
      .ofInt (if b.toNat % 2 = 1 then wrap32 (-wrap32 (leNat bytes)) else wrap32 (leNat bytes)))
    ?_ rfl ?_
  · intro b
    split
    · exact local_none
    · exact local_take _ _
  · intro b rest
    simp only [numberUnpack_cons]
    by_cases hlen : b.toNat / 2 = 0 ∨ 5 ≤ b.toNat / 2
    · rw [if_pos (by omega), if_pos hlen]
      rfl
    · rw [if_neg hlen, take]
      by_cases hroom : rest.length < b.toNat / 2
      · rw [if_pos (by omega), if_pos hroom]
        rfl
      · rw [if_neg (by omega), if_neg hroom, ofUnpack_pos]
        rfl

theorem local_fixed (width : Nat) (conv : Int → Int) :
    Local fun buf => Dec.ofUnpack (fixedUnpack (width + 1) conv [] buf) := by
  convert local_take (width + 1) (fun bytes => LuaValue.ofInt (conv (leNat bytes))) using 2 with buf
  rw [fixedUnpack_eq, take]
  split <;> rfl

theorem local_string : Local fun buf => Dec.ofUnpack (stringUnpack [] buf) := by
  refine local_cons (g := fun b =>
    if 0 < b.toNat then take (b.toNat - 1) .string
    else fun buf => (take 2 leNat buf).bind fun r =>
      ((if r.1 = 0 then fun _ => none else take (r.1 - 1) .string) (buf.drop r.2)).map
        fun q => (q.1, r.2 + q.2)) ?_ rfl ?_
  · intro b
    split
    · exact local_take _ _
    · refine (local_take 2 leNat).bind (g := fun n =>
        if n = 0 then fun _ => none else take (n - 1) LuaValue.string) fun n => ?_
      split
      · exact local_none
      · exact local_take _ _
  · intro b rest
    by_cases hb : 0 < b.toNat
    · simp only [stringUnpack_short _ _ _ hb, if_pos hb, take]
      split
      · rfl
      · exact ofUnpack_pos _ _ _
    · obtain rfl : b = 0 := UInt8.toNat_inj.mp (by simpa using hb)
      simp only [stringUnpack_long, if_neg hb, take]
      by_cases hshort : rest.length < 2
      · rw [if_pos (by omega), if_pos hshort]
        rfl
      · simp only [if_neg hshort, Option.bind_some]
        generalize leNat (rest.take 2) = n
        by_cases hzero : n = 0
        · rw [if_pos (by omega), if_pos hzero]
          rfl
        · rw [if_neg hzero, take]
          by_cases hroom : rest.length < 2 + (n - 1)
          · rw [if_pos (by omega), if_pos (by rw [List.length_drop]; omega)]
            rfl
          · rw [if_neg (by omega), if_neg (by rw [List.length_drop]; omega),
              show 3 + (n - 1) = 1 + (2 + (n - 1)) by omega, ofUnpack_pos]
            rfl

/-- An element or a field is a value that takes a byte, and what follows it. -/
theorem local_element {α : Type} {f : List UInt8 → Dec LuaValue} (hf : Local f)
    {g : LuaValue → List UInt8 → Dec α} (hg : ∀ v, Local (g v)) :
    Local fun buf =>
      match f buf with
      | some (v, n + 1) => (g v (buf.drop (n + 1))).map fun r => (r.1, n + 1 + r.2)
      | _ => none := by
  convert hf.nonempty.bind hg using 2 with buf
  rw [Decoder.nonempty]
  cases f buf with
  | none => rfl
  | some r =>
    obtain ⟨v, n⟩ := r
    cases n with
    | zero => rfl
    | succ n => simp [Option.filter]

theorem local_arrayDecode {base : List UInt8 → Dec LuaValue} (hbase : Local base) :
    ∀ (todo i : Nat) (t : LuaKey → LuaValue), Local fun buf => arrayDecode base todo i buf t
  | 0, _, t => local_pure t
  | todo + 1, i, t =>
    local_element hbase fun v => local_arrayDecode hbase todo (i + 1) (Function.update t (.index i) v)

mutual

/-- **A value is decoded from the bytes it takes.** -/
theorem ArgTree.local_decode : ∀ d : ArgTree, Local d.decode
  | .number => local_number
  | .byte => local_fixed 0 id
  | .word => local_fixed 1 wrap16
  | .dword => local_fixed 3 wrap32
  | .string => local_string
  | .array b size => by
      have hloop := fun todo => local_arrayDecode b.local_decode todo 1 fun _ => .nil
      by_cases hsize : size = 0
      · refine local_cons (g := fun n buf => (arrayDecode b.decode n.toNat 1 buf fun _ => .nil).map
          fun r => (.table r.1, r.2)) (fun n => (hloop n.toNat).map LuaValue.table) ?_ ?_
        · simp only [ArgTree.decode, if_pos hsize]
        · intro n rest
          simp only [ArgTree.decode, if_pos hsize, Option.map_map, Function.comp_def]
      · simpa only [ArgTree.decode, if_neg hsize] using (hloop size).map LuaValue.table
  | .table _ _ fs => (fs.local_decode fun _ => .nil).map LuaValue.table

theorem FieldTree.local_decode : ∀ (fs : FieldTree) (t : LuaKey → LuaValue),
    Local fun buf => fs.decode buf t
  | .nil, t => local_pure t
  | .leaf key a rest, t =>
    local_element a.local_decode fun v => rest.local_decode (Function.update t key v)
  | .sub key fs rest, t => by
      convert (fs.local_decode fun _ => .nil).bind fun sub =>
        rest.local_decode (Function.update t key (.table sub)) using 2 with buf
      simp only [FieldTree.decode]
      cases fs.decode buf fun _ => .nil with
      | none => rfl
      | some r => rfl

end

/-! ## Items -/

/-- A sequence depends on its parts in the room they are given. -/
theorem Enc.seq_congr {b b' r r' : Int → Enc} {n : Int} (hb : b n = b' n)
    (hr : ∀ k ≤ n, r k = r' k) : Enc.seq b r n = Enc.seq b' r' n := by
  unfold Enc.seq
  rw [hb]
  cases b' n with
  | error e => rfl
  | ok bytes => simp only [hr (n - bytes.length) (by omega)]

theorem Enc.seq_assoc (a b c : Int → Enc) (n : Int) :
    Enc.seq (fun n => Enc.seq a b n) c n = Enc.seq a (fun n => Enc.seq b c n) n := by
  simp only [Enc.seq]
  cases a n with
  | error e => rfl
  | ok xs =>
    simp only
    cases b (n - xs.length) with
    | error e => cases e <;> rfl
    | ok ys =>
      simp only [List.length_append, Nat.cast_add, sub_add_eq_sub_sub]
      cases c (n - xs.length - ys.length) with
      | error e => cases e <;> simp
      | ok zs => simp

theorem Enc.seq_nil (r : Int → Enc) (n : Int) : Enc.seq (fun _ => .ok []) r n = r n := by
  simp only [Enc.seq, List.length_nil, Nat.cast_zero, sub_zero]
  cases r n with
  | error e => cases e <;> rfl
  | ok out => rfl

theorem runItems_append (items items' : List Item) (n : Int) :
    runItems (items ++ items') n = Enc.seq (runItems items) (runItems items') n := by
  induction items generalizing n with
  | nil => exact (Enc.seq_nil _ n).symm
  | cons item items ih =>
    cases item with
    | bytes b bs =>
      have hrest : runItems (items ++ items') = fun n => Enc.seq (runItems items) (runItems items') n :=
        funext ih
      rw [List.cons_append, runItems, hrest, ← Enc.seq_assoc]
      rfl
    | raise => rfl
    | zero => rfl
    | overlong usedLen =>
      simp only [List.cons_append, runItems, Enc.seq]
      split <;> rfl

/-- An element or a field without items is one without bytes. -/
theorem runItems_nonempty (items : List Item) (n : Int) :
    (runItems items n).nonempty = runItems (nonemptyItems items) n := by
  cases items with
  | nil => rfl
  | cons item items =>
    rw [nonemptyItems]
    cases item with
    | bytes b bs =>
      rw [runItems, Enc.seq]
      split
      · rename_i h
        split at h
        · cases h
          rfl
        · cases h
      · rename_i h
        split at h
        · cases h
        · cases h
          cases runItems items (n - (b :: bs).length) with
          | error e => cases e <;> rfl
          | ok out => rfl
    | raise => rfl
    | zero => rfl
    | overlong usedLen =>
      rw [runItems]
      split <;> rfl
    · simp

theorem runItems_singleton (b : UInt8) (bs : List UInt8) (n : Int) :
    runItems [.bytes b bs] n =
      if (b :: bs).length > n then .error (.zero []) else .ok (b :: bs) := by
  rw [runItems, Enc.seq]
  by_cases hroom : ((b :: bs).length : Int) > n
  · simp only [if_pos hroom]
  · simp only [if_neg hroom, runItems, List.append_nil]

theorem numberPack_item (lua : Lua) (v : LuaValue) (n : Int) :
    Enc.ofPackOut (numberPack lua () v n) = runItems [numberItem lua v] n := by
  unfold numberPack numberItem
  cases lua.checkInt v with
  | none => rfl
  | some num =>
    simp only [runItems_singleton, List.length_cons, length_leBytes]
    generalize ((if num < 0 then -num else num) % 4294967296).toNat = data
    generalize (if num < 0 then 1 else 0) = isNegative
    generalize numberLen data = len
    by_cases hroom : 1 + (len : Int) > n
    · rw [if_pos hroom, if_pos (by omega)]
      rfl
    · rw [if_neg hroom, if_neg (by omega), emit, if_pos (by simp; omega), Enc.ofPackOut,
        if_neg (by omega)]
      rfl

theorem fixedPack_item (width : Nat) (lua : Lua) (v : LuaValue) (n : Int) :
    Enc.ofPackOut (fixedPack (width + 1) lua () v n) = runItems [fixedItem width lua v] n := by
  unfold fixedPack fixedItem
  cases lua.checkInt v with
  | none => rfl
  | some num =>
    simp only [runItems_singleton, List.length_cons, length_leBytes]
    generalize (num % 4294967296).toNat = data
    by_cases hroom : ((width + 1 : Nat) : Int) > n
    · rw [if_pos hroom, if_pos hroom]
      rfl
    · rw [if_neg hroom, if_neg hroom, emit, if_pos (by rw [length_leBytes]; omega), Enc.ofPackOut,
        if_neg (by omega)]
      rfl

theorem stringPack_item (lua : Lua) (v : LuaValue) {n : Int} (hn : n < 2147483648) :
    Enc.ofPackOut (stringPack lua () v n) = runItems [stringItem lua v] n := by
  unfold stringPack stringItem
  cases lua.checklstring v with
  | none => rfl
  | some data =>
    simp only
    by_cases hlong : 2147483647 ≤ data.length
    · -- more is written than fits into any buffer
      have hfault : ∀ used bytes, 2147483648 ≤ (bytes : List UInt8).length →
          Enc.ofPackOut (emit n used bytes ()) = .error .fault := by
        intro used bytes hlen
        rw [emit, if_neg (by omega)]
        rfl
      rw [if_pos hlong]
      generalize wrap32 (wrap32 data.length + 1) = strId
      by_cases hbyte : strId ≤ 0xff
      · have hfits : ¬ strId > 0xffff := by omega
        rw [if_pos hbyte, if_neg hfits, if_pos hbyte, runItems]
        split
        · rfl
        · exact hfault _ _ (by simp; omega)
      · rw [if_neg hbyte, if_neg hbyte]
        by_cases hword : strId ≤ 0xffff
        · have hfits : ¬ strId > 0xffff := by omega
          rw [if_pos hword, if_neg hfits, runItems]
          split
          · rfl
          · exact hfault _ _ (by simp; omega)
        · rw [if_neg hword, if_pos (by omega)]
          rfl
    · have hid : wrap32 (wrap32 data.length + 1) = (data.length + 1 : Nat) := by
        rw [wrap32_succ (by omega), Nat.cast_add, Nat.cast_one]
      have hbytes : (((data.length + 1 : Nat) : Int) % 4294967296).toNat = data.length + 1 := by
        omega
      rw [hid, hbytes, if_neg hlong]
      by_cases hbyte : data.length + 1 ≤ 0xff
      · have hfits : ¬ ((data.length + 1 : Nat) : Int) > 0xffff := by omega
        rw [if_pos (by omega), if_neg hfits, if_pos hbyte, runItems_singleton,
          wrap32_of_bounds (by omega) (by omega), List.length_cons, Nat.cast_add, Nat.cast_one]
        by_cases hroom : (data.length : Int) + 1 > n
        · rw [if_pos hroom, if_pos hroom]
          rfl
        · rw [if_neg hroom, if_neg hroom, emit, if_pos (by simp; omega), Enc.ofPackOut,
            if_neg (by omega)]
          rfl
      · rw [if_neg (by omega), if_neg hbyte]
        by_cases hword : data.length + 1 ≤ 0xffff
        · have hfits : ¬ ((data.length + 1 : Nat) : Int) > 0xffff := by omega
          rw [if_pos (by omega), if_neg hfits, runItems_singleton,
            wrap32_of_bounds (by omega) (by omega), List.length_cons, List.length_append,
            length_leBytes]
          by_cases hroom : (data.length : Int) + 3 > n
          · rw [if_pos hroom, if_pos (by omega)]
            rfl
          · rw [if_neg hroom, if_neg (by omega), emit, if_pos (by simp; omega), Enc.ofPackOut,
              if_neg (by omega)]
            rfl
        · rw [if_neg (by omega), if_pos (by omega)]
          rfl

theorem arrayEncode_items {base : LuaValue → Int → Enc} {items : LuaValue → List Item}
    (hbase : ∀ v n, n < 2147483648 → base v n = runItems (items v) n)
    (get : LuaKey → LuaValue) (todo i : Nat) (n : Int) (hn : n < 2147483648) :
    arrayEncode base get todo i n =
      runItems ((List.range' i todo).flatMap fun i => nonemptyItems (items (get (.index i)))) n := by
  induction todo generalizing i n with
  | zero => rfl
  | succ todo ih =>
    rw [List.range'_succ, List.flatMap_cons, runItems_append]
    refine Enc.seq_congr ?_ fun k hk => ?_
    · rw [hbase _ n hn, runItems_nonempty]
    · exact ih (i + 1) k (by omega)

mutual

/-- **A value is encoded item by item.** -/
theorem ArgTree.encode_items (lua : Lua) : ∀ (d : ArgTree) (v : LuaValue) (n : Int),
    n < 2147483648 → d.encode lua v n = runItems (d.items lua v) n
  | .number, v, n, _ => numberPack_item lua v n
  | .byte, v, n, _ => fixedPack_item 0 lua v n
  | .word, v, n, _ => fixedPack_item 1 lua v n
  | .dword, v, n, _ => fixedPack_item 3 lua v n
  | .string, v, n, hn => stringPack_item lua v hn
  | .array b size, v, n, hn => by
      have hloop := fun get todo i k hk => arrayEncode_items (b.encode_items lua) get todo i k hk
      cases v with
      | table get =>
        by_cases hsize : size = 0
        · simp only [ArgTree.encode, ArgTree.items, if_pos hsize]
          by_cases hlong : objlen get > 255
          · rw [if_pos hlong, if_pos hlong]
            rfl
          · rw [if_neg hlong, if_neg hlong, runItems]
            by_cases hroom : 1 > n
            · simp only [if_pos hroom, Enc.seq, List.length_singleton, Nat.cast_one]
            · rw [if_neg hroom]
              refine Enc.seq_congr ?_ fun k hk => hloop get _ 1 k (by omega)
              simp only [List.length_singleton, Nat.cast_one, if_neg hroom]
              rfl
        · simp only [ArgTree.encode, ArgTree.items, if_neg hsize]
          exact hloop get size 1 n hn
      | _ => rfl
  | .table _ _ fs, v, n, hn => by
      cases v with
      | table get => exact fs.encode_items lua get n hn
      | _ => rfl

theorem FieldTree.encode_items (lua : Lua) : ∀ (fs : FieldTree) (get : LuaKey → LuaValue) (n : Int),
    n < 2147483648 → fs.encode lua get n = runItems (fs.items lua get) n
  | .nil, get, n, _ => rfl
  | .leaf key a rest, get, n, hn => by
      rw [FieldTree.encode, FieldTree.items, runItems_append]
      refine Enc.seq_congr ?_ fun k hk => rest.encode_items lua get k (by omega)
      rw [a.encode_items lua (get key) n hn, runItems_nonempty]
  | .sub key fs rest, get, n, hn => by
      rw [FieldTree.encode, FieldTree.items]
      cases get key with
      | table sub =>
        simp only [runItems_append]
        exact Enc.seq_congr (fs.encode_items lua sub n hn)
          fun k hk => rest.encode_items lua get k (by omega)
      | _ => rfl

end

/-! ## The bounds -/

/-- An encoding in a buffer with room for `n` bytes writes no other. -/
def Enc.Stays (e : Enc) (n : Int) : Prop :=
  match e with
  | .ok out => out.length ≤ n
  | .error (.zero out) => out.length ≤ n
  | .error .raise => True
  | .error .fault => False

/-- The rest of a sequence has the room that its first part leaves. -/
theorem Enc.seq_stays (bytes : List UInt8) (r : Int → Enc) (n : Int) :
    (Enc.seq (fun _ => .ok bytes) r n).Stays n ↔
      (r (n - bytes.length)).Stays (n - bytes.length) := by
  simp only [Enc.seq]
  cases r (n - bytes.length) with
  | ok more =>
    simp only [Enc.Stays, List.length_append, Nat.cast_add]
    omega
  | error e =>
    cases e with
    | zero out =>
      simp only [Enc.Stays, List.length_append, Nat.cast_add]
      omega
    | raise => exact Iff.rfl
    | fault => exact Iff.rfl

/-- Bytes are passed if there is room for them. -/
theorem overruns_bytes {b : UInt8} {bs : List UInt8} {items : List Item} {n : Int} :
    Overruns (.bytes b bs :: items) n ↔
      ((b :: bs).length : Int) ≤ n ∧ Overruns items (n - (b :: bs).length) := by
  constructor
  · intro h
    obtain ⟨pre, used, post, k, heq, hneeds, hk, hused⟩ := h
    cases pre with
    | nil => cases heq
    | cons item pre =>
      obtain ⟨rfl, rfl⟩ := List.cons.inj heq
      obtain ⟨k', hk', rfl⟩ := Option.map_eq_some_iff.mp hneeds
      rw [List.length_cons]
      exact ⟨by omega, pre, used, post, k', rfl, hk', by omega, by omega⟩
  · intro h
    obtain ⟨hroom, pre, used, post, k, rfl, hneeds, hk, hused⟩ := h
    rw [List.length_cons] at hroom hk hused
    exact ⟨.bytes b bs :: pre, used, post, bs.length + 1 + k, rfl, by rw [needs, hneeds]; rfl,
      by omega, by omega⟩

/-- Nothing is behind an item that ends the call. -/
theorem overruns_other {item : Item} {items : List Item} {n : Int} (hitem : needs [item] = none) :
    Overruns (item :: items) n ↔ ∃ used, item = .overlong used ∧ 0 ≤ n ∧ used ≤ n := by
  constructor
  · intro h
    obtain ⟨pre, used, post, k, heq, hneeds, hk, hused⟩ := h
    cases pre with
    | nil =>
      obtain ⟨rfl, rfl⟩ := List.cons.inj heq
      cases hneeds
      exact ⟨used, rfl, hk, by omega⟩
    | cons item' pre =>
      obtain ⟨rfl, rfl⟩ := List.cons.inj heq
      cases item <;> simp [needs] at hneeds hitem
  · intro h
    obtain ⟨used, rfl, hn, hused⟩ := h
    exact ⟨[], used, items, 0, rfl, rfl, hn, by omega⟩

/-- The items stay inside the buffer exactly if no string overruns it. -/
theorem runItems_stays (items : List Item) (n : Int) (hn : 0 ≤ n) :
    (runItems items n).Stays n ↔ ¬ Overruns items n := by
  induction items generalizing n with
  | nil =>
    refine iff_of_true (by simpa [runItems, Enc.Stays] using hn) ?_
    intro h
    obtain ⟨pre, used, post, k, heq, -⟩ := h
    simp at heq
  | cons item items ih =>
    cases item with
    | bytes b bs =>
      rw [overruns_bytes, runItems]
      by_cases hroom : ((b :: bs).length : Int) > n
      · rw [Enc.seq, if_pos hroom]
        exact iff_of_true hn fun h => absurd h.1 (by omega)
      · have hfirst : Enc.seq (fun n => if (b :: bs).length > n then .error (.zero []) else .ok (b :: bs))
            (runItems items) n = Enc.seq (fun _ => .ok (b :: bs)) (runItems items) n :=
          Enc.seq_congr (if_neg hroom) fun k hk => rfl
        rw [hfirst, Enc.seq_stays, ih _ (by omega)]
        exact not_congr ⟨fun h => ⟨by omega, h⟩, fun h => h.2⟩
    | raise =>
      rw [overruns_other rfl]
      exact iff_of_true trivial (by simp)
    | zero =>
      rw [overruns_other rfl]
      exact iff_of_true hn (by simp)
    | overlong used =>
      rw [overruns_other rfl, runItems]
      by_cases hroom : used > n
      · rw [if_pos hroom]
        refine iff_of_true hn ?_
        intro h
        obtain ⟨used', heq, -, hle⟩ := h
        cases heq
        omega
      · rw [if_neg hroom]
        exact iff_of_false id (not_not.mpr ⟨used, rfl, hn, by omega⟩)

/-- `pack` raises, or returns 0, or has written the first `n` bytes; and nothing outside the
buffer. -/
def PackStays (r : PackOut LuaStack) (bufLen : Int) : Prop :=
  match r with
  | .raise => True
  | .fault => False
  | .ret n out _ => (n = 0 ∧ out.length ≤ bufLen) ∨ (1 ≤ n ∧ n ≤ bufLen ∧ out.length = n)

/-- `unpack` takes `n` bytes, and they alone decide the result; or it fails, inside the
buffer. -/
def UnpackStays (d : ArgTree) (L : LuaStack) (buf : List UInt8) : Prop :=
  match d.decode buf with
  | some (v, n) => n ≤ buf.length ∧
      ∀ buf', buf.take n <+: buf' → d.arg.unpack L buf' = some (n, v :: L)
  | none => ∃ pre, d.arg.unpack L buf = some (0, pre ++ L)

theorem unpackStays (d : ArgTree) (L : LuaStack) (buf : List UInt8) : UnpackStays d L buf := by
  unfold UnpackStays
  cases hdec : d.decode buf with
  | none =>
    have hunpack := d.unpack_arg L buf
    rwa [hdec] at hunpack
  | some r =>
    obtain ⟨v, n⟩ := r
    refine ⟨d.local_decode.le hdec, fun buf' hbuf' => ?_⟩
    have hunpack := d.unpack_arg L buf'
    rwa [d.local_decode.congr hdec hbuf'] at hunpack

theorem lift_stays (e : Enc) (L : LuaStack) (n : Int) : PackStays (e.lift L) n ↔ e.Stays n := by
  match e with
  | .ok out =>
    simp only [Enc.lift, Enc.resume, PackStays, Enc.Stays, List.nil_append]
    omega
  | .error (.zero out) => simp [Enc.lift, Enc.resume, PackStays, Enc.Stays]
  | .error .raise => exact Iff.rfl
  | .error .fault => exact Iff.rfl

/-- **When the codec stays inside its buffer.** `unpack` always does. `pack` does exactly if no
string of 2^31 - 1 bytes or more comes up while there is room for what an `int` leaves of its
length. -/
theorem codec_stays_iff (lua : Lua) (d : ArgTree) (L : LuaStack) (v : LuaValue) (bufLen : Int)
    (hpos : 0 ≤ bufLen) (hint : bufLen < 2147483648) :
    (∀ buf, UnpackStays d L buf) ∧
      (PackStays (d.arg.pack lua L v bufLen) bufLen ↔ ¬ Overruns (d.items lua v) bufLen) := by
  refine ⟨unpackStays d L, ?_⟩
  rw [d.pack_arg lua L v bufLen hint, lift_stays, d.encode_items lua v bufLen hint]
  exact runItems_stays _ bufLen hpos

/-- A string of two bytes, in a buffer of four. -/
theorem codec_stays_iff_ab :
    PackStays (ArgTree.string.arg.pack Lua.x86 [] (.string [97, 98]) 4) 4 := by
  refine (codec_stays_iff Lua.x86 .string [] (.string [97, 98]) 4 (by decide) (by decide)).2.mpr ?_
  have hitems : ArgTree.string.items Lua.x86 (.string [97, 98]) = [.bytes 3 [97, 98]] := by
    simp only [ArgTree.items, stringItem, Lua.checklstring]
    rfl
  rw [hitems, overruns_bytes]
  intro h
  obtain ⟨pre, used, post, k, heq, -⟩ := h.2
  simp at heq

/-- **A long string overruns the buffer.** The length of 2^32 bytes is 0 in an `int`. -/
theorem long_string_overruns :
    ¬ PackStays (FcallArg.string.pack Lua.x86 [] (.string (List.replicate 4294967296 97)) 16) 16 := by
  have hlen : (List.replicate 4294967296 (97 : UInt8)).length = 4294967296 :=
    List.length_replicate
  generalize List.replicate 4294967296 (97 : UInt8) = data at hlen
  have hpack : FcallArg.string.pack Lua.x86 [] (.string data) 16 = .fault := by
    have hid : wrap32 (wrap32 (4294967296 : Nat) + 1) = 1 := by decide
    have hused : wrap32 ((4294967296 : Nat) + 1) = 1 := by decide
    simp only [FcallArg.pack, stringPack, Lua.checklstring, hlen, hid, hused, emit,
      List.length_append, length_leBytes]
    rfl
  rw [hpack]
  exact id

end Donkeyji.Mydb
