/-
Donkeyji.Mydb.ArgTreeTheorems — the packer objects compute the tree codec.

`pack_arg`: the packer of a tree returns, raises or faults exactly as the
recursive encoder says, and whenever it returns the Lua stack is the one it
was called with. `unpack_arg`: on success the packer of a tree pushes the
value the recursive decoder gives and reads as many bytes; on failure it
returns 0, with possibly something left above the caller's stack.

Both are proved together with the statement about the opcode loop, by
recursion on the tree: the loop on `fs.code k` does what the recursive codec
does on `fs` and goes on with `k`. `Enc.resume` is that "goes on with". The
last section shows that every registered packer is the packer of a tree.
-/
import Donkeyji.Mydb.ArgTree

namespace Donkeyji.Mydb

open Memory

/-! ## Packing -/

namespace Enc

/-- Continue a `pack` loop with `k` after the bytes of `e`, with `usedLen` bytes
used and `out` written before; a return of 0 restores the stack `L0`. -/
def resume (e : Enc) (usedLen : Int) (out : List UInt8)
    (k : Int → List UInt8 → PackOut LuaStack) (L0 : LuaStack) : PackOut LuaStack :=
  match e with
  | .ok bytes => k (usedLen + bytes.length) (out ++ bytes)
  | .error .raise => .raise
  | .error .fault => .fault
  | .error (.zero bytes) => .ret 0 (out ++ bytes) L0

/-- The outcome of a whole `pack` call on the stack `L`. -/
def lift (e : Enc) (L : LuaStack) : PackOut LuaStack :=
  e.resume 0 [] (fun n out => .ret n out L) L

/-- Two encodings in sequence are resumed one after the other. -/
theorem resume_seq (b r : Int → Enc) (bufLen usedLen : Int) (out : List UInt8)
    (k : Int → List UInt8 → PackOut LuaStack) (L0 : LuaStack) :
    (seq b r (bufLen - usedLen)).resume usedLen out k L0 =
      (b (bufLen - usedLen)).resume usedLen out
        (fun used out => (r (bufLen - used)).resume used out k L0) L0 := by
  unfold seq
  cases hb : b (bufLen - usedLen) with
  | error e => cases e <;> rfl
  | ok bytes =>
    have hsub : bufLen - usedLen - (bytes.length : Int) = bufLen - (usedLen + bytes.length) := by
      omega
    simp only [resume, hsub]
    cases hr : r (bufLen - (usedLen + bytes.length)) with
    | error e => cases e <;> simp [List.append_assoc]
    | ok more => simp [List.append_assoc, add_assoc]

/-- A call that returns 0 ends the loop it is made in. -/
theorem resume_nonempty (e : Enc) (usedLen : Int) (out : List UInt8)
    (k : Int → List UInt8 → PackOut LuaStack) (L0 L : LuaStack) (top : Nat)
    (htop : settop top L = L0) :
    (match e.lift L with
      | .raise => .raise
      | .fault => .fault
      | .ret n bytes L =>
        if n = 0 then .ret 0 (out ++ bytes) (settop top L) else k (usedLen + n) (out ++ bytes)) =
      e.nonempty.resume usedLen out k L0 := by
  match e with
  | .error .raise => rfl
  | .error .fault => rfl
  | .error (.zero bytes) => simp [lift, resume, nonempty, htop]
  | .ok [] => simp [lift, resume, nonempty, htop]
  | .ok (b :: bs) =>
    have hne : ¬ ((bs.length : Int) + 1 = 0) := by omega
    simp only [lift, resume, nonempty, List.length_cons, Nat.cast_add, Nat.cast_one, zero_add,
      List.nil_append, hne, if_false]

end Enc

theorem settop_of_suffix {L L0 : LuaStack} (h : L0 <:+ L) : settop L0.length L = L0 := by
  obtain ⟨pre, rfl⟩ := h
  exact settop_self_append pre L0

/-- `emit` reports what it wrote. -/
theorem lift_emit (bufLen usedLen : Int) (bytes : List UInt8) (L : LuaStack)
    (hn : (bytes.length : Int) ≤ bufLen → usedLen = bytes.length) (hb : bytes ≠ []) :
    emit bufLen usedLen bytes L = (Enc.ofPackOut (emit bufLen usedLen bytes ())).lift L := by
  have hpos : 0 < bytes.length := List.length_pos_iff.mpr hb
  unfold emit
  split
  · rename_i h
    obtain rfl := hn h
    have hne : ¬ ((bytes.length : Int) = 0) := by omega
    simp only [Enc.ofPackOut, hne, if_false, Enc.lift, Enc.resume, zero_add, List.nil_append]
  · rfl

theorem numberPack_lift (lua : Lua) (L : LuaStack) (v : LuaValue) (bufLen : Int) :
    numberPack lua L v bufLen = (Enc.ofPackOut (numberPack lua () v bufLen)).lift L := by
  unfold numberPack
  cases lua.checkInt v with
  | none => rfl
  | some num =>
    show (if _ then _ else emit _ _ _ _) = (Enc.ofPackOut (if _ then _ else emit _ _ _ _)).lift L
    generalize numberLen _ = len
    generalize ((if num < 0 then -num else num) % 4294967296).toNat = data
    generalize (if num < 0 then 1 else 0) = isNegative
    split
    · rfl
    · apply lift_emit
      · intro _
        rw [List.length_append, length_leBytes, length_leBytes]
        omega
      · simp [leBytes]

theorem fixedPack_lift (width : Nat) (hw : 0 < width) (lua : Lua) (L : LuaStack) (v : LuaValue)
    (bufLen : Int) :
    fixedPack width lua L v bufLen = (Enc.ofPackOut (fixedPack width lua () v bufLen)).lift L := by
  unfold fixedPack
  cases lua.checkInt v with
  | none => rfl
  | some num =>
    simp only
    split
    · rfl
    · apply lift_emit
      · intro _; rw [length_leBytes]
      · intro h
        have := congrArg List.length h
        rw [length_leBytes, List.length_nil] at this
        omega

theorem stringPack_lift (lua : Lua) (L : LuaStack) (v : LuaValue) {bufLen : Int}
    (hbuf : bufLen < 2147483648) :
    stringPack lua L v bufLen = (Enc.ofPackOut (stringPack lua () v bufLen)).lift L := by
  unfold stringPack
  cases lua.checklstring v with
  | none => rfl
  | some data =>
    simp only
    split
    · split
      · rfl
      · apply lift_emit
        · intro h
          rw [List.length_append, length_leBytes] at h ⊢
          rw [wrap32_of_bounds (by omega) (by omega)]
          omega
        · simp [leBytes]
    · split
      · split
        · rfl
        · apply lift_emit
          · intro h
            rw [List.length_append, List.length_cons, length_leBytes] at h ⊢
            rw [wrap32_of_bounds (by omega) (by omega)]
            omega
          · simp
      · rfl

/-- The element loop computes `arrayEncode`, if the base packer computes `base`. -/
theorem arrayPackLoop_eq {packBase : LuaStack → LuaValue → Int → PackOut LuaStack}
    {base : LuaValue → Int → Enc}
    (hbase : ∀ L v n, n < 2147483648 → packBase L v n = (base v n).lift L)
    (get : LuaKey → LuaValue) (L : LuaStack) (bufLen : Int) (hbuf : bufLen < 2147483648)
    (todo i : Nat) (usedLen : Int) (hused : 0 ≤ usedLen) (out : List UInt8) :
    arrayPackLoop packBase get L.length bufLen todo i usedLen out L =
      (arrayEncode base get todo i (bufLen - usedLen)).resume usedLen out
        (fun n out => .ret n out L) L := by
  induction todo generalizing i usedLen out with
  | zero => simp [arrayPackLoop, arrayEncode, Enc.resume]
  | succ todo ih =>
    rw [arrayPackLoop, hbase _ _ _ (by omega), arrayEncode, Enc.resume_seq,
      ← Enc.resume_nonempty _ _ _ _ L (get (.index i) :: L) L.length (by simp)]
    -- the same case analysis on both sides, with the loop in the last case
    generalize base (get (.index i)) (bufLen - usedLen) = e
    match e with
    | .error .raise => rfl
    | .error .fault => rfl
    | .error (.zero bytes) => simp [Enc.lift, Enc.resume]
    | .ok [] => simp [Enc.lift, Enc.resume]
    | .ok (b :: bs) =>
      have hne : ¬ ((bs.length : Int) + 1 = 0) := by omega
      simp only [Enc.lift, Enc.resume, List.length_cons, Nat.cast_add, Nat.cast_one, zero_add,
        List.nil_append, hne, if_false, List.tail_cons]
      rw [ih (i + 1) _ (by omega)]
      rfl

mutual

/-- **The packer of a tree packs as the encoder says**, and leaves the stack as
it was whenever it returns. -/
theorem ArgTree.pack_arg (lua : Lua) : ∀ (d : ArgTree) (L : LuaStack) (v : LuaValue)
    (bufLen : Int), bufLen < 2147483648 →
    d.arg.pack lua L v bufLen = (d.encode lua v bufLen).lift L
  | .number, L, v, bufLen, _ => numberPack_lift lua L v bufLen
  | .byte, L, v, bufLen, _ => fixedPack_lift 1 (by omega) lua L v bufLen
  | .word, L, v, bufLen, _ => fixedPack_lift 2 (by omega) lua L v bufLen
  | .dword, L, v, bufLen, _ => fixedPack_lift 4 (by omega) lua L v bufLen
  | .string, L, v, _, hbuf => stringPack_lift lua L v hbuf
  | .array b size, L, v, bufLen, hbuf => by
      have hbase := fun L v n => b.pack_arg lua L v n
      simp only [ArgTree.arg, FcallArg.pack, ArgTree.encode, arrayPack]
      cases v with
      | table get =>
        simp only
        split
        · split
          · rfl
          · split
            · rfl
            · rw [arrayPackLoop_eq hbase get L bufLen hbuf _ 1 1 (by omega)]
              have hseq := Enc.resume_seq (fun _ => .ok (leBytes 1 (objlen get)))
                (arrayEncode (b.encode lua) get (objlen get) 1) bufLen 0 []
                (fun n out => .ret n out L) L
              rw [Int.sub_zero] at hseq
              rw [Enc.lift, hseq]
              simp [Enc.resume]
        · rw [arrayPackLoop_eq hbase get L bufLen hbuf _ 1 0 (by omega), Int.sub_zero]
          rfl
      | _ => rfl
  | .table ty h fs, L, v, bufLen, hbuf => by
      simp only [ArgTree.arg, FcallArg.pack, ArgTree.encode]
      cases v with
      | table get =>
        simp only
        rw [fs.packLoop_code lua .nil L L (List.suffix_refl L) get bufLen hbuf 0 (by omega) [],
          Int.sub_zero]
        simp [TableOpcodes.packLoop, Enc.lift]
      | _ => rfl

/-- The opcode loop on the code of some fields packs the fields and goes on. -/
theorem FieldTree.packLoop_code (lua : Lua) : ∀ (fs : FieldTree) (k : TableOpcodes)
    (L L0 : LuaStack), L0 <:+ L → ∀ (get : LuaKey → LuaValue) (bufLen : Int),
    bufLen < 2147483648 → ∀ (usedLen : Int), 0 ≤ usedLen → ∀ (out : List UInt8),
    (fs.code k).packLoop lua L0.length bufLen usedLen out (.table get :: L) =
      (fs.encode lua get (bufLen - usedLen)).resume usedLen out
        (fun used out => k.packLoop lua L0.length bufLen used out L) L0
  | .nil, k, L, L0, _, get, bufLen, _, usedLen, _, out => by
      simp [FieldTree.code, TableOpcodes.packLoop, FieldTree.encode, Enc.resume]
  | .leaf key a rest, k, L, L0, hsuf, get, bufLen, hbuf, usedLen, hused, out => by
      have htop : settop L0.length (get key :: .table get :: L) = L0 :=
        settop_of_suffix (hsuf.trans ⟨[get key, .table get], rfl⟩)
      simp only [FieldTree.code, TableOpcodes.packLoop, pushField, FieldTree.encode]
      rw [a.pack_arg lua _ _ _ (by omega), Enc.resume_seq,
        ← Enc.resume_nonempty _ _ _ _ L0 (get key :: .table get :: L) L0.length htop]
      generalize a.encode lua (get key) (bufLen - usedLen) = e
      match e with
      | .error .raise => rfl
      | .error .fault => rfl
      | .error (.zero bytes) => simp [Enc.lift, Enc.resume]
      | .ok [] => simp [Enc.lift, Enc.resume]
      | .ok (b :: bs) =>
        have hne : ¬ ((bs.length : Int) + 1 = 0) := by omega
        simp only [Enc.lift, Enc.resume, List.length_cons, Nat.cast_add, Nat.cast_one, zero_add,
          List.nil_append, hne, if_false, List.tail_cons]
        rw [rest.packLoop_code lua k L L0 hsuf get bufLen hbuf _ (by omega)]
        rfl
  | .sub key fs rest, k, L, L0, hsuf, get, bufLen, hbuf, usedLen, hused, out => by
      simp only [FieldTree.code, TableOpcodes.packLoop, pushField, FieldTree.encode]
      cases hget : get key with
      | table sub =>
        have hsuf' : L0 <:+ .table get :: L := hsuf.trans (List.suffix_cons _ _)
        simp only
        rw [fs.packLoop_code lua (rest.code k) _ L0 hsuf' sub bufLen hbuf usedLen hused,
          Enc.resume_seq]
        cases hsub : fs.encode lua sub (bufLen - usedLen) with
        | error e => cases e <;> rfl
        | ok bytes =>
          simp only [Enc.resume]
          rw [rest.packLoop_code lua k L L0 hsuf get bufLen hbuf _ (by omega)]
          rfl
      | _ => rfl

end

/-! ## Unpacking -/

/-- `unpack` on the stack `L` does what the decoder says: it pushes the value and
returns its size, or returns 0 over the caller's stack. -/
def Dec.Unpacks (dec : Dec LuaValue) (L : LuaStack) (r : Option (Nat × LuaStack)) : Prop :=
  match dec with
  | some (v, n) => r = some (n, v :: L)
  | none => ∃ pre, r = some (0, pre ++ L)

/-- The outcome that changes nothing below the pushed value. -/
def Dec.clean (dec : Dec LuaValue) (L : LuaStack) : Option (Nat × LuaStack) :=
  match dec with
  | some (v, n) => some (n, v :: L)
  | none => some (0, L)

theorem Dec.clean_unpacks (dec : Dec LuaValue) (L : LuaStack) : dec.Unpacks L (dec.clean L) := by
  cases dec with
  | none => exact ⟨[], rfl⟩
  | some r => rfl

/-- A basic packer either pushes one value, whatever the stack, or returns 0. -/
def BasicUnpack (f : LuaStack → Option (Nat × LuaStack)) : Prop :=
  (∃ n v, ∀ L, f L = some (n + 1, v :: L)) ∨ ∀ L, f L = some (0, L)

/-- The decoder of a basic packer is its `unpack` on the empty stack. -/
theorem BasicUnpack.clean {f : LuaStack → Option (Nat × LuaStack)} (h : BasicUnpack f)
    (L : LuaStack) : f L = (Dec.ofUnpack (f [])).clean L := by
  obtain ⟨n, v, hf⟩ | hf := h
  · rw [hf, hf]
    rfl
  · rw [hf, hf]
    rfl

theorem BasicUnpack.unpacks {f : LuaStack → Option (Nat × LuaStack)} (h : BasicUnpack f)
    (L : LuaStack) : (Dec.ofUnpack (f [])).Unpacks L (f L) := by
  rw [h.clean L]
  exact Dec.clean_unpacks _ L

/-- `fcall_number_arg::unpack` on a header byte and what follows it. -/
theorem numberUnpack_cons (L : LuaStack) (b : UInt8) (rest : List UInt8) :
    numberUnpack L (b :: rest) =
      if b.toNat / 2 = 0 ∨ 5 ≤ b.toNat / 2 ∨ rest.length < b.toNat / 2 then some (0, L)
      else
        let data := wrap32 (leNat (rest.take (b.toNat / 2)))
        some (1 + b.toNat / 2,
          .ofInt (if b.toNat % 2 = 1 then wrap32 (-data) else data) :: L) := by
  have hhead : readAt (b :: rest) 0 1 = some [b] := by
    rw [readAt_some (by omega) (by omega) (by simp)]
    rfl
  have hbyte : leNat [b] = b.toNat := by simp [leNat]
  unfold numberUnpack
  rw [if_neg (by simp)]
  simp only [hhead, Option.bind_eq_bind, Option.bind_some, hbyte, Option.pure_def]
  generalize b.toNat = dataT
  by_cases h1 : dataT / 2 ≤ 0 ∨ dataT / 2 ≥ 5
  · rw [if_pos h1, if_pos (by omega)]
  rw [if_neg h1]
  by_cases h2 : rest.length < dataT / 2
  · rw [if_pos (by rw [List.length_cons]; omega), if_pos (by omega)]
  rw [if_neg (by rw [List.length_cons]; omega), if_neg (by omega),
    readAt_some (by omega) (by omega) (by rw [List.length_cons]; omega)]
  rfl

/-- The fixed-width `unpack` takes `width` bytes or fails. -/
theorem fixedUnpack_eq (width : Nat) (conv : Int → Int) (L : LuaStack) (buf : List UInt8) :
    fixedUnpack width conv L buf =
      if buf.length < width then some (0, L)
      else some (width, .ofInt (conv (leNat (buf.take width))) :: L) := by
  unfold fixedUnpack
  by_cases h : buf.length < width
  · rw [if_pos h, if_pos h]
    rfl
  · rw [if_neg h, if_neg h, readAt_some (by omega) (by omega) (by omega)]
    rfl

/-- `fcall_string_arg::unpack` on a short string. -/
theorem stringUnpack_short (L : LuaStack) (b : UInt8) (rest : List UInt8) (hb : 0 < b.toNat) :
    stringUnpack L (b :: rest) =
      if rest.length < b.toNat - 1 then some (0, L)
      else some (1 + (b.toNat - 1), .string (rest.take (b.toNat - 1)) :: L) := by
  have hhead : readAt (b :: rest) 0 1 = some [b] := by
    rw [readAt_some (by omega) (by omega) (by simp)]
    rfl
  have hbyte : leNat [b] = b.toNat := by simp [leNat]
  unfold stringUnpack
  rw [if_neg (by simp)]
  simp only [hhead, Option.bind_eq_bind, Option.bind_some, hbyte, Option.pure_def]
  rw [if_pos hb]
  generalize b.toNat - 1 = n
  by_cases h0 : n = 0
  · rw [if_pos h0, if_neg (by omega), h0]
    rfl
  rw [if_neg h0]
  by_cases h1 : rest.length < n
  · rw [if_pos (by rw [List.length_cons]; omega), if_pos h1]
  · rw [if_neg (by rw [List.length_cons]; omega), if_neg h1,
      readAt_some (by omega) (by omega) (by rw [List.length_cons]; omega)]
    rfl

/-- `fcall_string_arg::unpack` on a long string. -/
theorem stringUnpack_long (L : LuaStack) (rest : List UInt8) :
    stringUnpack L (0 :: rest) =
      let n := leNat (rest.take 2)
      if rest.length < 2 ∨ n = 0 ∨ rest.length < 2 + (n - 1) then some (0, L)
      else some (3 + (n - 1), .string ((rest.drop 2).take (n - 1)) :: L) := by
  have hhead : readAt (0 :: rest) 0 1 = some [0] := by
    rw [readAt_some (by omega) (by omega) (by simp)]
    rfl
  have hbyte : leNat [0] = 0 := rfl
  unfold stringUnpack
  rw [if_neg (by simp)]
  simp only [hhead, Option.bind_eq_bind, Option.bind_some, hbyte, Option.pure_def]
  rw [if_neg (by omega)]
  by_cases h1 : rest.length < 2
  · rw [if_pos (by rw [List.length_cons]; omega), if_pos (by omega)]
  have hlen : readAt (0 :: rest) 1 2 = some (rest.take 2) := by
    rw [readAt_some (by omega) (by omega) (by rw [List.length_cons]; omega)]
    rfl
  rw [if_neg (by rw [List.length_cons]; omega), hlen]
  simp only [Option.bind_some]
  generalize leNat (rest.take 2) = n
  by_cases h2 : n = 0
  · rw [if_pos h2, if_pos (by omega)]
  rw [if_neg h2]
  by_cases h3 : rest.length < 2 + (n - 1)
  · rw [if_pos (by rw [List.length_cons]; omega), if_pos (by omega)]
  · rw [if_neg (by rw [List.length_cons]; omega), if_neg (by omega),
      readAt_some (by omega) (by omega) (by rw [List.length_cons]; omega)]
    rfl

theorem basicUnpack_number (buf : List UInt8) : BasicUnpack fun L => numberUnpack L buf := by
  cases buf with
  | nil => exact .inr fun L => rfl
  | cons b rest =>
    simp only [BasicUnpack, numberUnpack_cons]
    split
    · exact .inr fun L => rfl
    · exact .inl ⟨b.toNat / 2, _, fun L => by rw [Nat.add_comm 1]⟩

theorem basicUnpack_fixed (width : Nat) (hw : 0 < width) (conv : Int → Int) (buf : List UInt8) :
    BasicUnpack fun L => fixedUnpack width conv L buf := by
  simp only [BasicUnpack, fixedUnpack_eq]
  split
  · exact .inr fun L => rfl
  · exact .inl ⟨width - 1, _, fun L => by rw [Nat.sub_add_cancel hw]⟩

theorem basicUnpack_string (buf : List UInt8) : BasicUnpack fun L => stringUnpack L buf := by
  match buf with
  | [] => exact .inr fun L => rfl
  | b :: rest =>
    by_cases hb : 0 < b.toNat
    · simp only [BasicUnpack, stringUnpack_short _ _ _ hb]
      split
      · exact .inr fun L => rfl
      · exact .inl ⟨b.toNat - 1, _, fun L => by rw [Nat.add_comm 1]⟩
    · obtain rfl : b = 0 := UInt8.toNat_inj.mp (by simpa using hb)
      simp only [BasicUnpack, stringUnpack_long]
      split
      · exact .inr fun L => rfl
      · exact .inl ⟨2 + (leNat (rest.take 2) - 1), _, fun L => by
          rw [show 3 + (leNat (rest.take 2) - 1) = 2 + (leNat (rest.take 2) - 1) + 1 by omega]⟩

/-- The element loop computes `arrayDecode`, if the base packer computes `base`. -/
theorem arrayUnpackLoop_eq {unpackBase : LuaStack → List UInt8 → Option (Nat × LuaStack)}
    {base : List UInt8 → Dec LuaValue}
    (hbase : ∀ L buf, (base buf).Unpacks L (unpackBase L buf)) (L : LuaStack)
    (buf : List UInt8) (todo i readed : Nat) (t : LuaKey → LuaValue) :
    arrayUnpackLoop unpackBase L.length buf todo i readed (.table t :: L) =
      match arrayDecode base todo i (buf.drop readed) t with
      | some (t', n) => some (readed + n, .table t' :: L)
      | none => some (0, L) := by
  induction todo generalizing i readed t with
  | zero => simp [arrayUnpackLoop, arrayDecode]
  | succ todo ih =>
    have h := hbase (.ofInt i :: .table t :: L) (buf.drop readed)
    rw [arrayUnpackLoop, arrayDecode]
    match hdec : base (buf.drop readed) with
    | none =>
      rw [hdec] at h
      obtain ⟨pre, hpre⟩ := h
      have htop : settop L.length (pre ++ .ofInt i :: .table t :: L) = L := by
        rw [show pre ++ .ofInt i :: .table t :: L = (pre ++ [.ofInt i, .table t]) ++ L by simp]
        exact settop_self_append _ L
      simp [hpre, htop]
    | some (v, 0) =>
      rw [hdec] at h
      have htop : settop L.length (v :: .ofInt i :: .table t :: L) = L :=
        settop_self_append [v, .ofInt i, .table t] L
      rw [show unpackBase _ _ = _ from h]
      simp [htop]
    | some (v, n + 1) =>
      rw [hdec] at h
      have hset : settable (v :: .ofInt i :: .table t :: L) =
          some (.table (Function.update t (.index i) v) :: L) := by
        simp [settable, LuaValue.ofInt, LuaValue.toKey, LuaKey.index]
      rw [show unpackBase _ _ = _ from h]
      simp only [Option.bind_eq_bind, Option.bind_some, Nat.succ_ne_zero, if_false, hset]
      rw [ih, List.drop_drop]
      cases arrayDecode base todo (i + 1) (buf.drop (readed + (n + 1)))
        (Function.update t (.index i) v) with
      | none => rfl
      | some r => simp [Nat.add_assoc]

/-- The array packer, wherever it has its length. -/
theorem arrayUnpack_clean {b : ArgTree}
    (hb : ∀ L buf, (b.decode buf).Unpacks L (b.arg.unpack L buf)) (size : Nat) (L : LuaStack)
    (buf : List UInt8) (h : buf ≠ [] ∨ size ≠ 0) :
    arrayUnpack b.arg.unpack size L buf = ((ArgTree.array b size).decode buf).clean L := by
  have hloop := arrayUnpackLoop_eq hb L
  simp only [ArgTree.decode, arrayUnpack]
  by_cases hsize : size = 0
  · rw [if_pos hsize, if_pos hsize]
    cases buf with
    | nil => exact absurd hsize (h.resolve_left (by simp))
    | cons n buf =>
      have hread : readAt (n :: buf) 0 1 = some [n] := by
        rw [readAt_some (by omega) (by omega) (by simp)]
        rfl
      have hn : leNat [n] = n.toNat := by simp [leNat]
      rw [if_neg (by simp)]
      simp only [hread, Option.bind_eq_bind, Option.bind_some, hn, LuaValue.newtable, hloop,
        List.drop_succ_cons, List.drop_zero]
      cases arrayDecode b.decode n.toNat 1 buf fun _ => .nil with
      | none => rfl
      | some r => rfl
  · rw [if_neg hsize, if_neg hsize]
    simp only [LuaValue.newtable, hloop, List.drop_zero]
    cases arrayDecode b.decode size 1 buf fun _ => .nil with
    | none => rfl
    | some r => simp [Dec.clean]

/-- Without its length an array fails and leaves its table. -/
theorem arrayUnpack_leaks (b : ArgTree) (L : LuaStack) :
    (ArgTree.array b 0).decode [] = none ∧
      (ArgTree.array b 0).arg.unpack L [] = some (0, .newtable :: L) :=
  ⟨rfl, rfl⟩

/-- The code of some fields is never empty. -/
theorem FieldTree.code_ne_nil (fs : FieldTree) (k : TableOpcodes) : fs.code k ≠ .nil := by
  cases fs <;> simp [FieldTree.code]

/-- A `push_value` before other opcodes. -/
theorem unpackLoop_pushValue (top : Nat) (buf : List UInt8) (key : LuaKey) (arg : FcallArg)
    {rest : TableOpcodes} (hrest : rest ≠ .nil) (readed : Nat) (L : LuaStack) :
    (TableOpcodes.pushValue key arg rest).unpackLoop top buf readed L =
      match arg.unpack (key.toValue :: L) (buf.drop readed) with
      | none => none
      | some (n, L) =>
        if n = 0 then some (0, settop top L)
        else
          match settable L with
          | none => none
          | some L => rest.unpackLoop top buf (readed + n) L := by
  cases rest with
  | nil => exact absurd rfl hrest
  | tbBegin | pushValue | tbEnd => rfl

/-- A `tb_begin` before other opcodes. -/
theorem unpackLoop_tbBegin (top : Nat) (buf : List UInt8) (key : LuaKey)
    {rest : TableOpcodes} (hrest : rest ≠ .nil) (readed : Nat) (L : LuaStack) :
    (TableOpcodes.tbBegin key rest).unpackLoop top buf readed L =
      rest.unpackLoop top buf readed (.newtable :: key.toValue :: L) := by
  cases rest with
  | nil => exact absurd rfl hrest
  | tbBegin | pushValue | tbEnd => rfl

/-- A `tb_end` before other opcodes. -/
theorem unpackLoop_tbEnd (top : Nat) (buf : List UInt8)
    {rest : TableOpcodes} (hrest : rest ≠ .nil) (readed : Nat) (L : LuaStack) :
    (TableOpcodes.tbEnd rest).unpackLoop top buf readed L =
      match settable L with
      | none => none
      | some L => rest.unpackLoop top buf readed L := by
  cases rest with
  | nil => exact absurd rfl hrest
  | tbBegin | pushValue | tbEnd => rfl

/-- A finished field goes into the table below it. -/
theorem settable_key (v : LuaValue) (key : LuaKey) (t : LuaKey → LuaValue) (L : LuaStack) :
    settable (v :: key.toValue :: .table t :: L) = some (.table (Function.update t key v) :: L) := by
  simp [settable]

/-- The table packer, if its loop fills the table as the decoder says. -/
theorem tableUnpack_clean (ty h : List UInt8) {fs : FieldTree} {L : LuaStack} {buf : List UInt8}
    (hloop : (fs.code .nil).unpackLoop L.length buf 0 (.newtable :: L) =
      match fs.decode (buf.drop 0) fun _ => .nil with
      | some (t, n) => (TableOpcodes.tbEnd .nil).unpackLoop L.length buf (0 + n) (.table t :: L)
      | none => some (0, L)) :
    (ArgTree.table ty h fs).arg.unpack L buf = ((ArgTree.table ty h fs).decode buf).clean L := by
  rw [List.drop_zero] at hloop
  simp only [ArgTree.arg, FcallArg.unpack, ArgTree.decode]
  rw [hloop]
  cases fs.decode buf fun _ => .nil with
  | none => rfl
  | some r => simp [Dec.clean, TableOpcodes.unpackLoop]

mutual

/-- **The packer of a tree unpacks as the decoder says.** -/
theorem ArgTree.unpack_arg : ∀ (d : ArgTree) (L : LuaStack) (buf : List UInt8),
    (d.decode buf).Unpacks L (d.arg.unpack L buf)
  | .number, L, buf => (basicUnpack_number buf).unpacks L
  | .byte, L, buf => (basicUnpack_fixed 1 (by omega) id buf).unpacks L
  | .word, L, buf => (basicUnpack_fixed 2 (by omega) wrap16 buf).unpacks L
  | .dword, L, buf => (basicUnpack_fixed 4 (by omega) wrap32 buf).unpacks L
  | .string, L, buf => (basicUnpack_string buf).unpacks L
  | .array b size, L, buf => by
      by_cases h : buf ≠ [] ∨ size ≠ 0
      · rw [ArgTree.arg, FcallArg.unpack, arrayUnpack_clean b.unpack_arg size L buf h]
        exact Dec.clean_unpacks _ L
      · push Not at h
        obtain ⟨rfl, rfl⟩ := h
        exact ⟨[.newtable], (arrayUnpack_leaks b L).2⟩
  | .table ty h fs, L, buf => by
      rw [tableUnpack_clean ty h (fs.unpackLoop_code .nil L L (List.suffix_refl L) buf 0 fun _ => .nil)]
      exact Dec.clean_unpacks _ L

/-- The opcode loop on the code of some fields fills the table on top of the stack
and stands before the closing `tb_end`. -/
theorem FieldTree.unpackLoop_code : ∀ (fs : FieldTree) (k : TableOpcodes) (L L0 : LuaStack),
    L0 <:+ L → ∀ (buf : List UInt8) (readed : Nat) (t : LuaKey → LuaValue),
    (fs.code k).unpackLoop L0.length buf readed (.table t :: L) =
      match fs.decode (buf.drop readed) t with
      | some (t', n) =>
        (TableOpcodes.tbEnd k).unpackLoop L0.length buf (readed + n) (.table t' :: L)
      | none => some (0, L0)
  | .nil, k, L, L0, _, buf, readed, t => by
      simp [FieldTree.code, FieldTree.decode]
  | .leaf key a rest, k, L, L0, hsuf, buf, readed, t => by
      have ha := a.unpack_arg (key.toValue :: .table t :: L) (buf.drop readed)
      simp only [FieldTree.code, FieldTree.decode]
      rw [unpackLoop_pushValue _ _ _ _ (rest.code_ne_nil k)]
      match hdec : a.decode (buf.drop readed) with
      | none =>
        rw [hdec] at ha
        obtain ⟨pre, hpre⟩ := ha
        have htop : settop L0.length (pre ++ key.toValue :: .table t :: L) = L0 :=
          settop_of_suffix ((hsuf.trans ⟨[key.toValue, .table t], rfl⟩).trans
            (List.suffix_append _ _))
        simp [hpre, htop]
      | some (v, 0) =>
        rw [hdec] at ha
        have htop : settop L0.length (v :: key.toValue :: .table t :: L) = L0 :=
          settop_of_suffix (hsuf.trans ⟨[v, key.toValue, .table t], rfl⟩)
        rw [show a.arg.unpack _ _ = _ from ha]
        simp [htop]
      | some (v, n + 1) =>
        rw [hdec] at ha
        rw [show a.arg.unpack _ _ = _ from ha]
        simp only [Nat.succ_ne_zero, if_false, settable_key]
        rw [rest.unpackLoop_code k L L0 hsuf, List.drop_drop]
        cases rest.decode (buf.drop (readed + (n + 1))) (Function.update t key v) with
        | none => rfl
        | some r => simp [Nat.add_assoc]
  | .sub key fs rest, k, L, L0, hsuf, buf, readed, t => by
      have hsuf' : L0 <:+ key.toValue :: .table t :: L :=
        hsuf.trans ⟨[key.toValue, .table t], rfl⟩
      simp only [FieldTree.code, FieldTree.decode]
      rw [unpackLoop_tbBegin _ _ _ (fs.code_ne_nil _), LuaValue.newtable,
        fs.unpackLoop_code (rest.code k) _ L0 hsuf']
      cases fs.decode (buf.drop readed) fun _ => .nil with
      | none => rfl
      | some r =>
        simp only
        rw [unpackLoop_tbEnd _ _ (rest.code_ne_nil k), settable_key]
        simp only
        rw [rest.unpackLoop_code k L L0 hsuf, List.drop_drop]
        cases rest.decode (buf.drop (readed + r.2)) (Function.update t key (.table r.1)) with
        | none => rfl
        | some r' => simp [Nat.add_assoc]

end

/-! ## Registered packers -/

/-- Appending opcodes to the code of some fields. -/
theorem FieldTree.code_append (b : TableOpcodes) : ∀ (fs : FieldTree) (k : TableOpcodes),
    (fs.code k).append b = fs.code (k.append b)
  | .nil, k => rfl
  | .leaf key a rest, k => by
      simp only [FieldTree.code, TableOpcodes.append, rest.code_append b k]
  | .sub key fs rest, k => by
      simp only [FieldTree.code, TableOpcodes.append]
      rw [fs.code_append b, rest.code_append b k]

/-- A packer that some well-formed tree describes. -/
def IsTree (a : FcallArg) : Prop := ∃ d : ArgTree, d.WF ∧ d.arg = a

/-- A lookup finds a packer of the registry. -/
theorem getArg_mem {reg : Registry} {ty : List UInt8} {a : FcallArg}
    (h : reg.getArg ty = some a) : a ∈ reg :=
  List.mem_of_find?_eq_some h

/-- The key of an opcode is the key of the format. -/
theorem travelKey_key {lua : Lua} {key : FormatKey} {k : LuaKey} {h : List UInt8}
    (hk : travelKey lua key = some (k, h)) : key = .key k := by
  match key with
  | .key (.number x) =>
    simp only [travelKey, Option.some.injEq, Prod.mk.injEq] at hk
    rw [hk.1]
  | .key (.string s) =>
    simp only [travelKey, Option.some.injEq, Prod.mk.injEq] at hk
    rw [hk.1]
  | .other => cases hk

/-- The packer of an entry is registered. -/
theorem travelLeaf_mem {lua : Lua} {reg : Registry} {val : FormatLeaf} {a : FcallArg}
    {h : List UInt8} (hv : travelLeaf lua reg val = some (a, h)) : a ∈ reg := by
  have hmap : ∀ {ty h'}, (reg.getArg ty).map (fun a => (a, h')) = some (a, h) → a ∈ reg := by
    intro ty h' hm
    obtain ⟨b, hb, heq⟩ := Option.map_eq_some_iff.mp hm
    cases heq
    exact getArg_mem hb
  match val with
  | .number => exact hmap hv
  | .string s =>
    simp only [travelLeaf] at hv
    split at hv
    · exact hmap hv
    · exact hmap hv
  | .other => cases hv

/-- An entry that is not a table and the rest of its table. -/
theorem travelEntries_leaf {lua : Lua} {reg : Registry} {key : FormatKey} {val : FormatLeaf}
    {rest : Format} {deep deep' : Nat} {hash : List UInt8} {ops : TableOpcodes}
    (h : travelEntries lua reg (.leaf key val rest) deep = some (deep', hash, ops)) :
    ∃ k a valHash restHash restOps, key = .key k ∧ travelLeaf lua reg val = some (a, valHash) ∧
      travelEntries lua reg rest deep = some (deep', restHash, restOps) ∧
      ops = .pushValue k a restOps := by
  simp only [travelEntries, Option.bind_eq_bind, Option.bind_eq_some_iff, Option.pure_def,
    Option.some.injEq, Prod.exists, Prod.mk.injEq] at h
  obtain ⟨k, kh, hk, a, vh, hv, d1, h1, ops1, hrest, rfl, rfl, rfl⟩ := h
  exact ⟨k, a, vh, h1, ops1, travelKey_key hk, hv, hrest, rfl⟩

/-- An entry that is a table and the rest of its table. -/
theorem travelEntries_sub {lua : Lua} {reg : Registry} {key : FormatKey} {f rest : Format}
    {deep deep' : Nat} {hash : List UInt8} {ops : TableOpcodes}
    (h : travelEntries lua reg (.sub key f rest) deep = some (deep', hash, ops)) :
    ∃ k d1 subHash subOps restHash restOps, key = .key k ∧
      travelEntries lua reg f (deep + 1) = some (d1, subHash, subOps) ∧
      travelEntries lua reg rest d1 = some (deep', restHash, restOps) ∧
      ops = .tbBegin k (subOps.append restOps) := by
  simp only [travelEntries, Option.bind_eq_bind, Option.bind_eq_some_iff, Option.pure_def,
    Prod.exists] at h
  obtain ⟨k, kh, hk, h⟩ := h
  split at h
  · simp at h
  simp only [Option.bind_eq_some_iff, Option.some.injEq, Prod.exists, Prod.mk.injEq] at h
  obtain ⟨d1, h1, ops1, hsub, d2, h2, ops2, hrest, rfl, rfl, rfl⟩ := h
  exact ⟨k, d1, h1, ops1, h2, ops2, travelKey_key hk, hsub, hrest, rfl⟩

/-- The opcodes of a format table are the code of well-formed fields with the
format's keys. -/
theorem travelEntries_tree {lua : Lua} {reg : Registry} (hreg : ∀ a ∈ reg, IsTree a) :
    ∀ (f : Format) (deep : Nat) {deep' : Nat} {hash : List UInt8} {ops : TableOpcodes},
    f.WF → travelEntries lua reg f deep = some (deep', hash, ops) →
    ∃ fs : FieldTree, fs.WF ∧ fs.keys.map .key = f.keys ∧ fs.code .nil = ops
  | .nil, deep, deep', hash, ops, _, h => by
      simp only [travelEntries, Option.some.injEq, Prod.mk.injEq] at h
      exact ⟨.nil, trivial, rfl, h.2.2⟩
  | .leaf key val rest, deep, deep', hash, ops, hwf, h => by
      obtain ⟨k, a, vh, h1, ops1, rfl, hv, hrest, rfl⟩ := travelEntries_leaf h
      obtain ⟨fs, hfs, hkeys, rfl⟩ := travelEntries_tree hreg rest deep hwf.2 hrest
      obtain ⟨d, hd, rfl⟩ := hreg a (travelLeaf_mem hv)
      refine ⟨.leaf k d fs, ⟨fun hin => hwf.1 ?_, hd, hfs⟩, ?_, rfl⟩
      · rw [← hkeys]
        exact List.mem_map_of_mem hin
      · simp [FieldTree.keys, Format.keys, hkeys]
  | .sub key f rest, deep, deep', hash, ops, hwf, h => by
      obtain ⟨k, d1, h1, ops1, h2, ops2, rfl, hsub, hrest, rfl⟩ := travelEntries_sub h
      obtain ⟨sub, hsubWF, -, rfl⟩ := travelEntries_tree hreg f (deep + 1) hwf.2.1 hsub
      obtain ⟨fs, hfs, hkeys, rfl⟩ := travelEntries_tree hreg rest d1 hwf.2.2 hrest
      refine ⟨.sub k sub fs, ⟨fun hin => hwf.1 ?_, hsubWF, hfs⟩, ?_, ?_⟩
      · rw [← hkeys]
        exact List.mem_map_of_mem hin
      · simp [FieldTree.keys, Format.keys, hkeys]
      · simp only [FieldTree.code]
        rw [FieldTree.code_append]
        rfl

/-- The packer of a table file is the packer of a tree. -/
theorem fcallTableArg_isTree {lua : Lua} {reg : Registry} (hreg : ∀ a ∈ reg, IsTree a)
    {desc : TableDesc} {a : FcallArg} (h : fcallTableArg lua reg desc = some a) : IsTree a := by
  simp only [fcallTableArg, travelTable, Option.bind_eq_bind, Option.bind_eq_some_iff,
    Option.pure_def, Option.some.injEq, Prod.exists] at h
  obtain ⟨d, hash, ops, htravel, rfl⟩ := h
  split at htravel
  · cases htravel
  obtain ⟨fs, hfs, -, rfl⟩ := travelEntries_tree hreg desc.format _ desc.wf htravel
  exact ⟨.table _ _ fs, hfs, rfl⟩

/-- An array packer is the packer of a tree. -/
theorem fcallArrayArg_isTree {reg : Registry} (hreg : ∀ a ∈ reg, IsTree a) {ty : List UInt8}
    {size : Nat} {a : FcallArg} (h : fcallArrayArg reg ty size = some a) : IsTree a := by
  obtain ⟨b, hb, rfl⟩ := Option.map_eq_some_iff.mp h
  obtain ⟨d, hd, rfl⟩ := hreg b (getArg_mem hb)
  exact ⟨.array d size, hd, rfl⟩

/-- **Every packer that `fcall_arg_manager` holds is the packer of a tree.** -/
theorem registered_isTree {lua : Lua} {reg : Registry} (h : Registered lua reg) :
    ∀ a ∈ reg, IsTree a := by
  induction h with
  | init =>
    intro a ha
    simp only [Registry.init, List.mem_cons, List.not_mem_nil, or_false] at ha
    rcases ha with rfl | rfl | rfl | rfl | rfl
    · exact ⟨.number, trivial, rfl⟩
    · exact ⟨.byte, trivial, rfl⟩
    · exact ⟨.word, trivial, rfl⟩
    · exact ⟨.dword, trivial, rfl⟩
    · exact ⟨.string, trivial, rfl⟩
  | addTable _ htable ih =>
    intro a ha
    rcases List.mem_append.mp ha with ha | ha
    · exact ih a ha
    · rw [List.mem_singleton.mp ha]
      exact fcallTableArg_isTree ih htable
  | addArray _ _ harray ih =>
    intro a ha
    rcases List.mem_append.mp ha with ha | ha
    · exact ih a ha
    · rw [List.mem_singleton.mp ha]
      exact fcallArrayArg_isTree ih harray

end Donkeyji.Mydb
