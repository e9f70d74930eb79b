/-
Donkeyji.Xy3.ProtoTheorems — which remote calls of `cs/my_xy3` arrive
unchanged.

A call with integer arguments is right as long as it fits the buffer: the
loops of `marshal` and `unpack` agree byte for byte (`marshalLoop_dwords`,
`unpackLoop_dwords`). It goes wrong in three ways. A protocol with a string
has no chance, because `ArgString::pack` does not return a length; an integer
that does not fit counts as minus one byte, and the receiver then misses it;
and an index from 256 on does not fit the one byte that names the protocol.
`call_arrives_iff` says that these are all.
-/
import Donkeyji.Xy3.Proto

namespace Donkeyji.Xy3.Proto

open Memory

/-! ## Tables -/

@[simp] theorem Side.other_other (side : Side) : side.other.other = side := by
  cases side <;> rfl

/-- Adding files one by one puts the protocol of each at its index. -/
theorem foldlM_addPto {side : Side} {forMaker : List (List UInt8)} : ∀ {files : List PtoFile}
    {acc ptos : List Pto}, files.foldlM (addPto side forMaker) acc = some ptos →
    ∃ more, ptos = acc ++ more ∧ more.length = files.length ∧
      ∀ j (f : PtoFile), files[j]? = some f →
        ∃ p, Pto.load side forMaker (acc.length + j) f = some p ∧ more[j]? = some p
  | [], acc, ptos, h => by
      cases h
      exact ⟨[], by simp, rfl, fun j f hf => by simp at hf⟩
  | f :: files, acc, ptos, h => by
      rw [List.foldlM_cons] at h
      obtain ⟨acc', hadd, hrest⟩ := Option.bind_eq_some_iff.mp h
      obtain ⟨p, hp, rfl⟩ := Option.map_eq_some_iff.mp hadd
      obtain ⟨more, rfl, hlen, hmore⟩ := foldlM_addPto hrest
      refine ⟨p :: more, by simp, by simp [hlen], fun j g hg => ?_⟩
      cases j with
      | zero =>
        cases hg
        exact ⟨p, hp, rfl⟩
      | succ j =>
        obtain ⟨q, hq, hq'⟩ := hmore j g hg
        refine ⟨q, ?_, hq'⟩
        rw [List.length_append, List.length_singleton] at hq
        rw [← hq]
        congr 1
        omega

/-- The protocol at an index is loaded from the file at that index. -/
theorem ptoTable_getElem? {side : Side} {forMaker : List (List UInt8)} {files : List PtoFile}
    {ptos : List Pto} (h : ptoTable side forMaker files = some ptos) {i : Nat} {f : PtoFile}
    (hf : files[i]? = some f) :
    ∃ p, Pto.load side forMaker i f = some p ∧ ptos[i]? = some p := by
  obtain ⟨more, rfl, -, hmore⟩ := foldlM_addPto h
  obtain ⟨p, hp, hget⟩ := hmore i f hf
  exact ⟨p, by simpa using hp, by simpa using hget⟩

theorem ptoTable_length {side : Side} {forMaker : List (List UInt8)} {files : List PtoFile}
    {ptos : List Pto} (h : ptoTable side forMaker files = some ptos) :
    ptos.length = files.length := by
  obtain ⟨more, rfl, hlen, -⟩ := foldlM_addPto h
  simpa using hlen

/-- What `load` makes of a file. -/
theorem load_spec {side : Side} {forMaker : List (List UInt8)} {id : Nat} {f : PtoFile} {p : Pto}
    (h : Pto.load side forMaker id f = some p) :
    p.id = UInt8.ofNat id ∧ p.args = f.args ∧ procType side f.func = some p.isMaker ∧
      p.ref = if p.isMaker then some f.func else none := by
  unfold Pto.load at h
  split at h
  · cases h
  · rename_i htype
    split at h
    · cases h
      exact ⟨rfl, rfl, htype, rfl⟩
    · cases h
  · rename_i htype
    cases h
    exact ⟨rfl, rfl, htype, rfl⟩

/-- What one side calls, the other side handles. -/
theorem procType_other {side : Side} {func : List UInt8} (h : procType side func = some false) :
    procType side.other func = some true := by
  unfold procType at h ⊢
  split at h
  · cases h
  · split at h
    · rename_i hletter
      rw [if_pos hletter]
    · cases h

/-- Both sides' tables, made from the same files. -/
structure Tables (files : List PtoFile) where
  forMaker : Side → List (List UInt8)
  ptos : Side → List Pto
  loaded : ∀ side, ptoTable side (forMaker side) files = some (ptos side)

/-- The receiver of a stub's calls has the same protocol at the same index, with a
handler. -/
theorem Tables.receiver {files : List PtoFile} (t : Tables files) {sender : Side} {i : Nat}
    {p : Pto} (hp : (t.ptos sender)[i]? = some p) (hcaller : p.isMaker = false) :
    p.id = UInt8.ofNat i ∧ ∃ q, (t.ptos sender.other)[i]? = some q ∧ q.args = p.args ∧
      ∃ func, q.ref = some func := by
  obtain ⟨hlt, -⟩ := List.getElem?_eq_some_iff.mp hp
  rw [ptoTable_length (t.loaded sender)] at hlt
  have hf : files[i]? = some files[i] := List.getElem?_eq_getElem hlt
  obtain ⟨p', hload, hp'⟩ := ptoTable_getElem? (t.loaded sender) hf
  cases hp.symm.trans hp'
  obtain ⟨hid, hargs, htype, -⟩ := load_spec hload
  obtain ⟨q, hload', hq⟩ := ptoTable_getElem? (t.loaded sender.other) hf
  obtain ⟨-, hargs', htype', href⟩ := load_spec hload'
  rw [hcaller] at htype
  rw [procType_other htype] at htype'
  cases hmaker : q.isMaker with
  | true =>
    rw [hmaker] at href
    exact ⟨hid, q, hq, hargs'.trans hargs.symm, _, href⟩
  | false =>
    rw [hmaker] at htype'
    cases htype'

/-! ## Integer arguments -/

/-- The bytes of some integers. -/
def encodeDwords (xs : List Int) : List UInt8 :=
  xs.flatMap fun x => leBytes 4 (x % 4294967296).toNat

@[simp] theorem length_encodeDwords (xs : List Int) :
    (encodeDwords xs).length = 4 * xs.length := by
  induction xs with
  | nil => rfl
  | cons x xs ih =>
    simp only [encodeDwords, List.flatMap_cons, List.length_append, length_leBytes,
      List.length_cons] at ih ⊢
    omega

/-- An integer of 32 bits. -/
def IsInt32 (x : Int) : Prop := -2147483648 ≤ x ∧ x < 2147483648

/-- Writing behind a prefix. -/
theorem writeAt_append (pre rest bytes : List UInt8) {off : Int} (hoff : off = pre.length)
    (hfit : bytes.length ≤ rest.length) :
    writeAt (pre ++ rest) off bytes = some (pre ++ bytes ++ rest.drop bytes.length) := by
  subst hoff
  rw [writeAt_some (by omega) (by rw [List.length_append]; omega), Int.toNat_natCast,
    List.take_left' rfl, List.drop_append, List.drop_of_length_le (Nat.le_add_right _ _),
    Nat.add_sub_cancel_left, List.nil_append]

/-- A 32-bit integer comes out of its four bytes. -/
theorem wrap32_dword {x : Int} (h : IsInt32 x) :
    wrap32 (leNat (leBytes 4 (x % 4294967296).toNat)) = x := by
  have hlt : (x % 4294967296).toNat < 256 ^ 4 := by omega
  rw [leNat_leBytes_of_lt hlt]
  unfold IsInt32 at h
  unfold wrap32
  omega

/-- **`marshal` packs integers that fit** one behind the other. -/
theorem marshalLoop_dwords (lua : Lua) (side : Side) (L : List LuaValue) (bufLen : Nat)
    (ret : Nat → Int) (more : List ArgBase) (hsize : bufLen < 2147483648) :
    ∀ (xs : List Int) (i : Nat) (pre rest : List UInt8) (tail : List LuaValue),
    (∀ x ∈ xs, IsInt32 x) → L.drop (side.argBase + i) = xs.map .ofInt ++ tail →
    (pre ++ rest).length = bufLen → pre.length + 4 * xs.length ≤ bufLen →
    marshalLoop lua side L bufLen ret (xs.map (fun _ => .dword) ++ more) i pre.length
        (pre ++ rest) =
      marshalLoop lua side L bufLen ret more (i + xs.length) (pre ++ encodeDwords xs).length
        (pre ++ encodeDwords xs ++ rest.drop (4 * xs.length))
  | [], i, pre, rest, tail, _, _, _, _ => by simp [encodeDwords]
  | x :: xs, i, pre, rest, tail, hint, hL, hlen, hfit => by
      have hx := hint x (by simp)
      have hget : L[side.argBase + i]? = some (.ofInt x) := by
        rw [← Nat.add_zero (side.argBase + i), ← List.getElem?_drop, hL]
        rfl
      have hL' : L.drop (side.argBase + (i + 1)) = xs.map .ofInt ++ tail := by
        rw [← Nat.add_assoc, ← List.drop_drop, hL]
        rfl
      rw [List.length_append] at hlen
      rw [List.length_cons] at hfit
      have hleft : wrap32 ((bufLen : Int) - pre.length) = bufLen - pre.length :=
        wrap32_of_bounds (by omega) (by omega)
      have hused : wrap32 ((pre.length : Int) + 4) = pre.length + 4 :=
        wrap32_of_bounds (by omega) (by omega)
      have hwrite := writeAt_append pre rest (leBytes 4 (x % 4294967296).toNat) rfl
        (by rw [length_leBytes]; omega)
      rw [length_leBytes] at hwrite
      simp only [List.map_cons, List.cons_append, marshalLoop, ArgBase.pack, dwordPack, hget,
        Option.bind_some, checkInt_ofInt lua hx, hleft, writeRet, hwrite]
      rw [if_neg (by omega)]
      simp only [hused]
      rw [if_neg (by omega)]
      have hih := marshalLoop_dwords lua side L bufLen ret more hsize xs (i + 1)
        (pre ++ leBytes 4 (x % 4294967296).toNat) (rest.drop 4) tail
        (fun y hy => hint y (by simp [hy])) hL'
        (by simp only [List.length_append, length_leBytes, List.length_drop]; omega)
        (by simp only [List.length_append, length_leBytes]; omega)
      have hlen' : ((pre ++ leBytes 4 (x % 4294967296).toNat).length : Int) = pre.length + 4 := by
        rw [List.length_append, length_leBytes]
        rfl
      rw [hlen'] at hih
      rw [hih, List.drop_drop]
      simp [encodeDwords, Nat.add_comm, Nat.add_left_comm, Nat.mul_add]

/-- **`unpack` reads the integers back.** -/
theorem unpackLoop_dwords (high : Nat → Nat) (more : List ArgBase) :
    ∀ (xs : List Int) (i readed : Nat) (pre rest : List UInt8) (pushed : List LuaValue),
    (∀ x ∈ xs, IsInt32 x) → pre.length = 1 + readed →
    (pre ++ (encodeDwords xs ++ rest)).length < 2147483648 →
    unpackLoop (pre ++ (encodeDwords xs ++ rest)) high (xs.map (fun _ => .dword) ++ more) i readed
        pushed =
      unpackLoop (pre ++ (encodeDwords xs ++ rest)) high more (i + xs.length)
        (readed + 4 * xs.length : Nat) (pushed ++ xs.map .ofInt)
  | [], i, readed, pre, rest, pushed, _, _, _ => by simp
  | x :: xs, i, readed, pre, rest, pushed, hint, hpre, hsize => by
      have hx := hint x (by simp)
      have hsplit : encodeDwords (x :: xs) ++ rest =
          leBytes 4 (x % 4294967296).toNat ++ (encodeDwords xs ++ rest) := by
        simp [encodeDwords]
      rw [hsplit] at hsize ⊢
      have hlen := hsize
      simp only [List.length_append, length_leBytes, length_encodeDwords] at hlen
      have hread := readAt_append pre (leBytes 4 (x % 4294967296).toNat) (encodeDwords xs ++ rest)
        (show 1 + (readed : Int) = pre.length by omega)
        (show (4 : Int) = (leBytes 4 _).length by rw [length_leBytes]; rfl)
      have hused : wrap32 ((readed : Int) + 4) = (readed + 4 : Nat) := by
        rw [wrap32_of_bounds (by omega) (by omega)]
        rfl
      simp only [List.map_cons, List.cons_append, unpackLoop, ArgBase.unpack, dwordUnpack, hread,
        Option.map_some, wrap32_dword hx]
      rw [if_neg (by simp only [List.length_append, length_leBytes, length_encodeDwords]; omega)]
      simp only [hused]
      rw [if_neg (by omega)]
      have hih := unpackLoop_dwords high more xs (i + 1) (readed + 4)
        (pre ++ leBytes 4 (x % 4294967296).toNat) rest (pushed ++ [.ofInt x])
        (fun y hy => hint y (by simp [hy]))
        (by rw [List.length_append, length_leBytes]; omega)
        (by rw [List.append_assoc]; exact hsize)
      rw [List.append_assoc] at hih
      have hcount : readed + 4 + 4 * xs.length = readed + 4 * (x :: xs).length := by
        rw [List.length_cons]
        omega
      have hindex : i + 1 + xs.length = i + (x :: xs).length := by
        rw [List.length_cons]
        omega
      rw [hih, hcount, hindex]
      simp

/-- With integers only, `marshal` never uses more than the buffer, even where an
argument does not fit. -/
theorem marshalLoop_dwords_le (lua : Lua) (side : Side) (L : List LuaValue) (bufLen : Nat)
    (ret : Nat → Int) : ∀ (args : List ArgBase) (i : Nat) (usedLen : Int) (buf : List UInt8)
    {n : Int} {out : List UInt8}, (∀ a ∈ args, a = .dword) → -(i : Int) ≤ usedLen →
    usedLen ≤ bufLen → bufLen + i + args.length < 2147483648 →
    marshalLoop lua side L bufLen ret args i usedLen buf = .ret n out → n ≤ bufLen
  | [], i, usedLen, buf, n, out, _, _, hle, _, h => by
      cases h
      exact hle
  | a :: args, i, usedLen, buf, n, out, hall, hge, hle, hsize, h => by
      obtain rfl := hall a (by simp)
      rw [List.length_cons] at hsize
      have hleft : wrap32 ((bufLen : Int) - usedLen) = bufLen - usedLen :=
        wrap32_of_bounds (by omega) (by omega)
      have hrec : ∀ m buf', (m = 4 → 4 ≤ (bufLen : Int) - usedLen) → m = 4 ∨ m = -1 →
          marshalLoop lua side L bufLen ret args (i + 1) (wrap32 (usedLen + m)) buf' =
            .ret n out → n ≤ bufLen := by
        intro m buf' h4 hm h'
        have hwrap : wrap32 (usedLen + m) = usedLen + m :=
          wrap32_of_bounds (by omega) (by omega)
        rw [hwrap] at h'
        exact marshalLoop_dwords_le lua side L bufLen ret args (i + 1) _ _
          (fun b hb => hall b (by simp [hb])) (by push_cast; omega) (by omega) (by omega) h'
      simp only [marshalLoop, ArgBase.pack, dwordPack, hleft] at h
      cases hnum : (L[side.argBase + i]?).bind lua.checkInt with
      | none =>
        rw [hnum] at h
        cases h
      | some num =>
        rw [hnum] at h
        simp only at h
        by_cases hroom : 4 > (bufLen : Int) - usedLen
        · rw [if_pos hroom] at h
          exact hrec (-1) buf (by omega) (.inr rfl) h
        · rw [if_neg hroom] at h
          unfold writeRet at h
          cases hwrite : writeAt buf usedLen (leBytes 4 (num % 4294967296).toNat) with
          | none =>
            rw [hwrite] at h
            cases h
          | some buf' =>
            rw [hwrite] at h
            exact hrec 4 buf' (by omega) (.inl rfl) h

/-- With integers only, `unpack` pushes a value for every four bytes it reads. -/
theorem unpackLoop_dwords_all (data : List UInt8) (high : Nat → Nat) :
    ∀ (args : List ArgBase) (i : Nat) (readedLen : Int) (pushed : List LuaValue) {m : Int}
    {vs : List LuaValue}, (∀ a ∈ args, a = .dword) → -(i : Int) ≤ readedLen →
    readedLen ≤ data.length → data.length + i + args.length < 2147483648 →
    unpackLoop data high args i readedLen pushed = some (some (m, vs)) →
    vs.length ≤ pushed.length + args.length ∧
      (vs.length = pushed.length + args.length → m = readedLen + 4 * args.length)
  | [], i, readedLen, pushed, m, vs, _, _, _, _, h => by
      cases h
      simp
  | a :: args, i, readedLen, pushed, m, vs, hall, hge, hle, hsize, h => by
      obtain rfl := hall a (by simp)
      rw [List.length_cons] at hsize ⊢
      have hargs : ∀ b ∈ args, b = ArgBase.dword := fun b hb => hall b (by simp [hb])
      simp only [unpackLoop, ArgBase.unpack, dwordUnpack] at h
      by_cases hroom : 4 > (data.length : Int) - 1 - readedLen
      · rw [if_pos hroom] at h
        simp only at h
        rw [if_neg (by omega), wrap32_of_bounds (by omega) (by omega)] at h
        obtain ⟨h1, -⟩ := unpackLoop_dwords_all data high args (i + 1) _ _ hargs
          (by push_cast; omega) (by omega) (by omega) h
        rw [List.append_nil] at h1
        exact ⟨by omega, fun heq => by omega⟩
      · rw [if_neg hroom] at h
        cases hread : readAt data (1 + readedLen) 4 with
        | none =>
          rw [hread] at h
          cases h
        | some bs =>
          rw [hread] at h
          simp only [Option.map_some] at h
          rw [if_neg (by omega), wrap32_of_bounds (by omega) (by omega)] at h
          obtain ⟨h1, h2⟩ := unpackLoop_dwords_all data high args (i + 1) _ _ hargs
            (by push_cast; omega) (by omega) (by omega) h
          rw [List.length_append, List.length_singleton] at h1 h2
          refine ⟨by omega, fun heq => ?_⟩
          rw [h2 (by omega)]
          push_cast
          ring

/-! ## Strings -/

/-- A value of an argument's type, for the two types that are followed here. -/
def ArgBase.Matches : ArgBase → LuaValue → Prop
  | .dword, v => ∃ x : Int, IsInt32 x ∧ v = .ofInt x
  | .string, v => ∃ s, v = .string s
  | .number, _ => False

/-- Every string fits the buffer behind the arguments before it, and its length fits two
bytes. -/
def StringsFit (bufLen : Nat) : Nat → List ArgBase → List LuaValue → Prop
  | used, .dword :: args, _ :: vals => StringsFit bufLen (used + 4) args vals
  | used, .string :: args, .string s :: vals =>
    (used + 2 + s.length ≤ bufLen ∧ s.length + 1 ≤ 65535) ∧
      StringsFit bufLen (used + 2 + s.length) args vals
  | _, _, _ => True

/-- When more than the buffer is used, every further argument counts as minus one
byte. -/
theorem marshalLoop_over (lua : Lua) (side : Side) (L : List LuaValue) (bufLen : Nat)
    (ret : Nat → Int) (buf : List UInt8) : ∀ (args : List ArgBase) (vals : List LuaValue)
    (i used start : Nat), List.Forall₂ ArgBase.Matches args vals →
    StringsFit bufLen start args vals → L.drop (side.argBase + i) = vals →
    used < 2147483648 → bufLen + args.length ≤ used →
    marshalLoop lua side L bufLen ret args i used buf = .ret ((used : Int) - args.length) buf
  | [], _, i, used, _, _, _, _, _, _ => by simp [marshalLoop]
  | a :: args, v :: vals, i, used, start, hvals, hfit, hL, hused, hover => by
      rw [List.length_cons] at hover
      obtain ⟨hv, hvals⟩ := List.forall₂_cons.mp hvals
      have hget : L[side.argBase + i]? = some v := by
        rw [← Nat.add_zero (side.argBase + i), ← List.getElem?_drop, hL]
        rfl
      have hL' : L.drop (side.argBase + (i + 1)) = vals := by
        rw [← Nat.add_assoc, ← List.drop_drop, hL]
        rfl
      have hleft : wrap32 ((bufLen : Int) - used) = bufLen - used :=
        wrap32_of_bounds (by omega) (by omega)
      have hpack : a.pack lua (some v) buf used ((bufLen : Int) - used) (ret i) = .ret (-1) buf ∧
          ∃ more, StringsFit bufLen more args vals := by
        cases a with
        | dword =>
          obtain ⟨x, hx, rfl⟩ := hv
          refine ⟨?_, _, hfit⟩
          simp only [ArgBase.pack, dwordPack, Option.bind_some, checkInt_ofInt lua hx]
          rw [if_pos (by omega)]
        | string =>
          obtain ⟨s, rfl⟩ := hv
          obtain ⟨⟨h1, h2⟩, hfit'⟩ := hfit
          refine ⟨?_, _, hfit'⟩
          have hid : wrap32 (wrap32 (s.length : Int) + 1) = s.length + 1 := wrap32_succ (by omega)
          have hlen : wrap32 ((s.length : Int) + 2) = s.length + 2 :=
            wrap32_of_bounds (by omega) (by omega)
          simp only [ArgBase.pack, stringPack, Option.bind_some, Lua.checklstring, hid, hlen]
          rw [if_pos (by omega), if_pos (by omega)]
        | number => exact hv.elim
      obtain ⟨hpack, more, hfit'⟩ := hpack
      have hnext : wrap32 ((used : Int) + -1) = (used - 1 : Nat) := by
        rw [wrap32_of_bounds (by omega) (by omega)]
        omega
      simp only [marshalLoop, hget, hleft, hpack]
      rw [if_neg (by omega), hnext, marshalLoop_over lua side L bufLen ret buf args vals (i + 1)
        (used - 1) more hvals hfit' hL' (by omega) (by omega), List.length_cons]
      congr 1
      push_cast
      omega

/-- Arguments with a string among them: integers up to the first one. -/
theorem exists_first_string {args : List ArgBase} {vals : List LuaValue}
    (hvals : List.Forall₂ ArgBase.Matches args vals) (hex : ∃ a ∈ args, a ≠ .dword) :
    ∃ (xs : List Int) (str : List UInt8) (args' : List ArgBase) (vals' : List LuaValue),
      (∀ x ∈ xs, IsInt32 x) ∧ args = xs.map (fun _ => .dword) ++ .string :: args' ∧
      vals = xs.map .ofInt ++ .string str :: vals' ∧ List.Forall₂ ArgBase.Matches args' vals' := by
  induction hvals with
  | nil => simp at hex
  | @cons a v args vals hv hvals ih =>
    cases a with
    | dword =>
      obtain ⟨x, hx, rfl⟩ := hv
      have hex' : ∃ b ∈ args, b ≠ ArgBase.dword := by
        obtain ⟨b, hb, hne⟩ := hex
        rcases List.mem_cons.mp hb with rfl | hb
        · exact absurd rfl hne
        · exact ⟨b, hb, hne⟩
      obtain ⟨xs, str, args', vals', hint, rfl, rfl, hrest⟩ := ih hex'
      refine ⟨x :: xs, str, args', vals', fun y hy => ?_, rfl, rfl, hrest⟩
      rcases List.mem_cons.mp hy with rfl | hy
      · exact hx
      · exact hint y hy
    | string =>
      obtain ⟨str, rfl⟩ := hv
      exact ⟨[], str, args, vals, fun x hx => by simp at hx, rfl, rfl, hvals⟩
    | number => exact hv.elim

/-- A string that fits is written, and `pack` returns anything. -/
theorem stringPack_fits (lua : Lua) (str buf : List UInt8) (off : Nat) (left ret : Int)
    (hroom : off + 2 + str.length ≤ buf.length) (hshort : str.length + 1 ≤ 65535)
    (hleft : (str.length : Int) + 2 ≤ left) :
    ∃ out, stringPack lua (some (.string str)) buf off left ret = .ret ret out ∧
      out.length = buf.length := by
  have hid : wrap32 (wrap32 (str.length : Int) + 1) = str.length + 1 := wrap32_succ (by omega)
  have hlen : wrap32 ((str.length : Int) + 2) = str.length + 2 :=
    wrap32_of_bounds (by omega) (by omega)
  obtain ⟨buf1, hbuf1⟩ : ∃ buf1, writeAt buf off
      (leBytes 2 (((str.length : Int) + 1) % 4294967296).toNat) = some buf1 :=
    ⟨_, writeAt_some (by omega) (by rw [length_leBytes]; omega)⟩
  have hlen1 := length_writeAt hbuf1
  obtain ⟨out, hout⟩ : ∃ out, writeAt buf1 ((off : Int) + 1) str = some out :=
    ⟨_, writeAt_some (by omega) (by rw [hlen1]; omega)⟩
  refine ⟨out, ?_, (length_writeAt hout).trans hlen1⟩
  simp only [stringPack, Option.bind_some, Lua.checklstring, hid, hlen]
  rw [if_pos (by omega), if_neg (by omega)]
  simp only [hbuf1, writeRet, hout]

/-- The strings after some integers fit as well. -/
theorem StringsFit.drop_dwords {bufLen : Nat} {args : List ArgBase} {vals : List LuaValue} :
    ∀ {xs : List Int} {used : Nat},
    StringsFit bufLen used (xs.map (fun _ => .dword) ++ args) (xs.map .ofInt ++ vals) →
    StringsFit bufLen (used + 4 * xs.length) args vals
  | [], used, h => h
  | x :: xs, used, h => by
      have h' := @StringsFit.drop_dwords bufLen args vals xs _ h
      rw [List.length_cons, Nat.mul_add, ← Nat.add_assoc, Nat.add_right_comm]
      exact h'

/-- The Lua arguments of a stub from the first argument of the protocol on. -/
theorem drop_withConn (side : Side) (conn : LuaValue) (vals : List LuaValue) :
    (side.withConn conn vals).drop side.argBase = vals := by
  cases side <;> rfl

/-- **A protocol with a string**: `marshal` can return more than the buffer holds. -/
theorem marshal_string (lua : Lua) (side : Side) (p : Pto) (conn : LuaValue)
    {vals : List LuaValue} {bufLen : Nat} (hsize : bufLen + p.args.length < 2147483648)
    (hvals : List.Forall₂ ArgBase.Matches p.args vals) (hfit : StringsFit bufLen 1 p.args vals)
    (hex : ∃ a ∈ p.args, a ≠ .dword) :
    ∃ ret buf n out, buf.length = bufLen ∧
      p.marshal lua side (side.withConn conn vals) ret buf = .ret n out ∧
      (bufLen : Int) < n ∧ out.length = bufLen := by
  obtain ⟨xs, str, args', vals', hint, hargs, rfl, hrest⟩ := exists_first_string hvals hex
  rw [hargs] at hfit hsize
  obtain ⟨⟨hroom, hshort⟩, hfit'⟩ := hfit.drop_dwords
  rw [List.length_append, List.length_map, List.length_cons] at hsize
  -- the string's return value is whatever makes the total exceed the buffer
  let total := bufLen + args'.length + 1
  let ret : Nat → Int := fun _ => total - (1 + 4 * xs.length : Nat)
  let buf : List UInt8 := List.replicate bufLen 0
  have hdrop : (side.withConn conn (xs.map .ofInt ++ .string str :: vals')).drop
      (side.argBase + 0) = xs.map .ofInt ++ .string str :: vals' := drop_withConn _ _ _
  have hdrop' : (side.withConn conn (xs.map .ofInt ++ .string str :: vals')).drop
      (side.argBase + (0 + xs.length)) = .string str :: vals' := by
    rw [Nat.zero_add, ← Nat.add_zero side.argBase, ← List.drop_drop, hdrop]
    simp
  have hget : (side.withConn conn (xs.map .ofInt ++ .string str :: vals'))[side.argBase +
      (0 + xs.length)]? = some (.string str) := by
    rw [← Nat.add_zero (side.argBase + (0 + xs.length)), ← List.getElem?_drop, hdrop']
    rfl
  have hdrop'' : (side.withConn conn (xs.map .ofInt ++ .string str :: vals')).drop
      (side.argBase + (0 + xs.length + 1)) = vals' := by
    rw [← Nat.add_assoc, ← List.drop_drop, hdrop']
    rfl
  have hid : writeAt buf 0 [p.id] = some ([p.id] ++ buf.drop 1) := by
    have hwrite := writeAt_append [] buf [p.id] rfl (by simp [buf]; omega)
    simpa using hwrite
  have hdwords := marshalLoop_dwords lua side _ bufLen ret (.string :: args') (by omega) xs 0 [p.id]
    (buf.drop 1) (.string str :: vals') hint hdrop (by simp [buf]; omega) (by simp; omega)
  -- the buffer before the string
  obtain ⟨pre, hpre⟩ : ∃ pre, pre = [p.id] ++ encodeDwords xs := ⟨_, rfl⟩
  obtain ⟨tail, htail⟩ : ∃ tail, tail = (buf.drop 1).drop (4 * xs.length) := ⟨_, rfl⟩
  rw [← hpre, ← htail] at hdwords
  have hprelen : pre.length = 1 + 4 * xs.length := by
    simp [hpre, Nat.add_comm]
  have hlen : (pre ++ tail).length = bufLen := by
    rw [List.length_append, hprelen, htail]
    simp only [buf, List.length_drop, List.length_replicate]
    omega
  have hleft : wrap32 ((bufLen : Int) - pre.length) = bufLen - pre.length :=
    wrap32_of_bounds (by omega) (by omega)
  obtain ⟨out, hpack, hout⟩ := stringPack_fits lua str (pre ++ tail) pre.length
    ((bufLen : Int) - pre.length) (ret (0 + xs.length)) (by omega) hshort (by omega)
  have hnext : wrap32 ((pre.length : Int) + ret (0 + xs.length)) = (total : Nat) := by
    have hret : (pre.length : Int) + ret (0 + xs.length) = (total : Nat) := by
      simp only [ret, hprelen]
      omega
    rw [hret]
    exact wrap32_of_bounds (by omega) (by omega)
  have hover := marshalLoop_over lua side _ bufLen ret out args' vals' (0 + xs.length + 1) total _
    hrest hfit' hdrop'' (by omega) (by omega)
  refine ⟨ret, buf, (total : Int) - args'.length, out, by simp [buf], ?_, by omega, by omega⟩
  have hone : ([p.id].length : Int) = 1 := rfl
  rw [hone] at hdwords
  unfold Pto.marshal
  rw [hid]
  simp only
  rw [hargs, show buf.length = bufLen by simp [buf], hdwords]
  simp only [marshalLoop, hget, hleft, ArgBase.pack, hpack, hnext]
  rw [if_neg (by simp only [ret]; omega), hover]

/-! ## Calls -/

/-- The call of the stub `p`, at the index `i` of the sender's table, arrives unchanged:
whenever `marshal` returns `n > 0`, `unpackData` of these `n` bytes on the other side
calls the handler at the index `i`, once and with equal arguments, and returns `n`.
This is for whatever values the code takes from nowhere. -/
def Tables.Arrives {files : List PtoFile} (t : Tables files) (lua : Lua)
    (raises : Nat → List LuaValue → Bool) (sender : Side) (i : Nat) (p : Pto)
    (vals : List LuaValue) (vfd hid : LuaValue) (bufLen : Nat) : Prop :=
  ∀ ret buf n out, buf.length = bufLen →
    p.marshal lua sender (sender.withConn vfd vals) ret buf = .ret n out → 0 < n →
    n ≤ out.length ∧ ∀ high,
      unpackData sender.other (t.ptos sender.other) (out.take n.toNat) hid high raises =
        some (n, [(i, sender.other.withConn hid vals)])

/-- A call with integer arguments only. -/
theorem exists_dwords {args : List ArgBase} {vals : List LuaValue}
    (hvals : List.Forall₂ ArgBase.Matches args vals) (hall : ∀ a ∈ args, a = .dword) :
    ∃ xs : List Int, (∀ x ∈ xs, IsInt32 x) ∧ args = xs.map (fun _ => .dword) ∧
      vals = xs.map .ofInt := by
  induction hvals with
  | nil => exact ⟨[], fun x hx => by simp at hx, rfl, rfl⟩
  | @cons a v args vals hv hvals ih =>
    obtain rfl := hall a (by simp)
    obtain ⟨x, hx, rfl⟩ := hv
    obtain ⟨xs, hint, rfl, rfl⟩ := ih fun b hb => hall b (by simp [hb])
    refine ⟨x :: xs, fun y hy => ?_, rfl, rfl⟩
    rcases List.mem_cons.mp hy with rfl | hy
    · exact hx
    · exact hint y hy

/-- What `marshal` does with integers that fit. -/
theorem marshal_dwords (lua : Lua) (side : Side) (p : Pto) (conn : LuaValue) {xs : List Int}
    (hint : ∀ x ∈ xs, IsInt32 x) (hargs : p.args = xs.map fun _ => .dword) (ret : Nat → Int)
    (buf : List UInt8) (hsize : buf.length < 2147483648) (hfit : 1 + 4 * xs.length ≤ buf.length) :
    ∃ rest, p.marshal lua side (side.withConn conn (xs.map .ofInt)) ret buf =
      .ret (1 + 4 * xs.length : Nat) (p.id :: (encodeDwords xs ++ rest)) := by
  have hid : writeAt buf 0 [p.id] = some ([p.id] ++ buf.drop 1) := by
    have hwrite := writeAt_append [] buf [p.id] rfl (by simp; omega)
    simpa using hwrite
  have hdwords := marshalLoop_dwords lua side (side.withConn conn (xs.map .ofInt)) buf.length ret []
    hsize xs 0 [p.id] (buf.drop 1) [] hint
    (by rw [Nat.add_zero, drop_withConn, List.append_nil]) (by simp; omega) (by simpa using hfit)
  refine ⟨(buf.drop 1).drop (4 * xs.length), ?_⟩
  unfold Pto.marshal
  rw [hid]
  simp only
  rw [List.append_nil, ← hargs] at hdwords
  have hone : ([p.id].length : Int) = 1 := rfl
  rw [hone] at hdwords
  rw [hdwords, marshalLoop]
  congr 1
  simp [Nat.add_comm]

/-- A call that was made is for the protocol whose index is the first byte, and all its
arguments were read. -/
theorem unpackData_call {side : Side} {ptos : List Pto} {data : List UInt8} {hid : LuaValue}
    {high : Nat → Nat} {raises : Nat → List LuaValue → Bool} {n : Int} {k : Nat}
    {args : List LuaValue} (hn : 0 < n)
    (h : unpackData side ptos data hid high raises = some (n, [(k, args)])) :
    ∃ b rest p vs, data = b :: rest ∧ k = b.toNat ∧ ptos[k]? = some p ∧
      unpackLoop data high p.args 0 0 [] = some (some (n - 1, vs)) ∧
      vs.length = p.args.length ∧ args = side.withConn hid vs ∧ raises k args = false := by
  unfold unpackData at h
  match data with
  | [] => simp at h
  | b :: rest =>
    simp only at h
    cases hp : ptos[b.toNat]? with
    | none => rw [hp] at h; simp at h
    | some p =>
      rw [hp] at h
      simp only at h
      cases hun : p.unpack side (b :: rest) hid high (raises b.toNat) with
      | none => rw [hun] at h; cases h
      | some r =>
        obtain ⟨m, calls⟩ := r
        rw [hun] at h
        simp only at h
        split at h
        · simp only [Option.some.injEq, Prod.mk.injEq] at h
          omega
        rename_i hm
        split at h
        · simp only [Option.some.injEq, Prod.mk.injEq] at h
          omega
        simp only [Option.some.injEq, Prod.mk.injEq] at h
        obtain ⟨rfl, hcalls⟩ := h
        unfold Pto.unpack at hun
        cases href : p.ref with
        | none =>
          rw [href] at hun
          simp only [Option.some.injEq, Prod.mk.injEq] at hun
          omega
        | some func =>
          rw [href] at hun
          simp only at hun
          match hloop : unpackLoop (b :: rest) high p.args 0 0 [] with
          | none => rw [hloop] at hun; cases hun
          | some none =>
            rw [hloop] at hun
            simp only [Option.some.injEq, Prod.mk.injEq] at hun
            omega
          | some (some (readedLen, vs)) =>
            rw [hloop] at hun
            simp only at hun
            split at hun
            · cases hun
            rename_i hlen
            have hlen : vs.length = p.args.length := by simpa using hlen
            split at hun
            · simp only [Option.some.injEq, Prod.mk.injEq] at hun
              omega
            · rename_i hraise
              simp only [Option.some.injEq, Prod.mk.injEq] at hun
              obtain ⟨rfl, rfl⟩ := hun
              simp only [List.map_cons, List.map_nil, List.cons.injEq, Prod.mk.injEq,
                and_true] at hcalls
              obtain ⟨rfl, rfl⟩ := hcalls
              refine ⟨b, rest, p, vs, rfl, rfl, hp, ?_, hlen, rfl, by simpa using hraise⟩
              rw [hloop]
              congr 3
              omega

/-- The receiver handles integers that arrive whole. -/
theorem unpackData_dwords {side : Side} {ptos : List Pto} {hid : LuaValue} {high : Nat → Nat}
    {raises : Nat → List LuaValue → Bool} {q : Pto} {b : UInt8} {xs : List Int}
    {func : List UInt8} (hq : ptos[b.toNat]? = some q) (hargs : q.args = xs.map fun _ => .dword)
    (href : q.ref = some func) (hint : ∀ x ∈ xs, IsInt32 x)
    (hsize : 1 + 4 * xs.length < 2147483648)
    (hraise : raises b.toNat (side.withConn hid (xs.map .ofInt)) = false) :
    unpackData side ptos (b :: encodeDwords xs) hid high raises =
      some (((1 + 4 * xs.length : Nat) : Int),
        [(b.toNat, side.withConn hid (xs.map .ofInt))]) := by
  have hloop := unpackLoop_dwords high [] xs 0 0 [b] [] [] hint rfl
    (by simp only [List.length_append, length_encodeDwords, List.length_singleton,
          List.length_nil]; omega)
  simp only [List.append_nil, List.singleton_append, List.nil_append, Nat.zero_add, unpackLoop,
    Nat.cast_zero] at hloop
  unfold unpackData
  simp only [hq]
  unfold Pto.unpack
  simp only [href, hargs, hloop]
  rw [if_neg (by simp)]
  simp only [hraise]
  rw [if_neg (by simp)]
  simp only
  rw [if_neg (by omega), if_neg (by simp)]
  simp

/-- **Remote calls arrive unchanged exactly if** the protocol's index fits one byte, all
its arguments are integers, they fit the buffer, and the handler raises no error. The
calls are those for which the claim makes sense: typed arguments, strings that fit,
and a `marshal` that can return a positive number. -/
theorem call_arrives_iff {files : List PtoFile} (t : Tables files) (lua : Lua)
    (raises : Nat → List LuaValue → Bool) {sender : Side} {i : Nat} {p : Pto}
    (hp : (t.ptos sender)[i]? = some p) (hcaller : p.isMaker = false) {vals : List LuaValue}
    (hvals : List.Forall₂ ArgBase.Matches p.args vals) (vfd hid : LuaValue) {bufLen : Nat}
    (hsize : bufLen + p.args.length < 2147483648) (hfit : StringsFit bufLen 1 p.args vals)
    (hpos : ∃ ret buf n out, buf.length = bufLen ∧
      p.marshal lua sender (sender.withConn vfd vals) ret buf = .ret n out ∧ 0 < n) :
    t.Arrives lua raises sender i p vals vfd hid bufLen ↔
      i < 256 ∧ (∀ a ∈ p.args, a = .dword) ∧ 1 + 4 * p.args.length ≤ bufLen ∧
        raises i (sender.other.withConn hid vals) = false := by
  obtain ⟨hid', q, hq, hargs, func, href⟩ := t.receiver hp hcaller
  constructor
  · intro h
    have hall : ∀ a ∈ p.args, a = .dword := by
      by_contra hex
      push Not at hex
      obtain ⟨ret, buf, n, out, hbuf, hmarshal, hn, hout⟩ :=
        marshal_string lua sender p vfd hsize hvals hfit hex
      have := (h ret buf n out hbuf hmarshal (by omega)).1
      omega
    obtain ⟨xs, hint, hxs, rfl⟩ := exists_dwords hvals hall
    have hlen : p.args.length = xs.length := by rw [hxs, List.length_map]
    obtain ⟨ret, buf, n, out, hbuf, hmarshal, hn⟩ := hpos
    obtain ⟨hle, hun⟩ := h ret buf n out hbuf hmarshal hn
    obtain ⟨b, rest, q', vs, hdata, hi, hq', hloop, hvs, -, hraise⟩ :=
      unpackData_call hn (hun fun _ => 0)
    cases hq.symm.trans hq'
    -- the receiver read all arguments, so `marshal` wrote them all
    have hsmall : n ≤ bufLen := by
      unfold Pto.marshal at hmarshal
      cases hwrite : writeAt buf 0 [p.id] with
      | none => rw [hwrite] at hmarshal; cases hmarshal
      | some buf' =>
        rw [hwrite] at hmarshal
        have hone := (writeAt_bounds hwrite).2
        rw [List.length_singleton] at hone
        rw [hbuf] at hmarshal hone
        exact marshalLoop_dwords_le lua sender _ bufLen ret p.args 0 1 buf' hall (by omega)
          (by omega) (by omega) hmarshal
    have hdatalen : (out.take n.toNat).length = n.toNat := by
      rw [List.length_take]
      omega
    have hread := (unpackLoop_dwords_all _ _ q.args 0 0 [] (by rw [hargs]; exact hall) (by omega)
      (by omega) (by rw [hdatalen, hargs]; omega) hloop).2 (by rw [hvs]; simp)
    rw [hargs] at hread
    have hroom : 1 + 4 * p.args.length ≤ bufLen := by omega
    refine ⟨?_, hall, hroom, hraise⟩
    rw [hlen, ← hbuf] at hroom
    obtain ⟨tail, hpacked⟩ := marshal_dwords lua sender p vfd hint hxs ret buf (by omega) hroom
    rw [hpacked] at hmarshal
    cases hmarshal
    have hb : b = p.id := by
      rw [Int.toNat_natCast, Nat.add_comm 1, List.take_succ_cons] at hdata
      cases hdata
      rfl
    rw [hi, hb]
    exact UInt8.toNat_lt _
  · rintro ⟨hi, hall, hroom, hraise⟩ ret buf n out hbuf hmarshal -
    obtain ⟨xs, hint, hxs, rfl⟩ := exists_dwords hvals hall
    have hlen : p.args.length = xs.length := by rw [hxs, List.length_map]
    rw [hlen] at hroom
    obtain ⟨tail, hpacked⟩ := marshal_dwords lua sender p vfd hint hxs ret buf (by omega)
      (by omega)
    rw [hpacked] at hmarshal
    cases hmarshal
    have hidx : p.id.toNat = i := by
      rw [hid', UInt8.toNat_ofNat']
      omega
    refine ⟨by simp only [List.length_cons, List.length_append, length_encodeDwords]; omega,
      fun high => ?_⟩
    have htake : (p.id :: (encodeDwords xs ++ tail)).take (1 + 4 * xs.length) =
        p.id :: encodeDwords xs := by
      rw [Nat.add_comm, List.take_succ_cons, List.take_left' (length_encodeDwords xs)]
    rw [Int.toNat_natCast, htake, unpackData_dwords (q := q) (by rw [hidx]; exact hq)
      (hargs.trans hxs) href hint (by omega) (by rw [hidx]; exact hraise), hidx]

/-- A protocol of the client, called `ca`, with arguments of the given types. -/
def clientFile (args : List ArgBase) : PtoFile := ⟨[99, 97], args⟩

/-- Its stub on the server. -/
def clientStub (args : List ArgBase) : Pto := ⟨0, [99, 97], args, false, none⟩

/-- Both sides' tables with that protocol alone. -/
def clientTables (args : List ArgBase) : Tables [clientFile args] where
  forMaker _ := [[99, 97]]
  ptos
    | .s => [clientStub args]
    | .c => [⟨0, [99, 97], args, true, some [99, 97]⟩]
  loaded side := by cases side <;> rfl

/-- A call of the server with one integer. -/
theorem call_arrives_iff_five :
    (clientTables [.dword]).Arrives .x86 (fun _ _ => false) .s 0 (clientStub [.dword])
        [.ofInt 5] (.ofInt 3) .nil 100 ↔
      0 < 256 ∧ (∀ a ∈ [ArgBase.dword], a = .dword) ∧ 1 + 4 * [ArgBase.dword].length ≤ 100 ∧
        (fun _ _ => false : Nat → List LuaValue → Bool) 0 (Side.c.withConn .nil [.ofInt 5]) =
          false :=
  call_arrives_iff (p := clientStub [.dword]) (clientTables [.dword]) .x86 (fun _ _ => false) rfl
    rfl (.cons ⟨5, ⟨by decide, by decide⟩, rfl⟩ .nil) (.ofInt 3) .nil (by decide) trivial
    ⟨fun _ => 0, List.replicate 100 0, 5, _, rfl, rfl, by decide⟩

/-- A call of the server with the string `ab`. Even if `pack` returns the four bytes that
it means to use, the length it sends is wrong, and the client reads past the end. -/
theorem string_call_fails :
    (∃ out, (clientStub [.string]).marshal .x86 .s [.ofInt 3, .string [97, 98]] (fun _ => 4)
        (List.replicate 100 0) = .ret 5 out ∧ out.take 5 = [0, 3, 97, 98, 0]) ∧
      unpackData .c ((clientTables [.string]).ptos .c) [0, 3, 97, 98, 0] .nil (fun _ => 0)
        (fun _ _ => false) = none ∧
      ¬ (clientTables [.string]).Arrives .x86 (fun _ _ => false) .s 0 (clientStub [.string])
        [.string [97, 98]] (.ofInt 3) .nil 100 := by
  refine ⟨⟨_, rfl, rfl⟩, rfl, fun h => ?_⟩
  have hcall := (h (fun _ => 4) (List.replicate 100 0) 5 _ rfl rfl (by decide)).2 fun _ => 0
  cases hcall

end Donkeyji.Xy3.Proto
