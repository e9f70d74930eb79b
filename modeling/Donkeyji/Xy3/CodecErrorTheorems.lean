/-
Donkeyji.Xy3.CodecErrorTheorems — when `cs/my_xy3` reports that an argument
could not be packed or unpacked.

`codec_errors_iff` gives the exact conditions. A failed `pack` is reported
only if a later argument stops `marshal` for a reason of its own. A failed
`unpack` is not reported at all: on an empty stack `lua_pcall` then finds
fewer values than it takes, so that every argument has to be there.
-/
import Donkeyji.Xy3.ProtoTheorems
import Donkeyji.Xy3.CodecErrors

namespace Donkeyji.Xy3.Proto

open Memory

/-! ## Packing -/

/-- A write of bytes that fit, and a return. -/
theorem writeRet_fits (buf bytes : List UInt8) {off : Int} (n : Int) (h0 : 0 ≤ off)
    (h : off + bytes.length ≤ buf.length) :
    ∃ out, writeRet buf off bytes n = .ret n out ∧ out.length = buf.length := by
  have hw := writeAt_some h0 h
  refine ⟨_, ?_, length_writeAt hw⟩
  rw [writeRet, hw]

/-- A write that leaves the buffer. -/
theorem writeAt_outside {buf bytes : List UInt8} {off : Int}
    (h : ¬ (0 ≤ off ∧ off + bytes.length ≤ buf.length)) : writeAt buf off bytes = none := by
  rw [writeAt, if_neg h]

/-- A string that has no room, or no id of two bytes. -/
theorem string_failed {lua : Lua} {v : Option LuaValue} {data : List UInt8} {left : Int}
    (buf : List UInt8) (off ret : Int) (hv : v.bind lua.checklstring = some data)
    (h : ¬ (wrap32 (wrap32 data.length + 1) ≤ 0xffff ∧ wrap32 (data.length + 2) ≤ left)) :
    ArgBase.string.outcome lua v left ret = .failed ∧
      ArgBase.string.pack lua v buf off left ret = .ret (-1) buf := by
  simp only [ArgBase.outcome, ArgBase.pack, stringPack, hv]
  by_cases hid : wrap32 (wrap32 data.length + 1) ≤ 0xffff
  · have hleft : wrap32 (data.length + 2) > left := by
      by_contra hle
      exact h ⟨hid, by omega⟩
    rw [if_pos hid, if_pos hid, if_pos hleft, if_pos hleft]
    exact ⟨rfl, rfl⟩
  · rw [if_neg hid, if_neg hid]
    exact ⟨rfl, rfl⟩

/-- A string that `ArgString::pack` writes. -/
theorem string_written {lua : Lua} {v : Option LuaValue} {data : List UInt8} {left : Int}
    (buf : List UInt8) (off ret : Int) (hv : v.bind lua.checklstring = some data)
    (h : wrap32 (wrap32 data.length + 1) ≤ 0xffff ∧ wrap32 (data.length + 2) ≤ left) :
    ArgBase.string.outcome lua v left ret = .written (max 2 (data.length + 1)) ret ∧
      ArgBase.string.pack lua v buf off left ret =
        match writeAt buf off (leBytes 2 (wrap32 (wrap32 data.length + 1) % 4294967296).toNat) with
        | none => .fault
        | some buf => writeRet buf (off + 1) data ret := by
  simp only [ArgBase.outcome, ArgBase.pack, stringPack, hv]
  have hleft : ¬ wrap32 (data.length + 2) > left := by omega
  rw [if_pos h.1, if_pos h.1, if_neg hleft, if_neg hleft]
  exact ⟨rfl, rfl⟩

/-- The two writes of `ArgString::pack`, of which the second begins inside the first. -/
theorem stringWrite_cases (buf data : List UInt8) (strId : Nat) (off ret : Int) :
    if 0 ≤ off ∧ off + (max 2 (data.length + 1) : Nat) ≤ buf.length then
      ∃ out, (match writeAt buf off (leBytes 2 strId) with
        | none => PackRes.fault
        | some buf => writeRet buf (off + 1) data ret) = .ret ret out ∧ out.length = buf.length
    else (match writeAt buf off (leBytes 2 strId) with
      | none => PackRes.fault
      | some buf => writeRet buf (off + 1) data ret) = .fault := by
  split
  · rename_i hin
    obtain ⟨buf1, hbuf1⟩ : ∃ buf1, writeAt buf off (leBytes 2 strId) = some buf1 :=
      ⟨_, writeAt_some hin.1 (by rw [length_leBytes]; omega)⟩
    have hlen := length_writeAt hbuf1
    obtain ⟨out, hout, hlen'⟩ := writeRet_fits buf1 data ret
      (by omega : 0 ≤ off + 1) (by omega)
    rw [hbuf1]
    exact ⟨out, hout, hlen'.trans hlen⟩
  · rename_i hout
    cases hbuf1 : writeAt buf off (leBytes 2 strId) with
    | none => rfl
    | some buf1 =>
      have hb := writeAt_bounds hbuf1
      rw [length_leBytes] at hb
      have hlen := length_writeAt hbuf1
      have hwide : ¬ (0 ≤ off + 1 ∧ off + 1 + data.length ≤ buf1.length) := by
        rw [hlen]
        intro h
        exact hout ⟨hb.1, by omega⟩
      simp only [writeRet, writeAt_outside hwide]

/-- The outcome of a `pack` says how it ends. -/
theorem pack_outcome (lua : Lua) (v : Option LuaValue) (buf : List UInt8) (off left ret : Int)
    (arg : ArgBase) :
    match arg.outcome lua v left ret with
    | .refused => arg.pack lua v buf off left ret = .raise
    | .failed => arg.pack lua v buf off left ret = .ret (-1) buf
    | .written span n =>
      if 0 ≤ off ∧ off + span ≤ buf.length then
        ∃ out, arg.pack lua v buf off left ret = .ret n out ∧ out.length = buf.length
      else arg.pack lua v buf off left ret = .fault := by
  cases arg with
  | dword =>
    simp only [ArgBase.outcome, ArgBase.pack, dwordPack]
    cases v.bind lua.checkInt with
    | none => rfl
    | some num =>
      by_cases hleft : 4 > left
      · simp [hleft]
      · simp only [hleft, if_false]
        split
        · rename_i hin
          exact writeRet_fits _ _ _ hin.1 (by rw [length_leBytes]; exact hin.2)
        · rename_i hout
          rw [writeRet, writeAt_outside (by rw [length_leBytes]; exact hout)]
  | number =>
    simp only [ArgBase.outcome, ArgBase.pack, numberPack]
    cases v.bind lua.checknumber with
    | none => rfl
    | some data =>
      by_cases hz : data = .finite 0
      · simp [hz]
      · by_cases hleft : 8 > left
        · simp [hz, hleft]
        · simp only [hz, hleft, if_false]
          split
          · rename_i hin
            exact writeRet_fits _ _ _ hin.1 (by rw [LuaNumber.length_doubleBytes]; exact hin.2)
          · rename_i hout
            rw [writeRet, writeAt_outside (by rw [LuaNumber.length_doubleBytes]; exact hout)]
  | string =>
    cases hv : v.bind lua.checklstring with
    | none => simp only [ArgBase.outcome, ArgBase.pack, stringPack, hv]
    | some data =>
      by_cases h : wrap32 (wrap32 data.length + 1) ≤ 0xffff ∧ wrap32 (data.length + 2) ≤ left
      · obtain ⟨hout, hpack⟩ := string_written buf off ret hv h
        rw [hout, hpack]
        exact stringWrite_cases buf data _ off ret
      · obtain ⟨hout, hpack⟩ := string_failed buf off ret hv h
        rw [hout]
        exact hpack

/-- What stops the loop of `marshal` after a failure. -/
theorem marshalLoop_raises_iff (lua : Lua) (side : Side) (L : List LuaValue) (bufLen : Nat)
    (ret : Nat → Int) (args : List ArgBase) : ∀ (i : Nat) (usedLen : Int) (buf : List UInt8)
    (failed : Bool), buf.length = bufLen →
    (((failed = true ∨ packFails lua side L bufLen ret args i usedLen buf) →
      marshalLoop lua side L bufLen ret args i usedLen buf = .raise) ↔
      StopsAfterFailure lua side L bufLen ret args i usedLen failed) := by
  induction args with
  | nil =>
    intro i usedLen buf failed _
    cases failed <;> simp [packFails, marshalLoop, StopsAfterFailure]
  | cons arg args ih =>
    intro i usedLen buf failed hlen
    have ho := pack_outcome lua (L[side.argBase + i]?) buf usedLen
      (wrap32 (bufLen - usedLen)) (ret i) arg
    simp only [packFails, marshalLoop, StopsAfterFailure]
    cases hout : arg.outcome lua (L[side.argBase + i]?) (wrap32 (bufLen - usedLen)) (ret i) with
    | refused =>
      rw [hout] at ho
      simp [show arg.pack _ _ _ _ _ _ = _ from ho]
    | failed =>
      rw [hout] at ho
      have hrec := ih (i + 1) (wrap32 (usedLen + -1)) buf true hlen
      simpa [show arg.pack _ _ _ _ _ _ = _ from ho] using hrec
    | written span n =>
      rw [hout] at ho
      dsimp only at ho ⊢
      rw [hlen] at ho
      by_cases hin : 0 ≤ usedLen ∧ usedLen + span ≤ bufLen
      · rw [if_pos hin] at ho ⊢
        obtain ⟨out, hpack, hlen'⟩ := ho
        simp only [hpack]
        by_cases hn : n = 0
        · simp [hn]
        · have hrec := ih (i + 1) (wrap32 (usedLen + n)) out (failed || n = -1) hlen'
          simp only [hn, if_false, false_or, ne_eq, not_false_eq_true, true_and]
          rw [← hrec]
          simp [or_assoc]
      · rw [if_neg hin] at ho ⊢
        simp [show arg.pack _ _ _ _ _ _ = _ from ho]

/-- When `marshal` raises, the stub sends nothing. -/
theorem stub_of_raise {lua : Lua} {side : Side} {p : Pto} {L : List LuaValue} {ret : Nat → Int}
    {buf : List UInt8} (h : p.marshal lua side L ret buf = .raise) :
    p.stub lua side L ret buf = .raise ∨ p.stub lua side L ret buf = .done none := by
  unfold Pto.stub
  split
  · rw [h]
    exact Or.inl rfl
  · exact Or.inr rfl

/-- When a failed `pack` is reported. -/
theorem packErrors_iff (lua : Lua) (side : Side) (p : Pto) (L : List LuaValue) (ret : Nat → Int)
    (buf : List UInt8) : PackErrorsReported lua side p L ret buf ↔
      buf = [] ∨ StopsAfterFailure lua side L buf.length ret p.args 0 1 false := by
  have hmarshal : PackErrorsReported lua side p L ret buf ↔
      (p.PackFails lua side L ret buf → p.marshal lua side L ret buf = .raise) := by
    constructor
    · intro h hf
      exact (h hf).1
    · intro h hf
      exact ⟨h hf, stub_of_raise (h hf)⟩
  rw [hmarshal]
  cases buf with
  | nil => simp [Pto.PackFails, writeAt]
  | cons b buf =>
    obtain ⟨buf', hw⟩ : ∃ buf', writeAt (b :: buf) 0 [p.id] = some buf' :=
      ⟨_, writeAt_some (by omega) (by simp)⟩
    have hiff := marshalLoop_raises_iff lua side L (b :: buf).length ret p.args 0 1 buf' false
      (length_writeAt hw)
    simp only [Pto.PackFails, Pto.marshal, hw]
    simpa using hiff

/-! ## Unpacking -/

/-- An `unpack` of a packet that an `int` can measure returns -1 and pushes nothing, or
returns a positive number and pushes one value. -/
theorem unpack_cases {data : List UInt8} (hdata : data.length < 2147483648) {arg : ArgBase}
    {off left : Int} {high : Nat} {n : Int} {vs : List LuaValue}
    (h : arg.unpack data off left high = some (n, vs)) :
    (n = -1 ∧ vs = []) ∨ (0 < n ∧ vs.length = 1) := by
  cases arg with
  | dword =>
    simp only [ArgBase.unpack, dwordUnpack] at h
    split at h
    · simp at h
      exact Or.inl ⟨h.1.symm, h.2⟩
    · obtain ⟨bs, -, heq⟩ := Option.map_eq_some_iff.mp h
      cases heq
      exact Or.inr ⟨by omega, rfl⟩
  | number =>
    simp only [ArgBase.unpack, numberUnpack] at h
    split at h
    · simp at h
      exact Or.inl ⟨h.1.symm, h.2⟩
    · obtain ⟨bs, -, heq⟩ := Option.map_eq_some_iff.mp h
      cases heq
      exact Or.inr ⟨by omega, rfl⟩
  | string =>
    simp only [ArgBase.unpack, stringUnpack] at h
    split at h
    · simp only [Option.some.injEq, Prod.mk.injEq] at h
      exact Or.inl ⟨h.1.symm, h.2.symm⟩
    · cases hread : readAt data off 2 with
      | none => simp [hread] at h
      | some bs =>
        simp only [hread] at h
        obtain ⟨s, hs, heq⟩ := Option.map_eq_some_iff.mp h
        obtain ⟨rfl, rfl⟩ := Prod.mk.inj heq
        obtain ⟨h0, -, -, -⟩ := readAt_eq_some.mp hread
        obtain ⟨-, -, hend, -⟩ := readAt_eq_some.mp hs
        refine Or.inr ⟨?_, rfl⟩
        rw [wrap32_of_bounds (by omega) (by omega)]
        omega

/-- The loop of `unpack` never sees the 0 it asks for, and every failure leaves a value
short. -/
theorem unpackLoop_short {data : List UInt8} (hdata : data.length < 2147483648)
    (high : Nat → Nat) (args : List ArgBase) : ∀ (i : Nat) (readed : Int)
    (pushed : List LuaValue), unpackLoop data high args i readed pushed ≠ some none ∧
    ∀ m vs, unpackLoop data high args i readed pushed = some (some (m, vs)) →
      vs.length ≤ pushed.length + args.length ∧
      (unpackFails data high args i readed → vs.length < pushed.length + args.length) := by
  induction args with
  | nil =>
    intro i readed pushed
    refine ⟨by simp [unpackLoop], ?_⟩
    intro m vs h
    simp only [unpackLoop, Option.some.injEq, Prod.mk.injEq] at h
    obtain ⟨-, rfl⟩ := h
    exact ⟨by simp, fun hf => hf.elim⟩
  | cons arg args ih =>
    intro i readed pushed
    simp only [unpackLoop, unpackFails]
    cases hun : arg.unpack data (1 + readed) (data.length - 1 - readed) (high i) with
    | none => exact ⟨by simp, fun m vs h => by simp at h⟩
    | some res =>
      obtain ⟨n, new⟩ := res
      have hn : n ≠ 0 := by
        have := unpack_cases hdata hun
        omega
      obtain ⟨hne, hloop⟩ := ih (i + 1) (wrap32 (readed + n)) (pushed ++ new)
      simp only [hn, if_false]
      refine ⟨hne, ?_⟩
      intro m vs h
      obtain ⟨hle, hlt⟩ := hloop m vs h
      rw [List.length_append] at hle hlt
      rw [List.length_cons]
      cases unpack_cases hdata hun with
      | inl hfail =>
        obtain ⟨-, hnew⟩ := hfail
        rw [hnew, List.length_nil] at hle
        exact ⟨by omega, fun _ => by omega⟩
      | inr hok =>
        obtain ⟨hpos, hnew⟩ := hok
        rw [hnew] at hle hlt
        refine ⟨by omega, ?_⟩
        intro hf
        cases hf with
        | inl hf => omega
        | inr hf =>
          have := hlt hf.2
          omega

/-- A value of a fixed width fails exactly if its bytes are not there. -/
theorem unpackFails_fixed {data : List UInt8} (hdata : data.length < 2147483648)
    {high : Nat → Nat} {arg : ArgBase} {w : Nat} {value : List UInt8 → List LuaValue}
    (hpos : 0 < w) (hwidth : w ≤ 8)
    (harg : ∀ off bufLen high, arg.unpack data off bufLen high =
      if w > bufLen then some (-1, []) else (readAt data off w).map fun bs => ((w : Int), value bs))
    {args : List ArgBase} {i readed : Nat} (hr : 1 + readed ≤ data.length) :
    unpackFails data high (arg :: args) i readed ↔
      ¬ 1 + readed + w ≤ data.length ∨ unpackFails data high args (i + 1) (readed + w : Nat) := by
  rw [unpackFails, harg]
  by_cases hroom : 1 + readed + w ≤ data.length
  · rw [if_neg (by omega), readAt_some (by omega) (by omega) (by omega)]
    have hnext : wrap32 ((readed : Int) + w) = ((readed + w : Nat) : Int) := by
      rw [wrap32_of_bounds (by omega) (by omega), Nat.cast_add]
    have hfail : (w : Int) ≠ -1 := by omega
    have hzero : (w : Int) ≠ 0 := by omega
    simp only [Option.map_some, hnext, hfail, hzero, hroom, not_true, ne_eq, not_false_eq_true,
      true_and, false_or]
  · rw [if_pos (by omega)]
    simp [hroom]

theorem stringUnpack_eq {data bs : List UInt8} {off bufLen : Int} (high : Nat)
    (hlen : ¬ 2 > bufLen) (hbs : readAt data off 2 = some bs) :
    stringUnpack data off bufLen high =
      (readAt data (off + 2) (high * 65536 + leNat bs : Nat)).map fun s =>
        (wrap32 (2 + (high * 65536 + leNat bs : Nat)), [.string s]) := by
  simp only [stringUnpack, hlen, hbs, if_false]

/-- A string fails exactly if its length is not there; the bytes behind it are read unchecked. -/
theorem unpackFails_string {data : List UInt8} (hdata : data.length < 2147483648)
    {high : Nat → Nat} {args : List ArgBase} {i readed : Nat} (hr : 1 + readed ≤ data.length) :
    unpackFails data high (.string :: args) i readed ↔ ¬ 1 + readed + 2 ≤ data.length ∨
      (1 + readed + 2 + (high i * 65536 + leNat (slice data (1 + readed) 2)) ≤ data.length ∧
        unpackFails data high args (i + 1)
          (readed + 2 + (high i * 65536 + leNat (slice data (1 + readed) 2)) : Nat)) := by
  rw [unpackFails, ArgBase.unpack]
  by_cases hroom : 1 + readed + 2 ≤ data.length
  · have htwo : readAt data (1 + (readed : Int)) 2 = some (slice data (1 + readed) 2) :=
      readAt_some (by omega) (by omega) (by omega)
    rw [stringUnpack_eq (high i) (by omega) htwo]
    generalize high i * 65536 + leNat (slice data (1 + readed) 2) = len
    by_cases hlen : 1 + readed + 2 + len ≤ data.length
    · rw [readAt_some (by omega) (by omega) (by omega)]
      have hwrap : wrap32 (2 + (len : Int)) = 2 + len :=
        wrap32_of_bounds (by omega) (by omega)
      have hnext : wrap32 ((readed : Int) + (2 + len)) = ((readed + 2 + len : Nat) : Int) := by
        rw [wrap32_of_bounds (by omega) (by omega)]
        push_cast
        omega
      have hfail : (2 : Int) + len ≠ -1 := by omega
      have hzero : (2 : Int) + len ≠ 0 := by omega
      simp only [Option.map_some, hwrap, hnext, hfail, hzero, hroom, hlen, not_true, ne_eq,
        not_false_eq_true, true_and, false_or]
    · have hnone : readAt data (1 + (readed : Int) + 2) len = none := by
        rw [readAt, if_neg (by omega)]
      simp [hnone, hroom, hlen]
  · rw [stringUnpack, if_pos (by omega)]
    simp [hroom]

/-- No `unpack` fails exactly if the bytes that each looks at are there. -/
theorem unpackFails_iff {data : List UInt8} (hdata : data.length < 2147483648)
    (high : Nat → Nat) (args : List ArgBase) : ∀ (i readed : Nat), 1 + readed ≤ data.length →
    (¬ unpackFails data high args i readed ↔ AllThere data high args i readed) := by
  induction args with
  | nil =>
    intro i readed _
    simp [unpackFails, AllThere]
  | cons arg args ih =>
    intro i readed hr
    cases arg with
    | dword =>
      rw [unpackFails_fixed hdata (show 0 < 4 by decide) (by decide) (fun _ _ _ => rfl) hr,
        AllThere, not_or, not_not]
      refine and_congr_right ?_
      intro hroom
      exact ih (i + 1) (readed + 4) (by omega)
    | number =>
      rw [unpackFails_fixed hdata (show 0 < 8 by decide) (by decide) (fun _ _ _ => rfl) hr,
        AllThere, not_or, not_not]
      refine and_congr_right ?_
      intro hroom
      exact ih (i + 1) (readed + 8) (by omega)
    | string =>
      rw [unpackFails_string hdata hr, AllThere, not_or, not_not, not_and]
      refine and_congr_right ?_
      intro _
      refine imp_congr_right ?_
      intro hlen
      exact ih (i + 1) _ (by omega)

/-- With an empty stack, a failed `unpack` leaves `lua_pcall` without its function. -/
theorem unpackOn_nil {side : Side} {p : Pto} {data : List UInt8} {high : Nat → Nat}
    (hdata : data.length < 2147483648) (hf : p.UnpackFails data high) (handler hid : LuaValue)
    (raises : LuaValue → List LuaValue → Bool) (msg : LuaValue) :
    p.unpackOn side [] handler data hid high raises msg = none := by
  obtain ⟨href, hfails⟩ := hf
  obtain ⟨hne, hloop⟩ := unpackLoop_short hdata high p.args 0 0 []
  unfold Pto.unpackOn
  cases hr : p.ref with
  | none => exact absurd hr href
  | some f =>
    dsimp only
    cases hun : unpackLoop data high p.args 0 0 [] with
    | none => rfl
    | some res =>
      cases res with
      | none => exact absurd hun hne
      | some res =>
        obtain ⟨m, vs⟩ := res
        have hshort := (hloop m vs hun).2 hfails
        simp only [List.length_nil, Nat.zero_add] at hshort
        dsimp only
        have hlen : ((side.withConn hid vs).reverse ++ [handler]).length ≤
            side.argBase + p.args.length := by
          cases side <;> simp [Side.withConn, Side.argBase] <;> omega
        rw [List.drop_eq_nil_of_le hlen]

/-- When a failed `unpack` is reported. -/
theorem unpackErrors_iff (side : Side) (p : Pto) (b : UInt8) (body : List UInt8)
    (high : Nat → Nat) (hlen : (b :: body).length < 2147483648) :
    UnpackErrorsReported side p b body high ↔
      p.ref = none ∨ AllThere (b :: body) high p.args 0 0 := by
  have hiff := unpackFails_iff hlen high p.args 0 0 (by simp)
  constructor
  · intro h
    by_cases href : p.ref = none
    · exact Or.inl href
    · refine Or.inr (hiff.mp ?_)
      intro hfails
      obtain ⟨⟨L, calls, hres, -⟩, -⟩ := h ⟨href, hfails⟩ [] .nil .nil (fun _ _ => false) .nil
      rw [unpackOn_nil hlen ⟨href, hfails⟩] at hres
      cases hres
  · intro h hf
    obtain ⟨href, hfails⟩ := hf
    cases h with
    | inl h => exact absurd h href
    | inr h => exact absurd hfails (hiff.mpr h)

/-- On a stack, `unpack` does what it does without one when no value is short: it calls the
handler and leaves the stack as it was. -/
theorem unpackOn_of_unpack {side : Side} {p : Pto} {data : List UInt8} {hid : LuaValue}
    {high : Nat → Nat} {raises : LuaValue → List LuaValue → Bool} {handler : LuaValue} {n : Int}
    {calls : List (List LuaValue)}
    (h : p.unpack side data hid high (raises handler) = some (n, calls)) (entry : LuaStack)
    (msg : LuaValue) : p.unpackOn side entry handler data hid high raises msg =
      some (n, entry, calls.map fun args => (handler, args)) := by
  unfold Pto.unpack at h
  unfold Pto.unpackOn
  cases hr : p.ref with
  | none =>
    simp only [hr, Option.some.injEq, Prod.mk.injEq] at h
    obtain ⟨rfl, rfl⟩ := h
    rfl
  | some f =>
    simp only [hr] at h
    dsimp only
    cases hun : unpackLoop data high p.args 0 0 [] with
    | none => simp [hun] at h
    | some res =>
      cases res with
      | none =>
        simp only [hun, Option.some.injEq, Prod.mk.injEq] at h
        obtain ⟨rfl, rfl⟩ := h
        rfl
      | some res =>
        obtain ⟨m, vs⟩ := res
        simp only [hun] at h
        split at h
        · cases h
        · rename_i hvs
          have hargs : ((side.withConn hid vs).reverse).length =
              side.argBase + p.args.length := by
            have hvs' : vs.length = p.args.length := by simpa using hvs
            cases side
            · simp [Side.withConn, Side.argBase, hvs']
              omega
            · simp [Side.withConn, Side.argBase, hvs']
          dsimp only
          rw [← hargs, List.drop_left, List.take_left, List.reverse_reverse]
          dsimp only
          split at h
          · rename_i hraise
            cases h
            rw [if_pos hraise, settop_cons]
            rfl
          · rename_i hraise
            cases h
            rw [if_neg hraise, settop_self]
            rfl

end Donkeyji.Xy3.Proto
