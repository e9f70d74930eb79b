/-
Donkeyji.Mydb.HeaderTheorems — which protocol ids survive the wire.

`marshal` writes an id from 256 on into two bytes after a zero byte, and nothing
in `add_protocol` stops the ids at 65535. `headerSurvives_iff` is about one
protocol, `headersSurvive_iff` about the table after any run of `add_protocol`
and `update_protocol`.
-/
import Donkeyji.Mydb.UnpackData
import Donkeyji.Mydb.ProtoManagerTheorems

namespace Donkeyji.Mydb

open Memory

/-! ## One header -/

/-- The arguments come after what is in the buffer already. -/
theorem marshalArgs_extends {lua : Lua} {bufLen : Int} : ∀ (args : List FcallArg) (i : Nat)
    (usedLen : Int) (out : List UInt8) (L : LuaStack) {n : Int} {out' : List UInt8}
    {L' : LuaStack}, marshalArgs lua bufLen args i usedLen out L = .ret n out' L' → out <+: out'
  | [], _, _, out, _, _, _, _, h => by
    cases h
    exact List.prefix_rfl
  | a :: args, i, usedLen, out, L, n, out', L', h => by
    rw [marshalArgs] at h
    cases hpack : a.pack lua L (stackAt L (i + 2)) (bufLen - usedLen) with
    | raise =>
      rw [hpack] at h
      cases h
    | fault =>
      rw [hpack] at h
      cases h
    | ret curUsed bytes L1 =>
      simp only [hpack] at h
      split at h
      · cases h
      · exact (List.prefix_append out bytes).trans (marshalArgs_extends args _ _ _ _ h)

/-- What `marshal` writes begins with the header. -/
theorem NetProtocol.marshal_header {lua : Lua} {P : NetProtocol} {L L' : LuaStack}
    {bufLen n : Int} {out : List UInt8} (h : P.marshal lua L bufLen = .ret n out L') :
    P.header <+: out := by
  unfold NetProtocol.marshal at h
  split at h
  · cases h
  · exact marshalArgs_extends _ _ _ _ _ h

/-- An id of one byte is read back. -/
theorem readHeader_byte {n : Nat} (hpos : n ≠ 0) (hlt : n < 256) (rest : List UInt8) :
    readHeader (leBytes 1 n ++ rest) = some (n, 1) := by
  have hn : (UInt8.ofNat n).toNat = n := by
    rw [UInt8.toNat_ofNat', Nat.mod_eq_of_lt hlt]
  have hne : UInt8.ofNat n ≠ 0 := by
    intro h
    rw [h] at hn
    exact hpos hn.symm
  simp only [leBytes, List.singleton_append, readHeader, if_neg hne, hn]

/-- An id of two bytes is read back up to a multiple of 65536. -/
theorem readHeader_escape (n : Nat) (rest : List UInt8) :
    readHeader (0 :: leBytes 2 n ++ rest) = some (n % 65536, 3) := by
  have hslice : slice (0 :: leBytes 2 n ++ rest) 1 2 = leBytes 2 n := by
    simp [slice, leBytes]
  have hlen : ¬ (0 :: leBytes 2 n ++ rest).length < 3 := by
    simp [leBytes]
  rw [List.cons_append] at hslice hlen ⊢
  rw [readHeader, if_pos rfl, if_neg hlen, hslice, leNat_leBytes,
    show 256 ^ 2 = 65536 from rfl]

/-- **A header is read back exactly if the id fits in two bytes.** -/
theorem NetProtocol.headerSurvives_iff {P : NetProtocol} (hid : P.id ≠ 0) :
    (∀ rest, readHeader (P.header ++ rest) = some (P.id, P.header.length)) ↔ P.id < 65536 := by
  by_cases hbyte : P.id < 256
  · have hheader : P.header = leBytes 1 P.id := if_pos hbyte
    rw [hheader]
    refine iff_of_true (fun rest => ?_) (by omega)
    rw [readHeader_byte hid hbyte, length_leBytes]
  · have hheader : P.header = 0 :: leBytes 2 P.id := if_neg hbyte
    rw [hheader]
    have hlen : (0 :: leBytes 2 P.id).length = 3 := by simp
    constructor
    · intro h
      have hread := h []
      rw [readHeader_escape, hlen] at hread
      have hmod : P.id % 65536 = P.id := congrArg Prod.fst (Option.some.inj hread)
      omega
    · intro hlt rest
      rw [readHeader_escape, hlen, Nat.mod_eq_of_lt hlt]

namespace ProtoManager

/-! ## The table -/

/-- Every id from 1 on is read back from its header, whatever follows, and no header is
the beginning of another one. -/
def HeadersSurvive (s : ProtoManager) : Prop :=
  (∀ id P, 1 ≤ id → s.protoAt id = some P →
    ∀ rest, readHeader (P.header ++ rest) = some (id, P.header.length)) ∧
  ∀ id id' P Q, 1 ≤ id → 1 ≤ id' → s.protoAt id = some P → s.protoAt id' = some Q →
    P.header <+: Q.header → id = id'

variable {s : ProtoManager}

theorem Ids.protoAt_id (hids : s.Ids) {id : Nat} {P : NetProtocol} (h : s.protoAt id = some P) :
    P.id = id := by
  obtain ⟨addr, haddr, hP⟩ := Option.bind_eq_some_iff.mp h
  obtain ⟨Q, hQ, hid⟩ := hids id addr haddr
  rw [hP] at hQ
  cases hQ
  exact hid

theorem Ids.protoAt_lt (hids : s.Ids) {id : Nat} (h : id < s.protos.length) :
    ∃ P, s.protoAt id = some P := by
  obtain ⟨P, hP, -⟩ := hids id s.protos[id] (List.getElem?_eq_getElem h)
  exact ⟨P, by rw [protoAt, List.getElem?_eq_getElem h]; exact hP⟩

/-- An entry of the table survives exactly if its id fits in two bytes. -/
theorem Ids.survives_iff (hids : s.Ids) {id : Nat} {P : NetProtocol} (hpos : 1 ≤ id)
    (h : s.protoAt id = some P) :
    (∀ rest, readHeader (P.header ++ rest) = some (id, P.header.length)) ↔ id < 65536 := by
  have hid := hids.protoAt_id h
  subst hid
  exact P.headerSurvives_iff (by omega)

/-- Headers that are read back do not begin one another. -/
theorem Ids.survive_iff (hids : s.Ids) : s.HeadersSurvive ↔ s.protos.length ≤ 65536 := by
  constructor
  · intro h
    by_contra hlong
    obtain ⟨P, hP⟩ := hids.protoAt_lt (show 65536 < s.protos.length by omega)
    have := (hids.survives_iff (by omega) hP).mp (h.1 65536 P (by omega) hP)
    omega
  · intro hlen
    have hread : ∀ id P, 1 ≤ id → s.protoAt id = some P →
        ∀ rest, readHeader (P.header ++ rest) = some (id, P.header.length) := by
      intro id P hpos hP
      obtain ⟨addr, haddr, -⟩ := Option.bind_eq_some_iff.mp hP
      have hlt := (List.getElem?_eq_some_iff.mp haddr).1
      exact (hids.survives_iff hpos hP).mpr (by omega)
    refine ⟨hread, fun id id' P Q hpos hpos' hP hQ hprefix => ?_⟩
    -- both ids are what the longer header reads as
    obtain ⟨rest, hrest⟩ := hprefix
    have hid := hread id P hpos hP rest
    have hid' := hread id' Q hpos' hQ []
    rw [List.append_nil, ← hrest, hid] at hid'
    exact congrArg Prod.fst (Option.some.inj hid')

theorem ids_run {curChar : List UInt8} {addr : ObjAddr} {calls : List ManagerCall}
    (hfresh : Runs.AllSteps (step curChar) Fresh (init addr) calls)
    (hrun : Runs.run (step curChar) (init addr) calls = some s) : s.Ids :=
  (Runs.allStates_of_allSteps (fun _ _ _ hids hfresh hstep => step_ids hids hfresh hstep)
    (ids_init addr) hfresh).last hrun

/-- **Ids survive the wire below 65536.** In the table after any run, an id from 1 on is
read back from its header exactly if it is below 65536, and all ids are read back and
no header begins another one exactly if the table has at most 65536 entries. -/
theorem headersSurvive_iff (curChar : List UInt8) (addr : ObjAddr) (calls : List ManagerCall)
    (hfresh : Runs.AllSteps (step curChar) Fresh (init addr) calls) (s : ProtoManager)
    (hrun : Runs.run (step curChar) (init addr) calls = some s) :
    (∀ id P, 1 ≤ id → s.protoAt id = some P →
      ((∀ rest, readHeader (P.header ++ rest) = some (id, P.header.length)) ↔ id < 65536)) ∧
    (s.HeadersSurvive ↔ s.protos.length ≤ 65536) := by
  have hids := ids_run hfresh hrun
  exact ⟨fun id P hpos hP => hids.survives_iff hpos hP, hids.survive_iff⟩

/-! ## A table that grows -/

/-- The file of a protocol of the clients' side without arguments. -/
def pingInput (addr : ObjAddr) : LoadInput where
  addr := addr
  path := some (cstr "proto/c_ping.lua")
  file := .returned (some ⟨none, some []⟩)
  forMaker := none

/-- `n` calls of `add_protocol`, with objects at the addresses from `a` on. -/
def pings (a n : Nat) : List ManagerCall := (List.range' a n).map fun addr => .add (pingInput addr)

/-- At the start only the default protocol has been allocated. -/
theorem init_free : ∀ b, 1 ≤ b → (init 0).heap b = none := by
  intro b hb
  have hne : b ≠ 0 := Nat.ne_of_gt hb
  simp [init, hne]

/-- Each of the calls succeeds. -/
theorem run_pings (n : Nat) : ∀ (a : Nat) (s : ProtoManager), (∀ b, a ≤ b → s.heap b = none) →
    Runs.AllSteps (step (cstr "server")) Fresh s (pings a n) ∧
      ∃ s', Runs.run (step (cstr "server")) s (pings a n) = some s' ∧
        s'.protos.length = s.protos.length + n := by
  induction n with
  | zero => exact fun a s _ => ⟨trivial, s, rfl, rfl⟩
  | succ n ih =>
    intro a s hfree
    obtain ⟨s1, hstep, hlen, hheap⟩ : ∃ s1, step (cstr "server") s (.add (pingInput a)) = some s1 ∧
        s1.protos.length = s.protos.length + 1 ∧ ∀ b, a < b → s1.heap b = s.heap b :=
      ⟨_, rfl, List.length_append, fun b hb => Function.update_of_ne hb.ne' _ _⟩
    have hfree1 : ∀ b, a + 1 ≤ b → s1.heap b = none := by
      intro b hb
      rw [hheap b hb, hfree b (by omega)]
    obtain ⟨hfresh, s', hrun, hlen'⟩ := ih (a + 1) s1 hfree1
    refine ⟨⟨hfree a le_rfl, fun s' hs => ?_⟩, s', ?_, by omega⟩
    · rw [hstep] at hs
      cases hs
      exact hfresh
    · have hcons : pings a (n + 1) = .add (pingInput a) :: pings (a + 1) n := rfl
      rw [hcons, Runs.run, hstep]
      exact hrun

/-- Two protocols. -/
theorem headersSurvive_iff_pings :
    ∃ s, Runs.run (step (cstr "server")) (init 0) (pings 1 2) = some s ∧ s.HeadersSurvive := by
  obtain ⟨hfresh, s, hrun, hlen⟩ := run_pings 2 1 (init 0) init_free
  refine ⟨s, hrun, (headersSurvive_iff _ 0 _ hfresh s hrun).2.mpr ?_⟩
  rw [hlen]
  decide

/-- After 65536 calls of `add_protocol` the last id is lost on the wire. -/
theorem headers_lost : ¬ ∀ (curChar : List UInt8) (addr : ObjAddr) (calls : List ManagerCall),
    Runs.AllSteps (step curChar) Fresh (init addr) calls → ∀ s,
    Runs.run (step curChar) (init addr) calls = some s → s.HeadersSurvive := by
  intro h
  obtain ⟨hfresh, s, hrun, hlen⟩ := run_pings 65536 1 (init 0) init_free
  have hshort := (ids_run hfresh hrun).survive_iff.mp (h _ 0 _ hfresh s hrun)
  have hone : (init 0).protos.length = 1 := rfl
  omega

end ProtoManager

end Donkeyji.Mydb
