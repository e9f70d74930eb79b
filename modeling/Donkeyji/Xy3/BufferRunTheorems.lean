/-
Donkeyji.Xy3.BufferRunTheorems — `DataBuf` under any sequence of calls.

A run carries the bytes that were appended and not yet cut beside the buffer
(`Queued`). `Queued.Ok` is what the buffer promises: its four counters agree, and the
bytes between head and tail are those bytes. The one call that can break it is
`appendPack`: it compares a `short` with the free space, so a payload of 32766 bytes or
more may pass the test and be copied over the end of the block. `PackFits` says when it
does not.

Each call has a lemma that says when it returns; what it does to the content is known
from `DataBufTheorems`. The run is `Runs.allSteps_iff_allSteps`.
-/
import Donkeyji.Lib.Runs
import Donkeyji.Xy3.GrowthTheorems

namespace Donkeyji.Xy3

open Memory
open Runs (AllSteps)

/-! ## Runs -/

/-- A call on a `DataBuf`. -/
inductive BufOp where
  | appendRawData (bytes : List UInt8)
  | appendPack (bytes : List UInt8)
  | cutData (len : Nat)
  | moveHead
deriving DecidableEq, Repr

/-- The call: what it returns, and the buffer. -/
def DataBuf.call (junk : Nat → UInt8) (b : DataBuf) : BufOp → Option (Int × DataBuf)
  | .appendRawData bytes => b.appendRawData junk bytes
  | .appendPack bytes => b.appendPack bytes
  | .cutData len => some (b.cutData len)
  | .moveHead => b.moveHead.map fun b => (0, b)

/-- What a call that returns 0 does to the queued bytes. -/
def BufOp.queue (q : List UInt8) : BufOp → List UInt8
  | .appendRawData bytes => q ++ bytes
  | .appendPack bytes => q ++ (leBytes 2 bytes.length ++ bytes)
  | .cutData len => q.drop len
  | .moveHead => q

/-- A buffer, and the bytes that were appended and not yet cut. -/
structure Queued where
  buf : DataBuf
  queue : List UInt8

/-- One call. -/
def bufStep (junk : Nat → UInt8) (s : Queued) (op : BufOp) : Option Queued :=
  (s.buf.call junk op).map fun r => ⟨r.2, if r.1 = 0 then op.queue s.queue else s.queue⟩

/-- The counters agree, and the bytes between head and tail are the queued ones. -/
structure Queued.Ok (s : Queued) : Prop where
  valid : s.buf.Valid
  content : s.buf.content = s.queue

/-- The length and what is appended stay below 2^30. -/
def BufAdmits (s : Queued) : BufOp → Prop
  | .appendRawData bytes => s.buf.len + bytes.length < 2 ^ 30
  | .appendPack bytes => s.buf.len + bytes.length < 2 ^ 30
  | .cutData _ => True
  | .moveHead => True

instance (s : Queued) (op : BufOp) : Decidable (BufAdmits s op) := by
  unfold BufAdmits
  split <;> infer_instance

/-- The free space that `appendPack` compares with: at the tail, or after `moveHead` if the
`short` says that this is not enough. -/
def DataBuf.packRoom (b : DataBuf) (n : Nat) : Int :=
  if wrap16 (n + 2) > b.left then b.left + b.head else b.left

/-- `appendPack` refuses `n` bytes, or they fit with their header. -/
def DataBuf.PackFits (b : DataBuf) (n : Nat) : Prop :=
  b.packRoom n < wrap16 (n + 2) ∨ n + 2 ≤ b.packRoom n

/-- What the call asks of the buffer. -/
def BufGood (s : Queued) : BufOp → Prop
  | .appendPack bytes => s.buf.PackFits bytes.length
  | _ => True

instance (s : Queued) (op : BufOp) : Decidable (BufGood s op) := by
  unfold BufGood DataBuf.PackFits
  split <;> infer_instance

/-- The call returns and leaves the buffer as promised. -/
def BufRight (junk : Nat → UInt8) (s : Queued) (op : BufOp) : Prop :=
  ∃ s', bufStep junk s op = some s' ∧ s'.Ok

/-! ## One call -/

namespace DataBuf

/-- `appendPack` returns exactly if it refuses or the pack fits. The block stays. -/
theorem appendPack_returns_iff {b : DataBuf} (hv : b.Valid) (bytes : List UInt8) :
    (b.PackFits bytes.length → ∃ r b', b.appendPack bytes = some (r, b') ∧ b'.len = b.len) ∧
      ((b.appendPack bytes).isSome → b.PackFits bytes.length) := by
  obtain ⟨b1, hb1, hv1, hcontent, hlen, hmoved, hkept⟩ :=
    moveHead_ite hv (wrap16 (bytes.length + 2) > b.left)
  have hleft : b1.left = b.packRoom bytes.length := by
    have hsize := length_content hv1
    rw [hcontent, length_content hv] at hsize
    have := hv.left_eq
    have := hv1.left_eq
    unfold packRoom
    split
    · have := hmoved ‹_›
      omega
    · rw [hkept ‹_›]
  rw [appendPack_eq, hb1, Option.bind_some, PackFits, ← hleft]
  by_cases hroom : wrap16 (bytes.length + 2) > b1.left
  · rw [if_pos hroom]
    exact ⟨fun _ => ⟨-1, b1, rfl, hlen⟩, fun _ => .inl hroom⟩
  · rw [if_neg hroom]
    constructor
    · rintro (hrefused | hfits)
      · exact absurd hrefused hroom
      · obtain ⟨d1, d2, hd1, hd2⟩ := appendPack_writes hv1 hfits
        rw [hd1, Option.bind_some, hd2, Option.bind_some]
        exact ⟨_, _, rfl, hlen⟩
    · intro hsome
      obtain ⟨r, h⟩ := Option.isSome_iff_exists.mp hsome
      obtain ⟨d1, hd1, h⟩ := Option.bind_eq_some_iff.mp h
      obtain ⟨d2, hd2, -⟩ := Option.bind_eq_some_iff.mp h
      have hbounds1 := writeAt_bounds hd1
      have hbounds2 := writeAt_bounds hd2
      obtain ⟨h1, h2, h3, h4, h5, h6⟩ := hv1
      rw [length_leBytes] at hbounds1
      rw [length_writeAt hd1, wrap32_of_bounds (by omega) (by omega)] at hbounds2
      exact .inr (by omega)

end DataBuf

/-- What runs carry: a buffer as promised, with a block that can be doubled. -/
def BufInv (s : Queued) : Prop := s.Ok ∧ 1 ≤ s.buf.len

/-- A good call returns and keeps the promise. -/
theorem bufStep_good (junk : Nat → UInt8) {s : Queued} {op : BufOp} (h : BufInv s)
    (hadm : BufAdmits s op) (hgood : BufGood s op) :
    ∃ s', bufStep junk s op = some s' ∧ BufInv s' := by
  obtain ⟨⟨hv, hcontent⟩, hlen⟩ := h
  cases op with
  | appendRawData bytes =>
    obtain ⟨b', happ, hlen'⟩ := DataBuf.appendRawData_returns junk hv hlen (le_of_lt hadm)
    obtain ⟨hv', hcontent'⟩ := DataBuf.appendRawData_content hv happ
    refine ⟨_, by simp only [bufStep, DataBuf.call, happ, Option.map_some, if_true]; rfl,
      ⟨hv', ?_⟩, hlen'⟩
    rw [hcontent', hcontent]
    rfl
  | appendPack bytes =>
    obtain ⟨r, b', happ, hlen'⟩ := (DataBuf.appendPack_returns_iff hv bytes).1 hgood
    obtain ⟨hv', hcases⟩ := DataBuf.appendPack_content hv happ
    refine ⟨_, by simp only [bufStep, DataBuf.call, happ, Option.map_some]; rfl,
      ⟨hv', ?_⟩, hlen'.symm ▸ hlen⟩
    obtain ⟨hr, hcontent'⟩ | ⟨hr, hcontent'⟩ := hcases
    · rw [if_pos hr, hcontent', hcontent]
      rfl
    · rw [if_neg hr, hcontent', hcontent]
  | cutData n =>
    by_cases hn : n ≤ s.buf.content.length
    · obtain ⟨b', hcut, hv', hcontent', hlen'⟩ := DataBuf.cutData_spec hv hn
      refine ⟨_, by simp only [bufStep, DataBuf.call, hcut, Option.map_some, if_true]; rfl,
        ⟨hv', ?_⟩, hlen'.symm ▸ hlen⟩
      rw [hcontent', hcontent]
      rfl
    · have hcut := DataBuf.cutData_over hv (n := n) (by omega)
      refine ⟨⟨s.buf, s.queue⟩, ?_, ⟨hv, hcontent⟩, hlen⟩
      simp only [bufStep, DataBuf.call, hcut, Option.map_some]
      rfl
  | moveHead =>
    obtain ⟨b', hmove, hv', hcontent', -, hlen'⟩ := DataBuf.moveHead_spec hv
    refine ⟨_, by simp only [bufStep, DataBuf.call, hmove, Option.map_some, if_true]; rfl,
      ⟨hv', ?_⟩, hlen'.symm ▸ hlen⟩
    rw [hcontent', hcontent]
    rfl

/-- A call is right exactly if it is good. -/
theorem bufRight_iff (junk : Nat → UInt8) {s : Queued} {op : BufOp} (h : BufInv s)
    (hadm : BufAdmits s op) : BufRight junk s op ↔ BufGood s op := by
  constructor
  · rintro ⟨s', hstep, -⟩
    cases op with
    | appendPack bytes =>
      obtain ⟨r, happ, -⟩ := Option.map_eq_some_iff.mp hstep
      exact (DataBuf.appendPack_returns_iff h.1.valid bytes).2 (by
        rw [show s.buf.appendPack bytes = some r from happ]
        rfl)
    | appendRawData | cutData | moveHead => trivial
  · intro hgood
    obtain ⟨s', hstep, hok, -⟩ := bufStep_good junk h hadm hgood
    exact ⟨s', hstep, hok⟩

/-- **When a `DataBuf` keeps its promise.** In every run from a new buffer each call returns
and leaves the counters and the bytes as they should be, exactly if every `appendPack`
refuses or fits. -/
theorem buffer_right_iff (junk : Nat → UInt8) {len : Int} (hlen : 1 ≤ len)
    (hint : len < 2147483648) {b : DataBuf} (hnew : DataBuf.new junk len = some b)
    {ops : List BufOp} (hadm : AllSteps (bufStep junk) BufAdmits ⟨b, []⟩ ops) :
    AllSteps (bufStep junk) (BufRight junk) ⟨b, []⟩ ops ↔
      AllSteps (bufStep junk) BufGood ⟨b, []⟩ ops := by
  obtain ⟨hv, hcontent, hb⟩ := DataBuf.new_spec hint hnew
  have hstart : BufInv ⟨b, []⟩ := ⟨⟨hv, hcontent⟩, hb.symm ▸ hlen⟩
  refine Runs.allSteps_iff_allSteps BufInv BufAdmits ?_ ?_ hstart hadm
  · intro s op hinv hop
    exact bufRight_iff junk hinv hop
  · intro s op s' hinv hop hgood hstep
    obtain ⟨s1, hs1, hinv1⟩ := bufStep_good junk hinv hop hgood
    cases hs1.symm.trans hstep
    exact hinv1

/-- A chunk, a pack, a cut and a pack that waits for `moveHead`. -/
theorem buffer_right_iff_four :
    AllSteps (bufStep fun _ => 0) (BufRight fun _ => 0) ⟨⟨List.replicate 8 0, 8, 0, 0, 8⟩, []⟩
      [.appendRawData [1, 2, 3], .appendPack [4], .cutData 2, .appendPack [5, 6]] :=
  (buffer_right_iff (fun _ => 0) (show (1 : Int) ≤ 8 by decide) (by decide) rfl
    (by decide +kernel)).mpr (by decide +kernel)

/-- **A pack is copied over the end of the block.** The size of 32766 bytes and their header
is negative as a `short`, so `appendPack` finds room for them in one byte. -/
theorem long_pack_overruns :
    ¬ ∀ (len : Int) (b : DataBuf) (ops : List BufOp), 1 ≤ len → DataBuf.new (fun _ => 0) len = some b →
      AllSteps (bufStep fun _ => 0) BufAdmits ⟨b, []⟩ ops →
        AllSteps (bufStep fun _ => 0) (BufRight fun _ => 0) ⟨b, []⟩ ops := by
  intro h
  have hadm : AllSteps (bufStep fun _ => 0) BufAdmits ⟨⟨[0], 1, 0, 0, 1⟩, []⟩
      [.appendPack (List.replicate 32766 0)] := by
    refine ⟨?_, fun _ _ => trivial⟩
    simp only [BufAdmits, List.length_replicate]
    omega
  obtain ⟨s', hstep, -⟩ := (h 1 ⟨[0], 1, 0, 0, 1⟩ _ (by decide) rfl hadm).1
  obtain ⟨r, happ, -⟩ := Option.map_eq_some_iff.mp hstep
  have hvalid : DataBuf.Valid ⟨[0], 1, 0, 0, 1⟩ :=
    ⟨rfl, by decide, by decide, by decide, rfl, by decide⟩
  have hfits := (DataBuf.appendPack_returns_iff hvalid (List.replicate 32766 0)).2
    (Option.isSome_of_eq_some happ)
  rw [List.length_replicate] at hfits
  revert hfits
  unfold DataBuf.PackFits
  decide

end Donkeyji.Xy3
