/-
Donkeyji.MyEvent.EvbufferTheorems — what the buffer holds, and when
`bufferevent_read` delivers the received bytes.

A buffer is `Valid` when its sizes fit its block; `contents` are the bytes it
holds. `evbuffer_align` and `evbuffer_expand` keep the contents,
`evbuffer_drain` drops bytes at the front, `evbuffer_read` appends what
`recv` returned.

`bufferevent_read` copies the front of the buffer out and leaves it there, so
a second call returns the same bytes again. `delivered_prefix_iff` says when
the bytes delivered are a prefix of those received nevertheless.
-/
import Donkeyji.Lib.Runs
import Donkeyji.MyEvent.Evbuffer

namespace Donkeyji.MyEvent

open Memory Runs

/-- The sizes fit the block and `buffer` is where `misalign` says. -/
structure Evbuffer.Valid (buf : Evbuffer) : Prop where
  block : buf.block.length = buf.totallen
  buffer : buf.buffer = buf.misalign
  fits : buf.misalign + buf.off ≤ buf.totallen

/-- The bytes the buffer holds. -/
def Evbuffer.contents (buf : Evbuffer) : List UInt8 := slice buf.block buf.buffer buf.off

theorem evbufferNew_valid : evbufferNew.Valid := ⟨rfl, rfl, Nat.le_refl _⟩

/-- A valid buffer holds `off` bytes. -/
theorem Evbuffer.Valid.length_contents {buf : Evbuffer} (h : buf.Valid) :
    buf.contents.length = buf.off := by
  have hb := h.block
  have hp := h.buffer
  have hf := h.fits
  exact length_slice (by omega)

/-- `evbuffer_drain` drops bytes at the front. -/
theorem evbufferDrain_spec {buf : Evbuffer} (h : buf.Valid) (len : Nat) :
    (evbufferDrain buf len).Valid ∧
      (evbufferDrain buf len).contents = buf.contents.drop len := by
  have hb := h.block
  have hp := h.buffer
  have hf := h.fits
  unfold evbufferDrain
  split
  · rename_i hle
    refine ⟨⟨hb, rfl, by simp⟩, ?_⟩
    have hlen := h.length_contents
    rw [List.drop_eq_nil_of_le (by omega)]
    simp [Evbuffer.contents, slice]
  · refine ⟨⟨hb, ?_, ?_⟩, ?_⟩
    · show buf.buffer + len = buf.misalign + len
      omega
    · show buf.misalign + len + (buf.off - len) ≤ buf.totallen
      omega
    · exact drop_slice.symm

/-- `evbuffer_align` moves the contents to the front of the block. -/
theorem evbufferAlign_spec {buf : Evbuffer} (h : buf.Valid) :
    ∃ buf', evbufferAlign buf = some buf' ∧ buf'.Valid ∧ buf'.contents = buf.contents ∧
      buf'.buffer = 0 ∧ buf'.off = buf.off ∧ buf'.totallen = buf.totallen := by
  have hb := h.block
  have hp := h.buffer
  have hf := h.fits
  have hread : readAt buf.block buf.buffer buf.off = some buf.contents :=
    readAt_some (by omega) (by omega) (by omega)
  have hlen := h.length_contents
  obtain ⟨block, hwrite⟩ : ∃ block, writeAt buf.block 0 buf.contents = some block :=
    ⟨_, writeAt_some (by omega) (by omega)⟩
  refine ⟨{ buf with block := block, buffer := 0, misalign := 0 }, ?_, ⟨?_, rfl, ?_⟩, ?_,
    rfl, rfl, rfl⟩
  · simp [evbufferAlign, hread, hwrite]
  · show block.length = buf.totallen
    rw [length_writeAt hwrite, hb]
  · show 0 + buf.off ≤ buf.totallen
    omega
  · have hself := slice_writeAt_self hwrite
    rw [hlen] at hself
    exact hself

/-- Doubling ends with a length that is large enough. -/
theorem doubleLength_le (need : Nat) : ∀ (fuel length : Nat), 0 < length →
    need ≤ length + fuel → need ≤ doubleLength fuel length need ∧
      length ≤ doubleLength fuel length need := by
  intro fuel
  induction fuel with
  | zero =>
    intro length _ h
    exact ⟨by simpa [doubleLength] using h, Nat.le_refl _⟩
  | succ fuel ih =>
    intro length hpos h
    simp only [doubleLength]
    split
    · obtain ⟨h1, h2⟩ := ih (length * 2) (by omega) (by omega)
      exact ⟨h1, by omega⟩
    · exact ⟨by omega, Nat.le_refl _⟩

/-- A larger block keeps what was in the old one. -/
theorem slice_resized (junk : Nat → UInt8) {block : List UInt8} {length off n : Nat}
    (hlen : block.length ≤ length) (h : off + n ≤ block.length) :
    slice (resized junk block length) off n = slice block off n := by
  unfold resized slice
  rw [List.take_of_length_le hlen, List.drop_append_of_le_length (by omega),
    List.take_append_of_le_length (by simp; omega)]

theorem length_resized (junk : Nat → UInt8) {block : List UInt8} {length : Nat}
    (hlen : block.length ≤ length) : (resized junk block length).length = length := by
  unfold resized
  simp
  omega

/-- `evbuffer_expand` keeps the contents, and makes room if it succeeds. -/
theorem evbufferExpand_spec {buf : Evbuffer} (h : buf.Valid) (realloc : Option (Nat → UInt8))
    (datlen : Nat) : ∃ r buf', evbufferExpand realloc buf datlen = some (r, buf') ∧
      buf'.Valid ∧ buf'.contents = buf.contents ∧ buf'.off = buf.off ∧
      (r = -1 ∨ r = 0 ∧ buf'.misalign + buf'.off + datlen ≤ buf'.totallen) := by
  have hp := h.buffer
  have hf := h.fits
  by_cases henough : buf.misalign + buf.off + datlen ≤ buf.totallen
  · exact ⟨0, buf, by simp [evbufferExpand, henough], h, rfl, rfl, Or.inr ⟨rfl, henough⟩⟩
  obtain ⟨al, halign, hvalid, hcont, hbuf, hoff, htot⟩ := evbufferAlign_spec h
  by_cases hmis : datlen ≤ buf.misalign
  · have hmis' : al.misalign = 0 := by rw [← hvalid.buffer, hbuf]
    refine ⟨0, al, by simp [evbufferExpand, henough, hmis, halign], hvalid, hcont, hoff,
      Or.inr ⟨rfl, ?_⟩⟩
    omega
  -- the buffer from which `realloc` copies starts at the front of the block
  obtain ⟨b, hb, hbv, hbc, hbb, hbo, hbt⟩ : ∃ b,
      (if buf.buffer ≠ 0 then evbufferAlign buf else some buf) = some b ∧ b.Valid ∧
      b.contents = buf.contents ∧ b.buffer = 0 ∧ b.off = buf.off ∧ b.totallen = buf.totallen := by
    by_cases hz : buf.buffer = 0
    · exact ⟨buf, by simp [hz], h, rfl, hz, rfl, rfl⟩
    · exact ⟨al, by simp [hz, halign], hvalid, hcont, hbuf, hoff, htot⟩
  cases realloc with
  | none =>
    refine ⟨-1, b, ?_, hbv, hbc, hbo, Or.inl rfl⟩
    simp only [evbufferExpand, henough, hmis, if_false, hb]
    rfl
  | some junk =>
    obtain ⟨hneed, hgrow⟩ := doubleLength_le (buf.misalign + buf.off + datlen)
      (buf.misalign + buf.off + datlen) (if buf.totallen < 256 then 256 else buf.totallen)
      (by split <;> omega) (by omega)
    have hlen : b.block.length ≤ doubleLength (buf.misalign + buf.off + datlen)
        (if buf.totallen < 256 then 256 else buf.totallen)
        (buf.misalign + buf.off + datlen) := by
      rw [hbv.block, hbt]
      refine Nat.le_trans ?_ hgrow
      split <;> omega
    have hbm : b.misalign = 0 := by rw [← hbv.buffer, hbb]
    refine ⟨0, { b with
      block := resized junk b.block (doubleLength (buf.misalign + buf.off + datlen)
        (if buf.totallen < 256 then 256 else buf.totallen) (buf.misalign + buf.off + datlen)),
      totallen := doubleLength (buf.misalign + buf.off + datlen)
        (if buf.totallen < 256 then 256 else buf.totallen) (buf.misalign + buf.off + datlen),
      buffer := 0 }, ?_, ⟨length_resized junk hlen, hbm.symm, ?_⟩, ?_, hbo, Or.inr ⟨rfl, ?_⟩⟩
    · simp only [evbufferExpand, henough, hmis, if_false, hb]
      rfl
    · dsimp only
      omega
    · rw [← hbc]
      have hfit := hbv.fits
      have hblock := hbv.block
      show slice (resized junk b.block _) 0 b.off = slice b.block b.buffer b.off
      rw [hbb]
      exact slice_resized junk hlen (by omega)
    · dsimp only
      omega

/-- `evbuffer_read` appends the bytes whose number it returns. -/
theorem evbufferRead_spec {buf : Evbuffer} (h : buf.Valid) (pending : Option Nat)
    (howmuch : Int) (realloc : Option (Nat → UInt8)) (found : Option (List UInt8)) :
    ∃ r buf', evbufferRead buf pending howmuch realloc found = some (r, buf') ∧ buf'.Valid ∧
      buf'.contents = buf.contents ++ (found.getD []).take r.toNat := by
  obtain ⟨r, b, hexp, hv, hc, ho, hr⟩ :=
    evbufferExpand_spec h realloc (readLength pending howmuch)
  cases hr with
  | inl hr =>
    refine ⟨-1, b, by simp [evbufferRead, hexp, hr], hv, ?_⟩
    simp [hc]
  | inr hr =>
    obtain ⟨hr, hroom⟩ := hr
    have hne : r ≠ -1 := by omega
    cases found with
    | none => exact ⟨-1, b, by simp [evbufferRead, hexp], hv, by simp [hc]⟩
    | some bytes =>
      simp only [evbufferRead, hexp, Option.bind_eq_bind, Option.bind_some, Option.pure_def,
        if_neg hne]
      generalize hgot : bytes.take (readLength pending howmuch) = got
      have hgotlen : got.length ≤ readLength pending howmuch := by
        rw [← hgot]
        exact List.length_take_le _ _
      have hgottake : bytes.take got.length = got := by
        rw [← hgot, List.take_eq_take_iff]
        simp
      by_cases hz : got.length = 0
      · exact ⟨0, b, by rw [if_pos hz], hv, by simp [hc]⟩
      · have hp := hv.buffer
        have hblk := hv.block
        obtain ⟨block, hwrite⟩ : ∃ block,
            writeAt b.block (b.buffer + b.off) got = some block :=
          ⟨_, writeAt_some (by omega) (by omega)⟩
        refine ⟨got.length, { b with block := block, off := b.off + got.length }, ?_,
          ⟨?_, hp, ?_⟩, ?_⟩
        · rw [if_neg hz, hwrite]
          rfl
        · show block.length = b.totallen
          rw [length_writeAt hwrite, hblk]
        · show b.misalign + (b.off + got.length) ≤ b.totallen
          omega
        · have hbefore : slice block b.buffer b.off = slice b.block b.buffer b.off :=
            slice_writeAt_before hwrite (by omega)
          have hself : slice block (b.buffer + b.off) got.length = got := by
            have := slice_writeAt_self hwrite
            rwa [show ((b.buffer : Int) + b.off).toNat = b.buffer + b.off by omega] at this
          show slice block b.buffer (b.off + got.length) = _
          rw [← slice_append, hbefore, hself]
          have hcb : slice b.block b.buffer b.off = buf.contents := hc
          rw [hcb]
          simp [hgottake]

/-- `bufferevent_read` returns the front of the contents. -/
theorem buffereventRead_spec {buf : Evbuffer} (h : buf.Valid) (size : Nat) :
    buffereventRead buf size = some (buf.contents.take size) := by
  have hb := h.block
  have hp := h.buffer
  have hf := h.fits
  have hlen := h.length_contents
  unfold buffereventRead
  dsimp only
  split
  · rw [readAt_some (by omega) (by omega) (by omega), List.take_of_length_le (by omega)]
    rfl
  · rw [readAt_some (by omega) (by omega) (by omega)]
    have : buf.contents.take size = slice buf.block buf.buffer size := take_slice (by omega)
    rw [this]
    rfl

/-! ## Runs -/

/-- The invariant: the buffer holds all bytes ever received. -/
structure Input.Whole (s : Input) : Prop where
  valid : s.buf.Valid
  contents : s.buf.contents = s.received

/-- No byte is delivered twice, skipped or made up. -/
def DeliveredPrefix (s : Input) : Prop := s.delivered <+: s.received

/-- The condition on a step. A `bufferevent_read` that returns bytes after
others have been delivered returns the first bytes again; it does no harm
only if the received bytes repeat themselves there. -/
def ReadsOnce (s : Input) : InputCall → Prop
  | .receive _ _ _ _ => True
  | .read size =>
    s.received.take size = [] ∨ s.delivered = [] ∨
      s.received.take size <+: s.received.drop s.delivered.length

instance (s : Input) (c : InputCall) : Decidable (ReadsOnce s c) := by
  cases c <;> unfold ReadsOnce <;> infer_instance

/-- A receiving step appends to what was received. -/
theorem receive_step {s : Input} (h : s.Whole) (pending : Option Nat) (howmuch : Int)
    (realloc : Option (Nat → UInt8)) (found : Option (List UInt8)) :
    ∃ s', inputStep s (.receive pending howmuch realloc found) = some s' ∧ s'.Whole ∧
      s.received <+: s'.received ∧ s'.delivered = s.delivered := by
  obtain ⟨r, buf, heq, hv, hc⟩ := evbufferRead_spec h.valid pending howmuch realloc found
  refine ⟨{ s with buf := buf, received := s.received ++ (found.getD []).take r.toNat }, ?_,
    ⟨hv, ?_⟩, List.prefix_append _ _, rfl⟩
  · simp [inputStep, heq]
  · rw [hc, h.contents]

/-- A reading step delivers the first bytes received. -/
theorem read_step {s : Input} (h : s.Whole) (size : Nat) :
    inputStep s (.read size) =
      some { s with delivered := s.delivered ++ s.received.take size } := by
  simp [inputStep, buffereventRead_spec h.valid, h.contents]

/-- What is appended to a prefix leaves it a prefix exactly if it comes next. -/
theorem append_prefix_iff {a b l : List UInt8} (ha : a <+: l) :
    a ++ b <+: l ↔ b <+: l.drop a.length := by
  obtain ⟨t, rfl⟩ := ha
  rw [List.drop_left, List.prefix_append_right_inj]

/-- The condition of a reading step is exact. -/
theorem read_ok_iff {s : Input} (hp : DeliveredPrefix s) (size : Nat) :
    DeliveredPrefix { s with delivered := s.delivered ++ s.received.take size } ↔
      ReadsOnce s (.read size) := by
  show s.delivered ++ s.received.take size <+: s.received ↔ _
  rw [append_prefix_iff hp]
  constructor
  · intro h
    exact Or.inr (Or.inr h)
  · intro h
    rcases h with h | h | h
    · rw [h]
      exact List.nil_prefix
    · rw [h]
      exact List.take_prefix _ _
    · exact h

/-- **When the delivered bytes are a prefix of the received ones.** In every
run of `evbuffer_read` and `bufferevent_read` this holds after every call
exactly if no `bufferevent_read` returns bytes after others were delivered,
unless the bytes that come next are the first ones again. -/
theorem delivered_prefix_iff (cs : List InputCall) :
    AllStates inputStep DeliveredPrefix inputNew cs ↔
      AllSteps inputStep ReadsOnce inputNew cs := by
  have hinit : inputNew.Whole ∧ DeliveredPrefix inputNew :=
    ⟨⟨evbufferNew_valid, rfl⟩, List.prefix_rfl⟩
  refine allStates_iff_allSteps (fun s => s.Whole ∧ DeliveredPrefix s)
    (fun _ _ => True) ?_ ?_ ?_ hinit (allSteps_of_forall (fun _ _ => trivial) _)
  · intro s c s' hinv _ hgood hstep
    obtain ⟨hw, hp⟩ := hinv
    cases c with
    | receive pending howmuch realloc found =>
      obtain ⟨s1, heq, hw', hrec, hdel⟩ := receive_step hw pending howmuch realloc found
      rw [heq] at hstep
      cases hstep
      refine ⟨hw', ?_⟩
      unfold DeliveredPrefix
      rw [hdel]
      exact hp.trans hrec
    | read size =>
      rw [read_step hw] at hstep
      cases hstep
      exact ⟨⟨hw.valid, hw.contents⟩, (read_ok_iff hp size).mpr hgood⟩
  · intro s hinv
    exact hinv.2
  · intro s c hinv _ hbad
    obtain ⟨hw, hp⟩ := hinv
    cases c with
    | receive pending howmuch realloc found => exact absurd trivial hbad
    | read size =>
      exact ⟨_, read_step hw size, fun h => hbad ((read_ok_iff hp size).mp h)⟩

/-- **Two reads deliver the same byte twice.** Two bytes are received and
read one at a time. -/
theorem second_read_repeats : ¬ AllStates inputStep DeliveredPrefix inputNew
    [.receive (some 2) (-1) (some fun _ => 0) (some [104, 105]), .read 1, .read 1] := by
  intro h
  have hlast : DeliveredPrefix ⟨⟨[104, 105] ++ List.replicate 254 0, 0, 0, 256, 2⟩,
      [104, 105], [104, 104]⟩ := h.last (by decide +kernel)
  revert hlast
  unfold DeliveredPrefix
  decide

end Donkeyji.MyEvent
