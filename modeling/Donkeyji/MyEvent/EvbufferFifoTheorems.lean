/-
Donkeyji.MyEvent.EvbufferFifoTheorems — when an evbuffer is a byte FIFO.

A run is a sequence of calls on one buffer, started from `evbuffer_new`. The
state carries, beside the buffer, the bytes it ought to hold (`held`): those
added or received, without those drained or sent at the front. `FifoCall`
says that a call keeps the buffer valid, leaves exactly these bytes in it,
and does not change its contents if it returns -1.

Every call but one is always right. `evbuffer_write` keeps the number of
bytes that `send` took in an `int`: `SendFits` says which numbers survive
that, and `fifo_iff` is the equivalence over whole runs.
-/
import Donkeyji.MyEvent.EvbufferTheorems

namespace Donkeyji.MyEvent

open Memory Runs

/-! ## Runs -/

/-- The calls on a buffer, each with what the system answers. -/
inductive BufferCall where
  | add (realloc : Option (Nat → UInt8)) (data : List UInt8)
  | expand (realloc : Option (Nat → UInt8)) (datlen : Nat)
  | read (pending : Option Nat) (howmuch : Int) (realloc : Option (Nat → UInt8))
      (found : Option (List UInt8))
  | write (sent : Option Nat)
  | drain (len : Nat)

/-- What a call returns (0 for `evbuffer_drain`), and the buffer after it. -/
def bufferCall (buf : Evbuffer) : BufferCall → Option (Int × Evbuffer)
  | .add realloc data => evbufferAdd realloc buf data
  | .expand realloc datlen => evbufferExpand realloc buf datlen
  | .read pending howmuch realloc found => evbufferRead buf pending howmuch realloc found
  | .write sent => evbufferWrite buf sent
  | .drain len => some (0, evbufferDrain buf len)

/-- The bytes that ought to be held after a call that returned `r`. -/
def heldAfter (held : List UInt8) (r : Int) : BufferCall → List UInt8
  | .add _ data => if r = -1 then held else held ++ data
  | .expand _ _ => held
  | .read pending howmuch _ found =>
    if r = -1 then held else held ++ (found.getD []).take (readLength pending howmuch)
  | .write sent => held.drop (sent.getD 0)
  | .drain len => held.drop len

/-- A buffer, with the bytes it ought to hold. -/
structure Fifo where
  buf : Evbuffer
  held : List UInt8

/-- A step of a run. -/
def fifoStep (s : Fifo) (c : BufferCall) : Option Fifo := do
  let (r, buf) ← bufferCall s.buf c
  return ⟨buf, heldAfter s.held r c⟩

/-- A new buffer. -/
def fifoNew : Fifo := ⟨evbufferNew, []⟩

/-- The sizes are in range: what is asked for fits, and `send` takes no more
than it is offered. -/
def Admits (s : Fifo) : BufferCall → Prop
  | .add _ data => s.buf.misalign + s.buf.off + data.length < 2 ^ 63
  | .expand _ datlen => s.buf.misalign + s.buf.off + datlen < 2 ^ 63
  | .read pending howmuch _ _ =>
    s.buf.misalign + s.buf.off + readLength pending howmuch < 2 ^ 63
  | .write sent => ∀ k ∈ sent, k ≤ s.buf.off
  | .drain _ => True

instance (s : Fifo) (c : BufferCall) : Decidable (Admits s c) := by
  cases c <;> unfold Admits <;> infer_instance

/-- A call is right: the buffer stays valid and holds the bytes it ought to,
and a call that returns -1 changes nothing of them. -/
def FifoCall (s : Fifo) (c : BufferCall) : Prop :=
  ∃ r buf, bufferCall s.buf c = some (r, buf) ∧ buf.Valid ∧
    buf.contents = heldAfter s.held r c ∧ (r = -1 → buf.contents = s.buf.contents)

/-- What `send` took fits an `int`, or it took everything and the `int` is
negative and not -1. -/
def SendFits (s : Fifo) : BufferCall → Prop
  | .write sent => ∀ k ∈ sent, k < 2 ^ 31 ∨ wrap32 k < -1 ∧ k = s.buf.off
  | _ => True

/-! ## The loop that doubles the length -/

/-- The loop of `evbuffer_expand` on a 64-bit `size_t`; no result when it
runs out of fuel. -/
def shiftLength : Nat → Nat → Nat → Option Nat
  | 0, _, _ => none
  | fuel + 1, length, need =>
    if length < need then shiftLength fuel (length * 2 % 2 ^ 64) need else some length

/-- The loop ends without overflow, with the length that the model uses. -/
theorem shiftLength_ends (need : Nat) (hneed : need < 2 ^ 63) : ∀ (fuel length : Nat),
    0 < length → need ≤ length + fuel →
      shiftLength (fuel + 1) length need = some (doubleLength fuel length need) := by
  intro fuel
  induction fuel with
  | zero =>
    intro length _ h
    have hge : ¬ length < need := by omega
    simp [shiftLength, doubleLength, hge]
  | succ fuel ih =>
    intro length hpos h
    rw [shiftLength, doubleLength]
    by_cases hlt : length < need
    · have hwrap : length * 2 % 2 ^ 64 = length * 2 := Nat.mod_eq_of_lt (by omega)
      rw [if_pos hlt, if_pos hlt, hwrap]
      exact ih (length * 2) (by omega) (by omega)
    · rw [if_neg hlt, if_neg hlt]

/-! ## The calls -/

/-- The bytes `evbuffer_read` counts are those `recv` was allowed to take. -/
theorem evbufferRead_count {buf buf' : Evbuffer} {pending : Option Nat} {howmuch r : Int}
    {realloc : Option (Nat → UInt8)} {found : Option (List UInt8)}
    (h : evbufferRead buf pending howmuch realloc found = some (r, buf')) :
    r = -1 ∨ r = ((found.getD []).take (readLength pending howmuch)).length := by
  obtain ⟨⟨r1, b⟩, -, h⟩ := Option.bind_eq_some_iff.mp h
  by_cases hr : r1 = -1
  · simp [hr] at h
    exact Or.inl h.1.symm
  · cases found with
    | none =>
      simp [hr] at h
      exact Or.inl h.1.symm
    | some bytes =>
      by_cases hz : (bytes.take (readLength pending howmuch)).length = 0
      · simp only [hr, hz, if_true, if_false] at h
        cases h
        exact Or.inr (by simp [hz])
      · simp only [hr, hz, if_false] at h
        obtain ⟨block, -, h⟩ := Option.bind_eq_some_iff.mp h
        cases h
        exact Or.inr rfl

/-- `evbuffer_expand` fails only if `realloc` does. -/
theorem evbufferExpand_room {buf buf' : Evbuffer} {junk : Nat → UInt8} {datlen : Nat} {r : Int}
    (h : evbufferExpand (some junk) buf datlen = some (r, buf')) : r = 0 := by
  unfold evbufferExpand at h
  by_cases henough : buf.misalign + buf.off + datlen ≤ buf.totallen
  · simp only [henough, if_true] at h
    cases h
    rfl
  by_cases hmis : datlen ≤ buf.misalign
  · simp only [henough, hmis, if_true, if_false] at h
    obtain ⟨b, -, h⟩ := Option.bind_eq_some_iff.mp h
    cases h
    rfl
  · simp only [henough, hmis, if_false] at h
    obtain ⟨b, -, h⟩ := Option.bind_eq_some_iff.mp h
    cases h
    rfl

/-- `evbuffer_add` appends the data, or `realloc` fails and the contents stay. -/
theorem evbufferAdd_spec {buf : Evbuffer} (h : buf.Valid) (realloc : Option (Nat → UInt8))
    (data : List UInt8) : ∃ r buf', evbufferAdd realloc buf data = some (r, buf') ∧
      buf'.Valid ∧ (r = -1 ∧ buf'.contents = buf.contents ∧ realloc = none ∨
        r = 0 ∧ buf'.contents = buf.contents ++ data) := by
  -- the buffer after making room
  obtain ⟨r, b, hroom, hv, hc, hr⟩ : ∃ r b,
      (if buf.totallen < buf.misalign + buf.off + data.length then
        evbufferExpand realloc buf data.length else some (0, buf)) = some (r, b) ∧ b.Valid ∧
      b.contents = buf.contents ∧
      (r = -1 ∧ realloc = none ∨ r = 0 ∧ b.misalign + b.off + data.length ≤ b.totallen) := by
    by_cases hneed : buf.totallen < buf.misalign + buf.off + data.length
    · obtain ⟨r, b, hexp, hv, hc, -, hr⟩ := evbufferExpand_spec h realloc data.length
      refine ⟨r, b, by rw [if_pos hneed, hexp], hv, hc, ?_⟩
      cases realloc with
      | none => exact hr.imp_left fun hr => ⟨hr, rfl⟩
      | some junk =>
        have hzero := evbufferExpand_room hexp
        exact hr.imp_left fun hr => by omega
    · exact ⟨0, buf, if_neg hneed, h, rfl, Or.inr ⟨rfl, by omega⟩⟩
  cases hr with
  | inl hr =>
    obtain ⟨hr, hnone⟩ := hr
    refine ⟨-1, b, ?_, hv, Or.inl ⟨rfl, hc, hnone⟩⟩
    simp [evbufferAdd, hroom, hr]
  | inr hr =>
    obtain ⟨hr, hfits⟩ := hr
    have hp := hv.buffer
    have hblk := hv.block
    obtain ⟨block, hwrite⟩ : ∃ block, writeAt b.block (b.buffer + b.off) data = some block :=
      ⟨_, writeAt_some (by omega) (by omega)⟩
    have hstart : ((b.buffer : Int) + b.off).toNat = b.buffer + b.off := by omega
    refine ⟨0, { b with block := block, off := b.off + data.length }, ?_, ⟨?_, hp, ?_⟩,
      Or.inr ⟨rfl, ?_⟩⟩
    · simp [evbufferAdd, hroom, hr, hwrite]
    · show block.length = b.totallen
      rw [length_writeAt hwrite, hblk]
    · show b.misalign + (b.off + data.length) ≤ b.totallen
      omega
    · have hself := slice_writeAt_self hwrite
      rw [hstart] at hself
      show slice block b.buffer (b.off + data.length) = buf.contents ++ data
      rw [← slice_append, slice_writeAt_before hwrite (by omega), hself, ← hc]
      rfl

/-- `evbuffer_write` when `send` fails. -/
theorem evbufferWrite_none {buf : Evbuffer} (h : buf.Valid) :
    evbufferWrite buf none = some (-1, buf) := by
  have hb := h.block
  have hp := h.buffer
  have hf := h.fits
  have hread : readAt buf.block buf.buffer buf.off = some buf.contents :=
    readAt_some (by omega) (by omega) (by omega)
  simp [evbufferWrite, hread, wrap32]

/-- How many bytes `evbuffer_write` drains when `send` took `sent`. -/
def drained (sent : Nat) : Nat := if wrap32 sent = -1 then 0 else (toU64 (wrap32 sent)).toNat

/-- `evbuffer_write` when `send` takes `sent` bytes. -/
theorem evbufferWrite_some {buf : Evbuffer} (h : buf.Valid) (sent : Nat) :
    ∃ buf', evbufferWrite buf (some sent) = some (wrap32 sent, buf') ∧ buf'.Valid ∧
      buf'.contents = buf.contents.drop (drained sent) ∧ buf'.off ≤ buf.off := by
  have hb := h.block
  have hp := h.buffer
  have hf := h.fits
  have hread : readAt buf.block buf.buffer buf.off = some buf.contents :=
    readAt_some (by omega) (by omega) (by omega)
  unfold evbufferWrite drained
  by_cases hneg : wrap32 sent = -1
  · exact ⟨buf, by simp [hread, hneg], h, by simp [hneg], Nat.le_refl _⟩
  by_cases hz : wrap32 sent = 0
  · exact ⟨buf, by simp [hread, hz], h, by simp [hz, toU64], Nat.le_refl _⟩
  obtain ⟨hv, hc⟩ := evbufferDrain_spec h (toU64 (wrap32 sent)).toNat
  refine ⟨evbufferDrain buf (toU64 (wrap32 sent)).toNat, by simp [hread, hneg, hz], hv, ?_, ?_⟩
  · rw [hc, if_neg hneg]
  · rw [← hv.length_contents, hc, List.length_drop, h.length_contents]
    omega

/-- Dropping what is drained is dropping what was sent exactly if the number survives the
`int`, or both drop everything. -/
theorem drop_drained_iff {l : List UInt8} {sent : Nat} (hlen : l.length < 2 ^ 63)
    (hsent : sent ≤ l.length) : l.drop (drained sent) = l.drop sent ↔
      sent < 2 ^ 31 ∨ wrap32 sent < -1 ∧ sent = l.length := by
  constructor
  · intro h
    unfold drained wrap32 toU64 at h
    unfold wrap32
    have hl := congrArg List.length h
    simp only [List.length_drop] at hl
    split at hl <;> omega
  · intro h
    rcases h with h | ⟨hneg, rfl⟩
    · have hsame : drained sent = sent := by
        unfold drained wrap32 toU64
        split <;> omega
      rw [hsame]
    · have hall : l.length ≤ drained l.length := by
        unfold drained toU64
        unfold wrap32 at hneg ⊢
        split <;> omega
      rw [List.drop_length, List.drop_eq_nil_of_le hall]

/-! ## One call -/

/-- What holds between two calls of a run. -/
structure Fifo.Whole (s : Fifo) : Prop where
  valid : s.buf.Valid
  contents : s.buf.contents = s.held
  bound : s.buf.off < 2 ^ 63

theorem fifoNew_whole : fifoNew.Whole := ⟨evbufferNew_valid, rfl, by decide⟩

/-- The number of bytes held. -/
theorem Fifo.Whole.length_held {s : Fifo} (h : s.Whole) : s.held.length = s.buf.off := by
  rw [← h.contents, h.valid.length_contents]

/-- `evbuffer_add` is right. -/
theorem add_fifo {s : Fifo} (h : s.Whole) (realloc : Option (Nat → UInt8))
    (data : List UInt8) : FifoCall s (.add realloc data) := by
  obtain ⟨r, buf, hcall, hv, hr⟩ := evbufferAdd_spec h.valid realloc data
  cases hr with
  | inl hr =>
    obtain ⟨rfl, hc, -⟩ := hr
    exact ⟨-1, buf, hcall, hv, by rw [hc, h.contents]; rfl, fun _ => hc⟩
  | inr hr =>
    obtain ⟨rfl, hc⟩ := hr
    exact ⟨0, buf, hcall, hv, by rw [hc, h.contents]; rfl, fun h => by cases h⟩

/-- `evbuffer_expand` is right. -/
theorem expand_fifo {s : Fifo} (h : s.Whole) (realloc : Option (Nat → UInt8))
    (datlen : Nat) : FifoCall s (.expand realloc datlen) := by
  obtain ⟨r, buf, hcall, hv, hc, -, -⟩ := evbufferExpand_spec h.valid realloc datlen
  exact ⟨r, buf, hcall, hv, by rw [hc, h.contents]; rfl, fun _ => hc⟩

/-- `evbuffer_read` is right. -/
theorem read_fifo {s : Fifo} (h : s.Whole) (pending : Option Nat) (howmuch : Int)
    (realloc : Option (Nat → UInt8)) (found : Option (List UInt8)) :
    FifoCall s (.read pending howmuch realloc found) := by
  obtain ⟨r, buf, hcall, hv, hc⟩ := evbufferRead_spec h.valid pending howmuch realloc found
  refine ⟨r, buf, hcall, hv, ?_, ?_⟩
  · rw [hc, h.contents, heldAfter]
    rcases evbufferRead_count hcall with hr | hr
    · simp [hr]
    · have hpos : ¬ r = -1 := by omega
      rw [if_neg hpos, hr, Int.toNat_natCast, List.length_take, ← List.take_eq_take_min]
  · intro hr
    simp [hc, hr]

/-- `evbuffer_drain` is right. -/
theorem drain_fifo {s : Fifo} (h : s.Whole) (len : Nat) : FifoCall s (.drain len) := by
  obtain ⟨hv, hc⟩ := evbufferDrain_spec h.valid len
  exact ⟨0, _, rfl, hv, by rw [hc, h.contents]; rfl, fun h => by cases h⟩

/-- **One write.** `evbuffer_write` is right exactly if what `send` took survives the
`int`. -/
theorem write_fifo_iff {s : Fifo} (h : s.Whole) (sent : Option Nat)
    (hadm : Admits s (.write sent)) : FifoCall s (.write sent) ↔ SendFits s (.write sent) := by
  cases sent with
  | none =>
    refine iff_of_true ⟨-1, s.buf, evbufferWrite_none h.valid, h.valid, ?_, fun _ => rfl⟩ ?_
    · exact h.contents
    · exact fun k hk => by cases hk
  | some k =>
    have hk : k ≤ s.buf.off := hadm k rfl
    have hlen := h.length_held
    have hbound := h.bound
    obtain ⟨buf, hcall, hv, hc, -⟩ := evbufferWrite_some h.valid k
    have hfits : SendFits s (.write (some k)) ↔ s.held.drop (drained k) = s.held.drop k := by
      rw [drop_drained_iff (by omega) (by omega), hlen]
      simp [SendFits]
    rw [hfits, ← h.contents, ← hc, h.contents]
    constructor
    · rintro ⟨r', buf', hcall', -, hc', -⟩
      have hsame := hcall.symm.trans hcall'
      simp only [Option.some.injEq, Prod.mk.injEq] at hsame
      obtain ⟨rfl, rfl⟩ := hsame
      exact hc'
    · intro hdrop
      refine ⟨wrap32 k, buf, hcall, hv, hdrop, fun hr => ?_⟩
      rw [hc, drained, if_pos hr, List.drop_zero]

/-- Every call that is right is followed by a whole state. -/
theorem fifoStep_whole {s s' : Fifo} {c : BufferCall} (h : s.Whole) (hadm : Admits s c)
    (hright : FifoCall s c) (hstep : fifoStep s c = some s') : s'.Whole := by
  obtain ⟨r, buf, hcall, hv, hc, -⟩ := hright
  simp only [fifoStep, hcall] at hstep
  cases hstep
  refine ⟨hv, hc, ?_⟩
  show buf.off < 2 ^ 63
  have hbound := h.bound
  rw [← hv.length_contents, hc]
  have hlen := h.length_held
  cases c with
  | add realloc data =>
    have hfit : s.buf.misalign + s.buf.off + data.length < 2 ^ 63 := hadm
    show (if r = -1 then s.held else s.held ++ data).length < 2 ^ 63
    split
    · omega
    · rw [List.length_append]
      omega
  | expand realloc datlen =>
    show s.held.length < 2 ^ 63
    omega
  | read pending howmuch realloc found =>
    have hfit : s.buf.misalign + s.buf.off + readLength pending howmuch < 2 ^ 63 := hadm
    have htake := List.length_take_le (readLength pending howmuch) (found.getD [])
    show (if r = -1 then s.held
      else s.held ++ (found.getD []).take (readLength pending howmuch)).length < 2 ^ 63
    split
    · omega
    · rw [List.length_append]
      omega
  | write sent =>
    show (s.held.drop _).length < 2 ^ 63
    simp only [List.length_drop]
    omega
  | drain len =>
    show (s.held.drop _).length < 2 ^ 63
    simp only [List.length_drop]
    omega

/-- **One call.** A call is right exactly if what `send` took, if it is a write, survives
the `int`. -/
theorem fifo_call_iff {s : Fifo} (h : s.Whole) (c : BufferCall) (hadm : Admits s c) :
    FifoCall s c ↔ SendFits s c := by
  cases c with
  | add realloc data => exact iff_of_true (add_fifo h realloc data) trivial
  | expand realloc datlen => exact iff_of_true (expand_fifo h realloc datlen) trivial
  | read pending howmuch realloc found =>
    exact iff_of_true (read_fifo h pending howmuch realloc found) trivial
  | write sent => exact write_fifo_iff h sent hadm
  | drain len => exact iff_of_true (drain_fifo h len) trivial

/-! ## Runs of calls -/

/-- A send whose number of bytes is -1 as an `int` leaves them in the buffer. -/
theorem send_minus_one_stays {data : List UInt8} {n : Nat} (hlen : data.length = n)
    (hn : n = 4294967295) : ¬ AllSteps fifoStep FifoCall fifoNew
      [.add (some fun _ => 0) data, .write (some n)] := by
  intro h
  have hadm : Admits fifoNew (.add (some fun _ => 0) data) := by
    show 0 + 0 + data.length < 2 ^ 63
    omega
  obtain ⟨r, buf, hadd, hv, hr⟩ := evbufferAdd_spec evbufferNew_valid (some fun _ => 0) data
  obtain ⟨rfl, hc⟩ : r = 0 ∧ buf.contents = [] ++ data :=
    hr.resolve_left fun hr => by cases hr.2.2
  have hstep : fifoStep fifoNew (.add (some fun _ => 0) data) = some ⟨buf, data⟩ := by
    have hcall : bufferCall fifoNew.buf (.add (some fun _ => 0) data) = some (0, buf) := hadd
    simp only [fifoStep, hcall]
    rfl
  have hwhole := fifoStep_whole fifoNew_whole hadm h.1 hstep
  have hoff : buf.off = n := by
    rw [← hv.length_contents, hc]
    exact hlen
  have hadm' : Admits ⟨buf, data⟩ (.write (some n)) := by
    intro k hk
    cases hk
    exact Nat.le_of_eq hoff.symm
  have hfits := (write_fifo_iff hwhole (some n) hadm').mp (h.2 _ hstep).1 _ rfl
  rcases hfits with hfits | ⟨hneg, -⟩
  · omega
  · rw [hn] at hneg
    exact absurd hneg (by decide)

end Donkeyji.MyEvent
