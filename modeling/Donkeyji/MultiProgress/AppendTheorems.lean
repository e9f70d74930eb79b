/-
Donkeyji.MultiProgress.AppendTheorems — when the two copies of `buffer_append`
are all or nothing.

A buffer of `multi_progress` is one of `server_maps` without an offset
(`Buffer.toServer`), and its calls are those of the other copy
(`bufferCall_toServer`). So what is proved of one call there holds here.
-/
import Donkeyji.MultiProgress.Cgi
import Donkeyji.ServerMaps.AppendTheorems

namespace Donkeyji.MultiProgress

open Memory Runs
open ServerMaps (BufferCall)

/-- The buffer of `server_maps` with the same fields. -/
def Buffer.toServer (b : Buffer) : ServerMaps.Buffer := ⟨b.ptr, b.size, b.used, 0⟩

/-- What a call returns (0 for `buffer_reset`), and the buffer after it. -/
def bufferCall (b : Buffer) : BufferCall → Option (Int × Buffer)
  | .append mem buf => bufferAppendWith mem b buf
  | .reset => do
    let b ← bufferResetMem b
    return (0, b)

/-- A step of a run. -/
def bufferStep (b : Buffer) (c : BufferCall) : Option Buffer := (bufferCall b c).map Prod.snd

/-- The bytes of a buffer. -/
def Buffer.content (b : Buffer) : List UInt8 := slice b.ptr 0 b.used

/-- The bytes in the buffer and those to come are fewer than 2^31. -/
def Total (b : Buffer) (c : BufferCall) : Prop := ServerMaps.Total b.toServer c

instance (b : Buffer) (c : BufferCall) : Decidable (Total b c) := by
  unfold Total
  infer_instance

/-- A call is safe. An append returns 0 and the content is the old one and the new bytes, or it
returns -1 and the buffer is as before; a reset leaves no content. -/
def AllOrNothing (b : Buffer) (c : BufferCall) : Prop :=
  ∃ r b', bufferCall b c = some (r, b') ∧ match c with
    | .append _ buf =>
      r = 0 ∧ b'.content = b.content ++ buf ∧ b'.used ≤ b'.size ∨ r = -1 ∧ b' = b
    | .reset => b'.content = [] ∧ b'.used ≤ b'.size

/-- An append that needs a block gets one. -/
def BlockGiven (b : Buffer) (c : BufferCall) : Prop := ServerMaps.BlockGiven b.toServer c

/-- The buffer without the offset. -/
theorem Buffer.toServer_of_offset {b : ServerMaps.Buffer} (h : b.offset = 0) :
    Buffer.toServer ⟨b.ptr, b.size, b.used⟩ = b := by
  rw [Buffer.toServer, ← h]

theorem Buffer.toServer_injective : Function.Injective Buffer.toServer := by
  rintro ⟨p, s, u⟩ ⟨p', s', u'⟩ h
  simpa [Buffer.toServer] using h

/-- **The two copies do the same.** -/
theorem bufferCall_toServer (b : Buffer) (c : BufferCall) :
    ServerMaps.bufferCall b.toServer c =
      (bufferCall b c).map fun rb => (rb.1, rb.2.toServer) := by
  cases c with
  | append mem buf =>
    show ServerMaps.bufferAppendWith mem b.toServer buf = (bufferAppendWith mem b buf).map _
    unfold bufferAppendWith
    cases hcall : ServerMaps.bufferAppendWith mem b.toServer buf with
    | none =>
      have hcall' : ServerMaps.bufferAppendWith mem ⟨b.ptr, b.size, b.used, 0⟩ buf = none := hcall
      simp [hcall']
    | some rb =>
      have hcall' : ServerMaps.bufferAppendWith mem ⟨b.ptr, b.size, b.used, 0⟩ buf = some rb :=
        hcall
      have hoffset : rb.2.offset = 0 := ServerMaps.bufferAppendWith_offset hcall
      simp [hcall', Buffer.toServer_of_offset hoffset]
  | reset =>
    by_cases hpos : 0 < b.size
    · cases hptr : writeAt b.ptr 0 [0] with
      | none =>
        simp [ServerMaps.bufferCall, ServerMaps.bufferResetMem, bufferCall, bufferResetMem,
          Buffer.toServer, hpos, hptr]
      | some ptr =>
        simp [ServerMaps.bufferCall, ServerMaps.bufferResetMem, bufferCall, bufferResetMem,
          Buffer.toServer, hpos, hptr]
    · simp [ServerMaps.bufferCall, ServerMaps.bufferResetMem, bufferCall, bufferResetMem,
        Buffer.toServer, hpos]

/-- A call is all or nothing in one copy exactly if it is in the other. -/
theorem allOrNothing_toServer (b : Buffer) (c : BufferCall) :
    AllOrNothing b c ↔ ServerMaps.AllOrNothing b.toServer c := by
  unfold AllOrNothing ServerMaps.AllOrNothing
  simp only [bufferCall_toServer, Option.map_eq_some_iff, Prod.mk.injEq, Prod.exists]
  constructor
  · rintro ⟨r, b', hcall, hr⟩
    refine ⟨r, b'.toServer, ⟨r, b', hcall, rfl, rfl⟩, ?_⟩
    cases c with
    | append mem buf => exact hr.imp_right fun h => ⟨h.1, congrArg _ h.2⟩
    | reset => exact hr
  · rintro ⟨r, b1, ⟨r', b', hcall, rfl, rfl⟩, hr⟩
    refine ⟨r', b', hcall, ?_⟩
    cases c with
    | append mem buf => exact hr.imp_right fun h => ⟨h.1, Buffer.toServer_injective h.2⟩
    | reset => exact hr

/-- A step here is a step there. -/
theorem bufferStep_toServer {b b' : Buffer} {c : BufferCall} (h : bufferStep b c = some b') :
    ServerMaps.bufferStep b.toServer c = some b'.toServer := by
  obtain ⟨rb, hcall, rfl⟩ := Option.map_eq_some_iff.mp h
  simp [ServerMaps.bufferStep, bufferCall_toServer, hcall]

/-- **When `buffer_append` is all or nothing**: in every run of appends and resets from
`buffer_new`, in both copies, exactly if every append that needs a block gets one. -/
theorem all_or_nothing_iff (cs : List BufferCall) :
    (AllSteps bufferStep Total bufferNew cs →
      (AllSteps bufferStep AllOrNothing bufferNew cs ↔
        AllSteps bufferStep BlockGiven bufferNew cs)) ∧
    (AllSteps ServerMaps.bufferStep ServerMaps.Total ServerMaps.bufferNew cs →
      (AllSteps ServerMaps.bufferStep ServerMaps.AllOrNothing ServerMaps.bufferNew cs ↔
        AllSteps ServerMaps.bufferStep ServerMaps.BlockGiven ServerMaps.bufferNew cs)) := by
  refine ⟨fun htotal => ?_, ServerMaps.all_or_nothing_run cs⟩
  refine allSteps_iff_allSteps (fun b => ServerMaps.Sound b.toServer) Total ?_ ?_
    ServerMaps.bufferNew_sound htotal
  · intro b c hb ht
    rw [allOrNothing_toServer]
    exact ServerMaps.all_or_nothing_call hb c ht
  · intro b c b' hb ht hgood hstep
    exact ServerMaps.bufferStep_sound hb c ht hgood (bufferStep_toServer hstep)

/-- Two appends, the second with no block to be had, and a reset. -/
theorem all_or_nothing_iff_full :
    (AllSteps bufferStep AllOrNothing bufferNew
        [.append (some fun _ => 0) [1, 2], .append none (List.replicate 200 3), .reset] ↔
      AllSteps bufferStep BlockGiven bufferNew
        [.append (some fun _ => 0) [1, 2], .append none (List.replicate 200 3), .reset]) ∧
    (AllSteps ServerMaps.bufferStep ServerMaps.AllOrNothing ServerMaps.bufferNew
        [.append (some fun _ => 0) [1, 2], .append none (List.replicate 200 3), .reset] ↔
      AllSteps ServerMaps.bufferStep ServerMaps.BlockGiven ServerMaps.bufferNew
        [.append (some fun _ => 0) [1, 2], .append none (List.replicate 200 3), .reset]) :=
  ⟨(all_or_nothing_iff _).1 (by decide +kernel), (all_or_nothing_iff _).2 (by decide +kernel)⟩

/-- **A failed append grows the buffer**: the first `malloc` fails, -1 is returned, and the size
is 128 with no block. The reset that follows writes through a null pointer. -/
theorem failed_append_grows : ¬ AllSteps bufferStep AllOrNothing bufferNew
    [.append none [65], .reset] := by
  intro h
  have hcall : bufferCall bufferNew (.append none [65]) = some (-1, ⟨[], 128, 0⟩) := by decide
  obtain ⟨r, b', hcall', hr⟩ := h.1
  rw [hcall] at hcall'
  cases hcall'
  rcases hr with ⟨hr, -⟩ | ⟨-, hb'⟩
  · exact absurd hr (by decide)
  · exact absurd hb' (by decide)

end Donkeyji.MultiProgress
