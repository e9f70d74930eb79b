/-
Donkeyji.ServerMaps.AppendTheorems — when `buffer_append` is all or nothing.

A run is a sequence of `buffer_append` and `buffer_reset` on one buffer. What
`malloc` or `realloc` gives is part of each append. A buffer is `Sound` when
its block has its size; an append keeps that and the bytes before it
(`append_done`), or the allocation failed. Then -1 is returned, but the size
is the new one and the pointer NULL (`append_failed`), so the old block is
lost and the next call may write through NULL.
-/
import Donkeyji.Lib.Runs
import Donkeyji.ServerMaps.ResponseTheorems

namespace Donkeyji.ServerMaps

open Memory Runs

/-- A call on a buffer; an append has the outcome of the allocation, if it makes one. -/
inductive BufferCall where
  | append (mem : Option (Nat → UInt8)) (buf : List UInt8)
  | reset

/-- What a call returns (0 for `buffer_reset`), and the buffer after it. -/
def bufferCall (b : Buffer) : BufferCall → Option (Int × Buffer)
  | .append mem buf => bufferAppendWith mem b buf
  | .reset => do
    let b ← bufferResetMem b
    return (0, b)

/-- A step of a run. -/
def bufferStep (b : Buffer) (c : BufferCall) : Option Buffer := (bufferCall b c).map Prod.snd

/-- The bytes in the buffer and those to come are fewer than 2^31. -/
def Total (b : Buffer) : BufferCall → Prop
  | .append _ buf => b.used + buf.length < 2 ^ 31
  | .reset => True

instance (b : Buffer) (c : BufferCall) : Decidable (Total b c) := by
  cases c <;> unfold Total <;> infer_instance

/-- A call is safe. An append returns 0 and the content is the old one and the new bytes, or it
returns -1 and the buffer is as before; a reset leaves no content. -/
def AllOrNothing (b : Buffer) (c : BufferCall) : Prop :=
  ∃ r b', bufferCall b c = some (r, b') ∧ match c with
    | .append _ buf =>
      r = 0 ∧ b'.content = b.content ++ buf ∧ b'.used ≤ b'.size ∨ r = -1 ∧ b' = b
    | .reset => b'.content = [] ∧ b'.used ≤ b'.size

/-- An append that needs a block gets one. -/
def BlockGiven (b : Buffer) : BufferCall → Prop
  | .append mem buf => b.size = 0 ∨ b.size - b.used < buf.length → mem.isSome = true
  | .reset => True

/-- The buffer has its block, and room for an `int` to count what is missing. -/
structure Sound (b : Buffer) : Prop where
  length : b.ptr.length = b.size
  used_le : b.used ≤ b.size
  size_lt : b.size < 2 ^ 32
  size_ge : b.size = 0 ∨ 128 ≤ b.size

theorem bufferNew_sound : Sound bufferNew := ⟨rfl, Nat.le_refl _, by decide, Or.inl rfl⟩

/-! ## The sizes of the blocks -/

/-- The first block is larger than the data, by 128 at most. -/
theorem firstSize_bounds {n : Nat} (h : n < 2 ^ 31) :
    n < firstSize n ∧ 128 ≤ firstSize n ∧ firstSize n < 2 ^ 32 := by
  unfold firstSize toU64
  omega

/-- A block that grows does so by what is missing, and by 128 more at most. -/
theorem grownSize_bounds {size used n : Nat} (hsize : 128 ≤ size) (hused : used ≤ size)
    (hfull : size - used < n) (h : used + n < 2 ^ 31) :
    used + n < grownSize size (wrap32 (n - (size - used : Nat))) ∧ size < grownSize size
      (wrap32 (n - (size - used : Nat))) ∧ grownSize size (wrap32 (n - (size - used : Nat))) <
      2 ^ 32 := by
  have hless : wrap32 ((n : Int) - (size - used : Nat)) = (n : Int) - (size - used : Nat) :=
    wrap32_of_bounds (by omega) (by omega)
  have hmod : ((n : Int) - (size - used : Nat)).tmod 128 =
      ((n : Int) - (size - used : Nat)) % 128 := Int.tmod_eq_emod_of_nonneg (by omega)
  unfold grownSize
  rw [hless, hmod, wrap32_of_bounds (by omega) (by omega)]
  unfold toU64
  omega

/-- The room that is left, as the code computes it. -/
theorem Sound.space {b : Buffer} (h : Sound b) :
    toU64 ((b.size : Int) - b.used) = ((b.size - b.used : Nat) : Int) := by
  have hused := h.used_le
  have hlt := h.size_lt
  rw [toU64_of_bounds (by omega) (by omega)]
  omega

/-! ## One append -/

/-- The `memcpy` of an append, when the bytes fit. -/
theorem store_appends {b : Buffer} {buf : List UInt8} (h : Sound b)
    (hfits : b.used + buf.length ≤ b.size) :
    ∃ b', b.store buf = some (0, b') ∧ Sound b' ∧ b'.content = b.content ++ buf := by
  have hlen := h.length
  obtain ⟨ptr, hptr⟩ : ∃ ptr, writeAt b.ptr b.used buf = some ptr :=
    ⟨_, writeAt_some (by omega) (by omega)⟩
  refine ⟨{ b with ptr, used := b.used + buf.length }, ?_, ⟨?_, hfits, h.size_lt, h.size_ge⟩, ?_⟩
  · simp [Buffer.store, hptr]
  · show ptr.length = b.size
    rw [length_writeAt hptr, hlen]
  · have hself := slice_writeAt_self hptr
    have hbefore : slice ptr 0 b.used = slice b.ptr 0 b.used :=
      slice_writeAt_before hptr (by omega)
    rw [Int.toNat_natCast] at hself
    show slice ptr 0 (b.used + buf.length) = slice b.ptr 0 b.used ++ buf
    rw [← slice_append, Nat.zero_add, hself, hbefore]

/-- A larger block keeps the content. -/
theorem content_realloc {b : Buffer} {junk : Nat → UInt8} {size : Nat} (h : Sound b)
    (hsize : b.size ≤ size) :
    Buffer.content { b with ptr := realloc junk b.ptr size, size } = b.content := by
  have hlen := h.length
  have hused := h.used_le
  show slice (realloc junk b.ptr size) 0 b.used = slice b.ptr 0 b.used
  unfold realloc slice
  rw [List.drop_zero, List.drop_zero, List.take_append_of_le_length (by simp; omega),
    List.take_take]
  congr 1
  omega

/-- An append into a block of another size, when there is one. -/
theorem growWith_some {b : Buffer} {junk : Nat → UInt8} {size : Nat} {buf : List UInt8}
    (h : Sound b) (hsize : b.size ≤ size) (hfits : b.used + buf.length ≤ size)
    (hlt : size < 2 ^ 32) (hge : 128 ≤ size) :
    ∃ b', b.growWith (some junk) size buf = some (0, b') ∧ Sound b' ∧
      b'.content = b.content ++ buf := by
  have hsound : Sound { b with ptr := realloc junk b.ptr size, size } :=
    ⟨length_realloc junk b.ptr size, by show b.used ≤ size; omega, hlt, Or.inr hge⟩
  obtain ⟨b', hstore, hb', hcont⟩ := store_appends hsound hfits
  exact ⟨b', hstore, hb', by rw [hcont, content_realloc h hsize]⟩

/-- **An append whose block is there.** -/
theorem append_done {b : Buffer} {mem : Option (Nat → UInt8)} {buf : List UInt8} (h : Sound b)
    (htotal : Total b (.append mem buf)) (halloc : BlockGiven b (.append mem buf)) :
    ∃ b', bufferAppendWith mem b buf = some (0, b') ∧ Sound b' ∧
      b'.content = b.content ++ buf := by
  have hspace := h.space
  have hused := h.used_le
  have hsum : b.used + buf.length < 2 ^ 31 := htotal
  simp only [bufferAppendWith, hspace]
  by_cases hzero : b.size = 0
  · obtain ⟨junk, rfl⟩ := Option.isSome_iff_exists.mp (halloc (Or.inl hzero))
    have hbounds := firstSize_bounds (n := buf.length) (by omega)
    rw [if_pos hzero]
    exact growWith_some h (by omega) (by omega) hbounds.2.2 hbounds.2.1
  rw [if_neg hzero]
  by_cases hfull : b.size - b.used < buf.length
  · obtain ⟨junk, rfl⟩ := Option.isSome_iff_exists.mp (halloc (Or.inr hfull))
    have hge : 128 ≤ b.size := h.size_ge.resolve_left hzero
    have hbounds := grownSize_bounds hge hused hfull hsum
    rw [if_pos (by omega)]
    exact growWith_some h (by omega) (by omega) hbounds.2.2 (by omega)
  · rw [if_neg (by omega)]
    exact store_appends h (by omega)

/-- **An append whose block is not there** returns -1 from a buffer of another size. -/
theorem append_failed {b : Buffer} {mem : Option (Nat → UInt8)} {buf : List UInt8} (h : Sound b)
    (htotal : Total b (.append mem buf)) (halloc : ¬ BlockGiven b (.append mem buf)) :
    ∃ b', bufferAppendWith mem b buf = some (-1, b') ∧ b'.size ≠ b.size := by
  have hspace := h.space
  have hused := h.used_le
  have hsum : b.used + buf.length < 2 ^ 31 := htotal
  obtain ⟨hneeds, hmem⟩ := Classical.not_imp.mp halloc
  rw [Bool.not_eq_true, Option.isSome_eq_false_iff, Option.isNone_iff_eq_none] at hmem
  subst hmem
  simp only [bufferAppendWith, hspace]
  by_cases hzero : b.size = 0
  · have hbounds := firstSize_bounds (n := buf.length) (by omega)
    rw [if_pos hzero]
    refine ⟨_, rfl, ?_⟩
    show firstSize buf.length ≠ b.size
    omega
  · have hfull := hneeds.resolve_left hzero
    have hge : 128 ≤ b.size := h.size_ge.resolve_left hzero
    have hbounds := grownSize_bounds hge hused hfull hsum
    rw [if_neg hzero, if_pos (by omega)]
    refine ⟨_, rfl, ?_⟩
    show grownSize b.size (wrap32 (buf.length - (b.size - b.used : Nat))) ≠ b.size
    omega

/-- An append does not touch the offset. -/
theorem store_offset {b b' : Buffer} {buf : List UInt8} {r : Int}
    (h : b.store buf = some (r, b')) : b'.offset = b.offset := by
  obtain ⟨ptr, -, h⟩ := Option.bind_eq_some_iff.mp h
  cases h
  rfl

theorem growWith_offset {b b' : Buffer} {mem : Option (Nat → UInt8)} {size : Nat}
    {buf : List UInt8} {r : Int} (h : b.growWith mem size buf = some (r, b')) :
    b'.offset = b.offset := by
  cases mem with
  | none =>
    cases h
    rfl
  | some junk =>
    have hoffset := store_offset (b := { b with ptr := realloc junk b.ptr size, size }) h
    exact hoffset

theorem bufferAppendWith_offset {b b' : Buffer} {mem : Option (Nat → UInt8)} {buf : List UInt8}
    {r : Int} (h : bufferAppendWith mem b buf = some (r, b')) : b'.offset = b.offset := by
  simp only [bufferAppendWith] at h
  split at h
  · exact growWith_offset h
  · split at h
    · exact growWith_offset h
    · exact store_offset h

/-- `buffer_reset` of a sound buffer. -/
theorem reset_done {b : Buffer} (h : Sound b) :
    ∃ b', bufferResetMem b = some b' ∧ Sound b' ∧ b'.content = [] := by
  have hlen := h.length
  by_cases hpos : b.size > 0
  · obtain ⟨ptr, hptr⟩ : ∃ ptr, writeAt b.ptr 0 [0] = some ptr :=
      ⟨_, writeAt_some (by omega) (by simp; omega)⟩
    refine ⟨{ b with ptr, used := 0, offset := 0 }, by simp [bufferResetMem, hpos, hptr],
      ⟨?_, Nat.zero_le _, h.size_lt, h.size_ge⟩, by simp [Buffer.content, slice]⟩
    show ptr.length = b.size
    rw [length_writeAt hptr, hlen]
  · exact ⟨{ b with used := 0, offset := 0 }, by simp [bufferResetMem, hpos],
      ⟨hlen, Nat.zero_le _, h.size_lt, h.size_ge⟩, by simp [Buffer.content, slice]⟩

/-! ## Runs -/

/-- **One call** is all or nothing exactly if a block it needs is there. -/
theorem all_or_nothing_call {b : Buffer} (h : Sound b) (c : BufferCall) (htotal : Total b c) :
    AllOrNothing b c ↔ BlockGiven b c := by
  cases c with
  | append mem buf =>
    by_cases halloc : BlockGiven b (.append mem buf)
    · obtain ⟨b', hb', hsound, hcont⟩ := append_done h htotal halloc
      exact iff_of_true ⟨0, b', hb', Or.inl ⟨rfl, hcont, hsound.used_le⟩⟩ halloc
    · obtain ⟨b', hb', hsize⟩ := append_failed h htotal halloc
      refine iff_of_false ?_ halloc
      rintro ⟨r, b1, hcall, hr⟩
      have hsame := hb'.symm.trans hcall
      simp only [Option.some.injEq, Prod.mk.injEq] at hsame
      obtain ⟨rfl, rfl⟩ := hsame
      rcases hr with ⟨hr, -⟩ | ⟨-, rfl⟩
      · exact absurd hr (by decide)
      · exact hsize rfl
  | reset =>
    obtain ⟨b', hb', hsound, hcont⟩ := reset_done h
    exact iff_of_true ⟨0, b', by simp [bufferCall, hb'], hcont, hsound.used_le⟩ trivial

/-- A call whose block is there keeps the buffer sound. -/
theorem bufferStep_sound {b b' : Buffer} (h : Sound b) (c : BufferCall) (htotal : Total b c)
    (halloc : BlockGiven b c) (hstep : bufferStep b c = some b') : Sound b' := by
  cases c with
  | append mem buf =>
    obtain ⟨b1, hb1, hsound, -⟩ := append_done h htotal halloc
    simp only [bufferStep, bufferCall, hb1, Option.map_some, Option.some.injEq] at hstep
    exact hstep ▸ hsound
  | reset =>
    obtain ⟨b1, hb1, hsound, -⟩ := reset_done h
    simp [bufferStep, bufferCall, hb1] at hstep
    exact hstep ▸ hsound

/-- **When `buffer_append` is all or nothing**, for the buffers of `server_maps`. -/
theorem all_or_nothing_run (cs : List BufferCall) (htotal : AllSteps bufferStep Total bufferNew cs) :
    AllSteps bufferStep AllOrNothing bufferNew cs ↔ AllSteps bufferStep BlockGiven bufferNew cs := by
  refine allSteps_iff_allSteps Sound Total ?_ ?_ bufferNew_sound htotal
  · intro b c hb ht
    exact all_or_nothing_call hb c ht
  · intro b c b' hb ht hgood hstep
    exact bufferStep_sound hb c ht hgood hstep

/-- The `buffer_append` of a fixed allocator is one of these. -/
theorem bufferAppend_eq_with (junk : Nat → UInt8) (b : Buffer) (buf : List UInt8) :
    ∃ mem, bufferAppend junk b buf = bufferAppendWith mem b buf := by
  have hgrow : ∀ size, b.grow junk size buf =
      b.growWith (if Allocates size then some junk else none) size buf := by
    intro size
    unfold Buffer.grow Buffer.growWith
    split <;> rfl
  simp only [bufferAppend, bufferAppendWith]
  split
  · exact ⟨_, hgrow _⟩
  · split
    · exact ⟨_, hgrow _⟩
    · exact ⟨none, rfl⟩

end Donkeyji.ServerMaps
