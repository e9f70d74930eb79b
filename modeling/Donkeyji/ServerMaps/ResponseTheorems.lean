/-
Donkeyji.ServerMaps.ResponseTheorems — which responses are sent once.

`conn_client_send` hands on everything that was ever appended, and nothing
moves `offset`. So after a response that is not empty every further one sends
it again (`respondAll_again`). A single response may be lost too: what a full
buffer misses is counted in an `int`, and the result of `buffer_append` is not
looked at (`bufferAppend_lost`).
-/
import Donkeyji.ServerMaps.Buffer

namespace Donkeyji.ServerMaps

open Memory

variable {junk : Nat → UInt8} {b b' : Buffer} {buf : List UInt8} {bufs : List (List UInt8)}
  {size n : Nat} {r : Int}

/-- A buffer with its block. -/
structure Valid (b : Buffer) : Prop where
  length : b.ptr.length = b.size
  used_le : b.used ≤ b.size
  size_lt : b.size < 9223372036854775808
  offset : b.offset = 0

/-- The bytes of a buffer. -/
def Buffer.content (b : Buffer) : List UInt8 := slice b.ptr 0 b.used

/-- At every moment of the run, what was handed on is what was appended, each byte once and in
order. -/
def SentOnce (junk : Nat → UInt8) (b : Buffer) (bufs : List (List UInt8)) : Prop :=
  ∀ done, done <+: bufs → respondAll junk b done = some done.flatten

/-- The size of a block that grows for `n` bytes: what is missing, rounded up. -/
def roomFor (size n : Nat) : Nat := size + 128 * ((n - size) / 128 + 1)

/-- A response finds room in an empty buffer of a size: it fits, or there is a larger block and,
but for the first block, what is missing can be counted in an `int`. -/
def Fits (size n : Nat) : Prop :=
  n ≤ size ∨ (size = 0 ∨ n - size < 2147483520) ∧ roomFor size n < 9223372036854775808

/-! ## The size of a block -/

theorem firstSize_eq (h : roomFor 0 n < 9223372036854775808) : firstSize n = roomFor 0 n := by
  unfold firstSize toU64 roomFor at *
  omega

theorem fits_of_firstSize (h : Allocates (firstSize n)) (hn : n ≤ firstSize n) : Fits 0 n := by
  unfold Allocates at h
  unfold firstSize toU64 at h hn
  unfold Fits roomFor
  omega

/-- What is missing, while an `int` can hold it. -/
theorem less_eq (hn : size < n) (hless : n - size < 2147483648) :
    wrap32 ((n : Int) - size) = (n : Int) - size ∧
      ((n : Int) - size).tmod 128 = ((n : Int) - size) % 128 :=
  ⟨wrap32_of_bounds (by omega) (by omega), Int.tmod_eq_emod_of_nonneg (by omega)⟩

theorem grownSize_eq (hn : size < n) (hless : n - size < 2147483520)
    (h : roomFor size n < 9223372036854775808) :
    grownSize size (wrap32 ((n : Int) - size)) = roomFor size n := by
  obtain ⟨hwrap, hmod⟩ := less_eq hn (by omega)
  unfold grownSize roomFor at *
  rw [hwrap, hmod, wrap32_of_bounds (by omega) (by omega)]
  unfold toU64
  omega

theorem fits_of_grownSize (hsize : size < 9223372036854775808) (hn : size < n)
    (h : Allocates (grownSize size (wrap32 ((n : Int) - size))))
    (hroom : n ≤ grownSize size (wrap32 ((n : Int) - size))) : Fits size n := by
  unfold Allocates at h
  by_cases hless : n - size < 2147483520
  · obtain ⟨hwrap, hmod⟩ := less_eq hn (by omega)
    unfold grownSize at h hroom
    rw [hwrap, hmod, wrap32_of_bounds (by omega) (by omega)] at h hroom
    unfold toU64 at h hroom
    unfold Fits roomFor
    omega
  · exfalso
    by_cases hint : n - size < 2147483648
    · -- the sum of what is missing and its rounding is negative
      obtain ⟨hwrap, hmod⟩ := less_eq hn hint
      unfold grownSize at h hroom
      rw [hwrap, hmod] at h hroom
      unfold toU64 wrap32 at h hroom
      omega
    · -- an `int` is less than what is missing
      have hbounds := wrap32_bounds (wrap32 ((n : Int) - size) +
        (128 - (wrap32 ((n : Int) - size)).tmod 128))
      unfold grownSize at h hroom
      unfold toU64 at h hroom
      omega

/-! ## One response -/

theorem length_realloc (junk : Nat → UInt8) (ptr : List UInt8) (size : Nat) :
    (realloc junk ptr size).length = size := by
  simp only [realloc, List.length_append, List.length_take, List.length_map, List.length_range]
  omega

/-- What can come of a `memcpy` into a buffer. -/
theorem store_some (hlength : b.ptr.length = b.size) (hlt : b.size < 9223372036854775808)
    (hoffset : b.offset = 0) (h : b.store buf = some (r, b')) :
    Valid b' ∧ b'.used = b.used + buf.length ∧ b'.size = b.size ∧ b'.used ≤ b.size := by
  obtain ⟨ptr, hptr, hb'⟩ := Option.bind_eq_some_iff.mp h
  obtain ⟨rfl, rfl⟩ := Prod.mk.inj (Option.some.inj hb')
  have hbounds := writeAt_bounds hptr
  have hlen := length_writeAt hptr
  exact ⟨⟨by simp only; omega, by simp only; omega, hlt, hoffset⟩, rfl, rfl, by simp only; omega⟩

/-- What can come of a new block. Without one nothing is appended. -/
theorem grow_some (hoffset : b.offset = 0) (h : b.grow junk size buf = some (r, b')) :
    Allocates size ∧ Valid b' ∧ b'.used = b.used + buf.length ∧ b'.size = size ∧ b'.used ≤ size ∨
      b'.ptr = [] ∧ b'.used = b.used ∧ b'.offset = 0 := by
  unfold Buffer.grow at h
  split at h
  · next halloc =>
    have hblock : (realloc junk b.ptr size).length = size := length_realloc junk b.ptr size
    exact .inl ⟨halloc, store_some (b := { b with ptr := realloc junk b.ptr size, size }) hblock
      halloc.2 hoffset h⟩
  · obtain ⟨rfl, rfl⟩ := Prod.mk.inj (Option.some.inj h)
    exact .inr ⟨rfl, rfl, hoffset⟩

theorem store_fits (h : Valid b) (hempty : b.used = 0) (hroom : buf.length ≤ b.size) :
    ∃ b', b.store buf = some (0, b') ∧ Valid b' ∧ b'.used = buf.length ∧ b'.size = b.size ∧
      b'.content = buf := by
  obtain ⟨ptr, hptr⟩ : ∃ ptr, writeAt b.ptr b.used buf = some ptr :=
    ⟨_, writeAt_some (by omega) (by rw [h.length]; omega)⟩
  have hstore : b.store buf = some (0, { b with ptr, used := b.used + buf.length }) := by
    simp [Buffer.store, hptr]
  obtain ⟨hvalid, hused, hsize, -⟩ := store_some h.length h.size_lt h.offset hstore
  refine ⟨_, hstore, hvalid, by omega, hsize, ?_⟩
  have hself := slice_writeAt_self hptr
  rw [hempty] at hself
  rw [Buffer.content, hused, hempty, Nat.zero_add]
  exact hself

theorem grow_fits (h : Valid b) (hempty : b.used = 0) (halloc : Allocates size)
    (hroom : buf.length ≤ size) :
    ∃ b', b.grow junk size buf = some (0, b') ∧ Valid b' ∧ b'.used = buf.length ∧
      b'.size = size ∧ b'.content = buf := by
  have hvalid : Valid { b with ptr := realloc junk b.ptr size, size } :=
    ⟨length_realloc junk b.ptr size, by simp only [hempty]; omega, halloc.2, h.offset⟩
  rw [Buffer.grow, if_pos halloc]
  exact store_fits hvalid hempty hroom

/-- The room left in an empty buffer. -/
theorem space_eq (h : Valid b) : toU64 ((b.size : Int) - (0 : Nat)) = b.size := by
  have hlt := h.size_lt
  rw [Nat.cast_zero, sub_zero]
  exact toU64_of_bounds (by omega) (by omega)

/-- A response that finds room in an empty buffer is all it then holds. -/
theorem bufferAppend_fits (junk : Nat → UInt8) (h : Valid b) (hempty : b.used = 0) (hfits : Fits b.size buf.length) :
    ∃ b', bufferAppend junk b buf = some (0, b') ∧ Valid b' ∧ b'.used = buf.length ∧
      b'.size = (if b.size = 0 ∨ b.size < buf.length then roomFor b.size buf.length else b.size) ∧
      b'.content = buf := by
  have hlt := h.size_lt
  by_cases hzero : b.size = 0
  · have hroom : roomFor 0 buf.length < 9223372036854775808 := by
      unfold Fits roomFor at *
      omega
    have halloc : Allocates (firstSize buf.length) := by
      rw [firstSize_eq hroom]
      exact ⟨by unfold roomFor; omega, hroom⟩
    rw [if_pos (Or.inl hzero), hzero, ← firstSize_eq hroom]
    simp only [bufferAppend, if_pos hzero]
    exact grow_fits h hempty halloc (by rw [firstSize_eq hroom]; unfold roomFor; omega)
  · simp only [bufferAppend, if_neg hzero, hempty, space_eq h]
    by_cases hfull : b.size < buf.length
    · obtain ⟨hless, hroom⟩ : buf.length - b.size < 2147483520 ∧
          roomFor b.size buf.length < 9223372036854775808 := by
        unfold Fits at hfits
        omega
      have hgrown := grownSize_eq hfull hless hroom
      rw [if_pos (Or.inr hfull), if_pos (by omega : (b.size : Int) < buf.length), hgrown]
      exact grow_fits h hempty ⟨by unfold roomFor; omega, hroom⟩ (by unfold roomFor; omega)
    · rw [if_neg (by omega), if_neg (by omega)]
      exact store_fits h hempty (by omega)

/-- What can come of a response. -/
theorem bufferAppend_some (h : Valid b) (hb' : bufferAppend junk b buf = some (r, b')) :
    Valid b' ∧ b'.used = b.used + buf.length ∨ b'.ptr = [] ∧ b'.used = b.used ∧ b'.offset = 0 := by
  have hgrow : ∀ size, b.grow junk size buf = some (r, b') →
      Valid b' ∧ b'.used = b.used + buf.length ∨
        b'.ptr = [] ∧ b'.used = b.used ∧ b'.offset = 0 := by
    intro size hg
    rcases grow_some h.offset hg with ⟨-, hvalid, hused, -⟩ | hlost
    · exact .inl ⟨hvalid, hused⟩
    · exact .inr hlost
  simp only [bufferAppend] at hb'
  split at hb'
  · exact hgrow _ hb'
  · split at hb'
    · exact hgrow _ hb'
    · obtain ⟨hvalid, hused, -⟩ := store_some h.length h.size_lt h.offset hb'
      exact .inl ⟨hvalid, hused⟩

/-- A response that finds no room in an empty buffer is lost. -/
theorem bufferAppend_lost (h : Valid b) (hempty : b.used = 0) (hfits : ¬ Fits b.size buf.length)
    (hb' : bufferAppend junk b buf = some (r, b')) : b'.used = 0 ∧ b'.offset = 0 := by
  have hlt := h.size_lt
  have hfull : b.size < buf.length := by
    unfold Fits at hfits
    omega
  simp only [bufferAppend, hempty, space_eq h] at hb'
  by_cases hzero : b.size = 0
  · rw [if_pos hzero] at hb'
    rcases grow_some h.offset hb' with ⟨halloc, -, hused, -, hroom⟩ | ⟨-, hused, hoffset⟩
    · have := fits_of_firstSize halloc (by omega)
      rw [hzero] at hfits
      contradiction
    · exact ⟨by omega, hoffset⟩
  · rw [if_neg hzero, if_pos (by omega : (b.size : Int) < buf.length)] at hb'
    rcases grow_some h.offset hb' with ⟨halloc, -, hused, -, hroom⟩ | ⟨-, hused, hoffset⟩
    · exact absurd (fits_of_grownSize hlt hfull halloc (by omega)) hfits
    · exact ⟨by omega, hoffset⟩

/-! ## Sending -/

/-- Everything in the buffer is sent. -/
theorem connClientSend_valid (h : Valid b) : connClientSend b = some b.content := by
  have hused := h.used_le
  have hlt := h.size_lt
  have hlen := h.length
  have hsize : toU64 ((b.used : Int) - b.offset) = b.used := by
    rw [h.offset]
    exact toU64_of_bounds (by omega) (by omega)
  simp only [connClientSend, hsize]
  split
  · have hzero : b.used = 0 := by omega
    simp [Buffer.content, slice, hzero]
  · exact readAt_some (by omega) (by omega) (by omega)

theorem length_content (h : Valid b) : b.content.length = b.used :=
  length_slice (by have := h.used_le; rw [h.length]; omega)

theorem connClientSend_empty (hused : b.used = 0) (hoffset : b.offset = 0) :
    connClientSend b = some [] := by
  simp [connClientSend, hused, hoffset, toU64]

/-- Without its block a buffer cannot be sent. -/
theorem connClientSend_none (hptr : b.ptr = []) (hused : 0 < b.used)
    (hlt : b.used < 9223372036854775808) (hoffset : b.offset = 0) : connClientSend b = none := by
  have hsize : toU64 ((b.used : Int) - b.offset) = b.used := by
    rw [hoffset]
    exact toU64_of_bounds (by omega) (by omega)
  simp only [connClientSend, hsize]
  rw [if_neg (by omega), readAt, if_neg (by rw [hptr]; simp; omega)]

theorem respondAll_cons_some {out : List UInt8} :
    respondAll junk b (buf :: bufs) = some out ↔
      ∃ r b' sent rest, bufferAppend junk b buf = some (r, b') ∧ connClientSend b' = some sent ∧
        respondAll junk b' bufs = some rest ∧ out = sent ++ rest := by
  simp only [respondAll, Option.bind_eq_bind, Option.bind_eq_some_iff, Option.pure_def,
    Option.some.injEq, Prod.exists]
  constructor
  · rintro ⟨r, b', happ, sent, hsent, rest, hrest, rfl⟩
    exact ⟨r, b', sent, rest, happ, hsent, hrest, rfl⟩
  · rintro ⟨r, b', sent, rest, happ, hsent, hrest, rfl⟩
    exact ⟨r, b', happ, sent, hsent, rest, hrest, rfl⟩

/-- **Every byte is sent again.** From a buffer that holds something, with every further
response. -/
theorem respondAll_again (h : Valid b) (hused : 0 < b.used) (hbufs : bufs ≠ []) {out : List UInt8}
    (hout : respondAll junk b bufs = some out) : b.used + bufs.flatten.length ≤ out.length := by
  induction bufs generalizing b out with
  | nil => contradiction
  | cons buf bufs ih =>
    obtain ⟨r, b', sent, rest, happ, hsent, hrest, rfl⟩ := respondAll_cons_some.mp hout
    rcases bufferAppend_some h happ with ⟨hvalid, hused'⟩ | ⟨hptr, hused', hoffset⟩
    · have hlen : sent.length = b.used + buf.length := by
        rw [connClientSend_valid hvalid] at hsent
        rw [← Option.some.inj hsent, length_content hvalid, hused']
      have hrest : bufs.flatten.length ≤ rest.length := by
        by_cases hbufs' : bufs = []
        · simp [hbufs']
        · have := ih hvalid (by omega) hbufs' hrest
          omega
      simp only [List.flatten_cons, List.length_append]
      omega
    · have hle := h.used_le
      have hlt := h.size_lt
      rw [connClientSend_none hptr (by omega) (by omega) hoffset] at hsent
      cases hsent

/-- Empty responses send nothing, but the first one gets a block. -/
theorem respondAll_replicate (junk : Nat → UInt8) (h : Valid b) (hempty : b.used = 0) (k : Nat) :
    ∃ b', Valid b' ∧ b'.used = 0 ∧ b'.size = (if b.size = 0 ∧ 0 < k then 128 else b.size) ∧
      ∀ bufs, respondAll junk b (List.replicate k [] ++ bufs) = respondAll junk b' bufs := by
  induction k generalizing b with
  | zero => exact ⟨b, h, hempty, by simp, fun bufs => rfl⟩
  | succ k ih =>
    obtain ⟨b₁, happ, hvalid₁, hused₁, hsize₁, -⟩ :=
      bufferAppend_fits junk h hempty (.inl (Nat.zero_le _) : Fits b.size ([] : List UInt8).length)
    have hempty₁ : b₁.used = 0 := hused₁
    have hsize : b₁.size = (if b.size = 0 then 128 else b.size) := by
      rw [hsize₁]
      by_cases hzero : b.size = 0 <;> simp [hzero, roomFor]
    obtain ⟨b₂, hvalid₂, hempty₂, hsize₂, heq⟩ := ih hvalid₁ hempty₁
    refine ⟨b₂, hvalid₂, hempty₂, ?_, fun bufs => ?_⟩
    · rw [hsize₂, hsize]
      by_cases hzero : b.size = 0 <;> simp [hzero]
    · have hcontent : b₁.content = [] := by simp [Buffer.content, slice, hempty₁]
      rw [List.replicate_succ, List.cons_append, respondAll, happ]
      simp [connClientSend_valid hvalid₁, hcontent, heq bufs]

theorem respondAll_single (h : Valid b) (hempty : b.used = 0) (hfits : Fits b.size buf.length) :
    respondAll junk b [buf] = some buf := by
  obtain ⟨b', happ, hvalid, -, -, hcontent⟩ := bufferAppend_fits junk h hempty hfits
  rw [respondAll_cons_some]
  exact ⟨0, b', buf, [], happ, by rw [connClientSend_valid hvalid, hcontent], rfl, by simp⟩

theorem fits_of_respondAll (h : Valid b) (hempty : b.used = 0) (hbuf : buf ≠ [])
    (hsent : respondAll junk b [buf] = some buf) : Fits b.size buf.length := by
  by_contra hfits
  obtain ⟨r, b', sent, rest, happ, hsent, hrest, heq⟩ := respondAll_cons_some.mp hsent
  obtain ⟨hused, hoffset⟩ := bufferAppend_lost h hempty hfits happ
  rw [connClientSend_empty hused hoffset] at hsent
  obtain rfl := Option.some.inj hsent
  obtain rfl := Option.some.inj hrest
  exact hbuf heq

/-- After a response that is not empty no other one is sent alone. -/
theorem respondAll_two (h : Valid b) (hempty : b.used = 0) (hbuf : buf ≠ [])
    (hfits : Fits b.size buf.length) (next : List UInt8) :
    respondAll junk b [buf, next] ≠ some (buf ++ next) := by
  intro hsent
  obtain ⟨b₁, happ₁, hvalid, hused, -, hcontent⟩ := bufferAppend_fits junk h hempty hfits
  obtain ⟨r, b', sent, rest, happ, hsent, hrest, heq⟩ := respondAll_cons_some.mp hsent
  obtain ⟨rfl, rfl⟩ := Prod.mk.inj (Option.some.inj (happ₁.symm.trans happ))
  rw [connClientSend_valid hvalid, hcontent] at hsent
  obtain rfl := Option.some.inj hsent
  obtain rfl := List.append_cancel_left heq
  have hpos : 0 < buf.length := List.length_pos_iff.mpr hbuf
  have hagain := respondAll_again hvalid (by omega) (by simp) hrest
  simp at hagain
  omega

/-- A list of responses starts with empty ones. -/
theorem replicate_nil_or : ∀ bufs : List (List UInt8),
    bufs = List.replicate bufs.length [] ∨
      ∃ k buf rest, bufs = List.replicate k [] ++ buf :: rest ∧ buf ≠ []
  | [] => .inl rfl
  | [] :: bufs => by
    rcases replicate_nil_or bufs with h | ⟨k, buf, rest, h, hbuf⟩
    · exact .inl (by rw [List.length_cons, List.replicate_succ, ← h])
    · exact .inr ⟨k + 1, buf, rest, by rw [List.replicate_succ, List.cons_append, ← h], hbuf⟩
  | (x :: buf) :: bufs => .inr ⟨0, x :: buf, bufs, rfl, by simp⟩

/-- **When the responses are sent once.** From an empty buffer: all but the last response are
empty, and the last one finds room. -/
theorem sentOnce_iff (junk : Nat → UInt8) (b : Buffer) (bufs : List (List UInt8)) (hvalid : Valid b)
    (hempty : b.used = 0) :
    SentOnce junk b bufs ↔
      ∀ k buf rest, bufs = List.replicate k [] ++ buf :: rest → buf ≠ [] →
        rest = [] ∧ Fits (if b.size = 0 ∧ 0 < k then 128 else b.size) buf.length := by
  constructor
  · rintro honce k buf rest rfl hbuf
    obtain ⟨b', hvalid', hempty', hsize', heq⟩ := respondAll_replicate junk hvalid hempty k
    have hfits : Fits b'.size buf.length := by
      have hdone := honce (List.replicate k [] ++ [buf]) ⟨rest, by simp⟩
      rw [heq] at hdone
      exact fits_of_respondAll hvalid' hempty' hbuf (by simpa using hdone)
    refine ⟨?_, hsize' ▸ hfits⟩
    cases rest with
    | nil => rfl
    | cons next rest =>
      have hdone := honce (List.replicate k [] ++ [buf, next]) ⟨rest, by simp⟩
      rw [heq] at hdone
      exact absurd (by simpa using hdone) (respondAll_two hvalid' hempty' hbuf hfits next)
  · intro hcond done hdone
    -- the empty responses, and then at most one more
    rcases replicate_nil_or done with hnil | ⟨k, buf, rest, rfl, hbuf⟩
    · obtain ⟨b', -, -, -, heq⟩ := respondAll_replicate junk hvalid hempty done.length
      have hall := heq []
      rw [List.append_nil, ← hnil] at hall
      rw [hall, hnil]
      simp [respondAll]
    · obtain ⟨more, rfl⟩ := hdone
      obtain ⟨hrest, hfits⟩ := hcond k buf (rest ++ more) (by simp) hbuf
      obtain ⟨rfl, -⟩ := List.append_eq_nil_iff.mp hrest
      obtain ⟨b', hvalid', hempty', hsize', heq⟩ := respondAll_replicate junk hvalid hempty k
      rw [heq, respondAll_single hvalid' hempty' (hsize' ▸ hfits)]
      simp

/-- A new buffer. -/
theorem bufferNew_valid : Valid bufferNew := ⟨rfl, by decide, by decide, rfl⟩

/-- An empty response and one of three bytes are sent once. -/
theorem sentOnce_iff_login : SentOnce (fun _ => 0) bufferNew [[], [7, 8, 9]] := by
  refine (sentOnce_iff (fun _ => 0) bufferNew [[], [7, 8, 9]] bufferNew_valid rfl).mpr ?_
  intro k buf rest heq hbuf
  match k, heq with
  | 0, heq => exact absurd (List.cons.inj heq).1.symm hbuf
  | 1, heq =>
    obtain ⟨rfl, rfl⟩ := List.cons.inj (List.cons.inj heq).2
    exact ⟨rfl, .inl (by decide)⟩
  | k + 2, heq => simp [List.replicate_succ] at heq

/-- Two responses of one byte are three bytes on the wire. -/
theorem two_responses_sent_twice :
    ¬ ∀ (junk : Nat → UInt8) (bufs : List (List UInt8)),
      respondAll junk bufferNew bufs = some bufs.flatten := by
  intro h
  have htwo := h (fun _ => 0) [[1], [2]]
  have hsent : respondAll (fun _ => 0) bufferNew [[1], [2]] = some [1, 1, 2] := by decide +kernel
  rw [hsent] at htwo
  cases htwo

end Donkeyji.ServerMaps
