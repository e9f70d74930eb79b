/-
Donkeyji.Xy3.DataBufTheorems — what each `DataBuf` operation does to the
queued bytes.

`Valid` is the representation invariant (head, tail and left agree with the
block), `content` the queue a valid buffer represents. Each operation gets
one lemma that says what it does to the content; the modules above cite
these and never unfold an operation.

`appendRawData` can fail to have a result, when the buffer would have to
grow past what an `int` can count. `appendRawData_content` covers every call
that returns, `appendRawData_ok` says which calls do.
-/
import Donkeyji.Xy3.DataBuf

namespace Donkeyji.Xy3.DataBuf

open Memory

/-! ## The invariant and the queue it represents -/

/-- The three counters of a buffer agree with its block. -/
structure Valid (b : DataBuf) : Prop where
  len_eq : b.len = b.data.length
  head_nonneg : 0 ≤ b.head
  head_le : b.head ≤ b.tail
  tail_le : b.tail ≤ b.len
  left_eq : b.left = b.len - b.tail
  len_lt : b.len < 2147483648

/-- The bytes between head and tail. -/
def content (b : DataBuf) : List UInt8 := slice b.data b.head.toNat (b.tail - b.head).toNat

theorem length_content {b : DataBuf} (hv : b.Valid) :
    (b.content.length : Int) = b.tail - b.head := by
  obtain ⟨h1, h2, h3, h4, h5, h6⟩ := hv
  rw [content, length_slice (by omega)]
  omega

theorem wrap32_size {b : DataBuf} (hv : b.Valid) :
    wrap32 (b.tail - b.head) = b.content.length := by
  rw [length_content hv]
  obtain ⟨h1, h2, h3, h4, h5, h6⟩ := hv
  exact wrap32_of_bounds (by omega) (by omega)

/-- A read between head and tail reads the content. -/
theorem readAt_live {b : DataBuf} (hv : b.Valid) {a n : Nat} (h : a + n ≤ b.content.length) :
    readAt b.data (b.head + a) n = some (slice b.content a n) := by
  have hl := length_content hv
  obtain ⟨h1, h2, h3, h4, h5, h6⟩ := hv
  have hoff : (b.head + (a : Int)).toNat = b.head.toNat + a := by omega
  rw [readAt_some (by omega) (by omega) (by omega), hoff, Int.toNat_natCast, Option.some.injEq,
    content]
  simp only [slice, List.drop_take, List.drop_drop, List.take_take]
  rw [Nat.min_eq_left (by omega)]

theorem new_ok (junk : Nat → UInt8) {len : Int} (hlen : 0 ≤ len) : ∃ b, new junk len = some b := by
  simp [new, fresh, Int.not_lt.mpr hlen]

/-- A fresh buffer is valid and empty. -/
theorem new_spec {junk : Nat → UInt8} {len : Int} {b : DataBuf} (hlen : len < 2147483648)
    (h : new junk len = some b) : b.Valid ∧ b.content = [] ∧ b.len = len := by
  unfold new fresh at h
  split at h
  · cases h
  · simp only [Option.bind_eq_bind, Option.bind_some, Option.pure_def, Option.some.injEq] at h
    subst h
    refine ⟨⟨?_, ?_, ?_, ?_, ?_, ?_⟩, ?_, rfl⟩ <;> simp [content, slice] <;> omega

/-! ## moveHead and cutData -/

/-- `moveHead` keeps the content. -/
theorem moveHead_spec {b : DataBuf} (hv : b.Valid) :
    ∃ b', b.moveHead = some b' ∧ b'.Valid ∧ b'.content = b.content ∧ b'.head = 0 ∧
      b'.len = b.len := by
  have hl := length_content hv
  have hsize := wrap32_size hv
  have hread : readAt b.data b.head (b.content.length : Int) = some b.content := by
    have := readAt_live hv (show 0 + b.content.length ≤ b.content.length by omega)
    simpa [slice] using this
  obtain ⟨h1, h2, h3, h4, h5, h6⟩ := hv
  obtain ⟨data, hdata⟩ : ∃ data, writeAt b.data 0 b.content = some data :=
    ⟨_, writeAt_some (by omega) (by omega)⟩
  have hdl := length_writeAt hdata
  have hself := slice_writeAt_self hdata
  have hleft : wrap32 (b.left + b.head) = b.left + b.head :=
    wrap32_of_bounds (by omega) (by omega)
  refine ⟨{ b with data, tail := b.content.length, left := b.left + b.head, head := 0 }, ?_, ?_, ?_,
    rfl, rfl⟩
  · simp [moveHead, hsize, hread, hdata, hleft]
  · constructor <;> simp only <;> omega
  · simpa [content] using hself

/-- Cutting `n` queued bytes removes them from the front. -/
theorem cutData_spec {b : DataBuf} (hv : b.Valid) {n : Nat} (h : n ≤ b.content.length) :
    ∃ b', b.cutData n = (0, b') ∧ b'.Valid ∧ b'.content = b.content.drop n ∧ b'.len = b.len := by
  have hl := length_content hv
  have hsize := wrap32_size hv
  obtain ⟨h1, h2, h3, h4, h5, h6⟩ := hv
  have hhead : wrap32 (b.head + n) = b.head + n := wrap32_of_bounds (by omega) (by omega)
  refine ⟨{ b with head := b.head + n }, ?_, ?_, ?_, rfl⟩
  · simp only [cutData, hsize, hhead]
    rw [if_neg (by omega)]
  · constructor <;> simp only <;> omega
  · have hoff : (b.head + (n : Int)).toNat = b.head.toNat + n := by omega
    have hcnt : (b.tail - (b.head + (n : Int))).toNat = (b.tail - b.head).toNat - n := by omega
    simp only [content, hoff, hcnt, drop_slice]

/-- Cutting more than is queued changes nothing. -/
theorem cutData_over {b : DataBuf} (hv : b.Valid) {n : Int} (h : b.content.length < n) :
    b.cutData n = (-1, b) := by
  simp only [cutData, wrap32_size hv]
  rw [if_pos (by omega)]

/-! ## appendRawData -/

/-- The doubling loop ends on an `int`. -/
theorem doubleLen_bounds {n : Nat} {newLen realNeed r : Int}
    (h : doubleLen n (wrap32 newLen) realNeed = some r) : r < 2147483648 := by
  induction n generalizing newLen with
  | zero => simp [doubleLen] at h
  | succ n ih =>
    rw [doubleLen] at h
    split at h
    · exact ih h
    · have := (wrap32_bounds newLen).2
      simp only [Option.some.injEq] at h
      omega

/-- Every value the loop ends with is large enough. -/
theorem le_of_doubleLen {n : Nat} {newLen realNeed r : Int}
    (h : doubleLen n newLen realNeed = some r) : realNeed ≤ r := by
  induction n generalizing newLen with
  | zero => cases h
  | succ n ih =>
    rw [doubleLen] at h
    split at h
    · exact ih h
    · cases h
      omega

/-- `expandBuf` on a buffer that has no room: the loop decides. -/
theorem expandBuf_full (junk : Nat → UInt8) {b b1 : DataBuf} {need newLen : Int}
    (hmove : b.moveHead = some b1) (hv : b1.Valid) (hroom : b1.left < need)
    (hneed : b1.len + need < 2147483648)
    (hloop : doubleLen 33 (wrap32 (b1.len * 2)) (b1.len + need) = some newLen) :
    ∃ b', b.expandBuf junk need = some (0, b') ∧ b'.len = newLen := by
  have hle := le_of_doubleLen hloop
  have hlt := doubleLen_bounds hloop
  obtain ⟨h1, h2, h3, h4, h5, h6⟩ := hv
  have hreal : wrap32 (b1.len + need) = b1.len + need := wrap32_of_bounds (by omega) (by omega)
  obtain ⟨newData, hfresh, hnew⟩ : ∃ newData, fresh junk newLen = some newData ∧
      (newData.length : Int) = newLen := by
    refine ⟨(List.range newLen.toNat).map junk, ?_, ?_⟩
    · rw [fresh, if_neg (by omega)]
    · rw [List.length_map, List.length_range]
      omega
  have hold : readAt b1.data 0 b1.len = some (slice b1.data 0 b1.len.toNat) :=
    readAt_some (by omega) (by omega) (by omega)
  have hlen : (slice b1.data 0 b1.len.toNat).length = b1.len.toNat := length_slice (by omega)
  obtain ⟨data, hdata⟩ : ∃ data, writeAt newData 0 (slice b1.data 0 b1.len.toNat) = some data :=
    ⟨_, writeAt_some (by omega) (by omega)⟩
  refine ⟨{ b1 with data, len := newLen, left := wrap32 (newLen - b1.tail) }, ?_, rfl⟩
  simp only [expandBuf, hmove, Option.bind_eq_bind, Option.bind_some, hreal, hloop, hfresh, hold,
    hdata, Option.pure_def]
  rw [if_neg (by omega)]

/-- Growing keeps the content, and moves it to the front. -/
theorem expandBuf_content {junk : Nat → UInt8} {b b' : DataBuf} {need r : Int} (hv : b.Valid)
    (h : b.expandBuf junk need = some (r, b')) :
    b'.Valid ∧ b'.content = b.content ∧ b'.head = 0 := by
  obtain ⟨b1, hb1, hv1, hc1, hh1, hl1⟩ := moveHead_spec hv
  simp only [expandBuf, hb1, Option.bind_eq_bind, Option.bind_some] at h
  split at h
  · simp only [Option.pure_def, Option.some.injEq, Prod.mk.injEq] at h
    obtain ⟨-, rfl⟩ := h
    exact ⟨hv1, hc1, hh1⟩
  · simp only [Option.bind_eq_some_iff, Option.pure_def, Option.some.injEq, Prod.mk.injEq] at h
    obtain ⟨newLen, hnew, newData, hfresh, old, hold, data, hdata, -, rfl⟩ := h
    have hlt := doubleLen_bounds hnew
    have hdl := length_writeAt hdata
    have hbd := writeAt_bounds hdata
    obtain ⟨-, -, -, rfl⟩ := readAt_eq_some.mp hold
    have hself := slice_writeAt_self hdata
    obtain ⟨h1, h2, h3, h4, h5, h6⟩ := hv1
    have hold_len : (slice b1.data (Int.toNat 0) b1.len.toNat).length = b1.len.toNat :=
      length_slice (by omega)
    have hfl : newLen = newData.length := by
      unfold fresh at hfresh
      split at hfresh
      · cases hfresh
      · simp only [Option.some.injEq] at hfresh
        subst hfresh
        simp; omega
    rw [hold_len] at hbd hself
    have hleft : wrap32 (newLen - b1.tail) = newLen - b1.tail :=
      wrap32_of_bounds (by omega) (by omega)
    refine ⟨?_, ?_, hh1⟩
    · constructor <;> simp only [hleft] <;> omega
    · rw [← hc1]
      simp only [content, hh1, Int.toNat_zero]
      -- the old block is the front of the new one, and the content lies inside it
      have htail : (b1.tail - 0).toNat ≤ b1.len.toNat := by omega
      rw [← take_slice htail, ← @take_slice b1.data _ _ _ htail]
      simp only [Int.toNat_zero] at hself
      rw [hself]

/-- Whenever `appendRawData` returns, the chunk is at the end of the queue. -/
theorem appendRawData_content {junk : Nat → UInt8} {b b' : DataBuf} {bytes : List UInt8} {r : Int}
    (hv : b.Valid) (h : b.appendRawData junk bytes = some (r, b')) :
    b'.Valid ∧ b'.content = b.content ++ bytes := by
  simp only [appendRawData, Option.bind_eq_bind, Option.bind_eq_some_iff, Option.pure_def,
    Option.some.injEq, Prod.mk.injEq, Prod.exists] at h
  obtain ⟨_, b1, hexp, data, hdata, -, rfl⟩ := h
  obtain ⟨hv1, hc1, hh1⟩ := expandBuf_content hv hexp
  have hdl := length_writeAt hdata
  have hbd := writeAt_bounds hdata
  have hself := slice_writeAt_self hdata
  have hbefore := slice_writeAt_before (a := 0) (n := b1.tail.toNat) hdata (by omega)
  obtain ⟨h1, h2, h3, h4, h5, h6⟩ := hv1
  have htail : wrap32 (b1.tail + bytes.length) = b1.tail + bytes.length :=
    wrap32_of_bounds (by omega) (by omega)
  have hleft : wrap32 (b1.left - bytes.length) = b1.left - bytes.length :=
    wrap32_of_bounds (by omega) (by omega)
  refine ⟨?_, ?_⟩
  · constructor <;> simp only [htail, hleft] <;> omega
  · have hcnt : (b1.tail + (bytes.length : Int)).toNat = b1.tail.toNat + bytes.length := by
      omega
    have hjoin := slice_append data 0 b1.tail.toNat bytes.length
    rw [hbefore, Nat.zero_add, hself] at hjoin
    rw [← hc1]
    simp only [content, hh1, htail, Int.toNat_zero, Int.sub_zero, hcnt]
    exact hjoin.symm

/-- A chunk is appended where `expandBuf` leaves room for it. -/
theorem appendRawData_of_expand {junk : Nat → UInt8} {b b1 : DataBuf} {bytes : List UInt8}
    {r : Int} (hv : b.Valid) (hexp : b.expandBuf junk bytes.length = some (r, b1))
    (hroom : bytes.length ≤ b1.left) :
    ∃ b', b.appendRawData junk bytes = some (0, b') ∧ b'.len = b1.len := by
  obtain ⟨h1, h2, h3, h4, h5, h6⟩ := (expandBuf_content hv hexp).1
  obtain ⟨data, hdata⟩ : ∃ data, writeAt b1.data b1.tail bytes = some data :=
    ⟨_, writeAt_some (by omega) (by omega)⟩
  refine ⟨{ b1 with
    data, tail := wrap32 (b1.tail + bytes.length), left := wrap32 (b1.left - bytes.length) },
    ?_, rfl⟩
  simp only [appendRawData, hexp, hdata, Option.bind_eq_bind, Option.bind_some, Option.pure_def]

/-- The block sizes reached from the default 1024 by doubling. -/
def Pow2Len (b : DataBuf) : Prop := ∃ j : Nat, j ≤ 30 ∧ b.len = 2 ^ j

/-- From a power of two the doubling loop finds the next one that suffices. -/
theorem doubleLen_ok {realNeed : Int} (hneed : realNeed ≤ 2 ^ 30) (n j : Nat) (hj : j ≤ 30)
    (hn : 30 - j < n) :
    ∃ i : Nat, i ≤ 30 ∧ doubleLen n (2 ^ j) realNeed = some (2 ^ i) ∧ realNeed ≤ 2 ^ i ∧
      j ≤ i := by
  induction n generalizing j with
  | zero => omega
  | succ n ih =>
    rw [doubleLen]
    split
    · rename_i hlt
      have hj30 : j < 30 := by
        rcases Nat.lt_or_ge j 30 with h | h
        · exact h
        · have : j = 30 := by omega
          subst this; omega
      have hstep : wrap32 ((2 : Int) ^ j * 2) = 2 ^ (j + 1) := by
        have hle : (2 : Int) ^ (j + 1) ≤ 2 ^ 30 := pow_le_pow_right₀ (by omega) (by omega)
        have hpos : (0 : Int) < 2 ^ (j + 1) := by positivity
        rw [← pow_succ]
        exact wrap32_of_bounds (by omega) (by omega)
      rw [hstep]
      obtain ⟨i, hi, he, hle, hji⟩ := ih (j + 1) (by omega) (by omega)
      exact ⟨i, hi, he, hle, by omega⟩
    · exact ⟨j, hj, rfl, by omega, Nat.le_refl j⟩

/-- A chunk of at most 512 MiB always finds room behind a short queue. -/
theorem appendRawData_ok (junk : Nat → UInt8) {b : DataBuf} {bytes : List UInt8} (hv : b.Valid)
    (hp : b.Pow2Len) (hc : b.content.length ≤ 32768) (hb : bytes.length ≤ 2 ^ 29) :
    ∃ b', b.appendRawData junk bytes = some (0, b') ∧ b'.Pow2Len := by
  obtain ⟨b1, hmove, hv1, hcontent, hhead, hlen1⟩ := moveHead_spec hv
  have hsize := length_content hv1
  rw [hcontent] at hsize
  have hleft := hv1.left_eq
  obtain ⟨j, hj, hlen⟩ := hp
  by_cases hroom : (bytes.length : Int) ≤ b1.left
  · have hexp : b.expandBuf junk bytes.length = some (0, b1) := by
      simp only [expandBuf, hmove, Option.bind_eq_bind, Option.bind_some, if_pos hroom,
        Option.pure_def]
    obtain ⟨b', hb', hlen'⟩ := appendRawData_of_expand hv hexp hroom
    exact ⟨b', hb', j, hj, by omega⟩
  · have hpow : (2 : Int) ^ 29 = 536870912 := by norm_num
    have hj29 : j ≤ 29 := by
      by_contra hlt
      obtain rfl : j = 30 := by omega
      omega
    have hle29 : (2 : Int) ^ j ≤ 2 ^ 29 := pow_le_pow_right₀ (by omega) hj29
    have hdouble : wrap32 (b1.len * 2) = 2 ^ (j + 1) := by
      rw [hlen1, hlen, ← pow_succ]
      have hpos : (0 : Int) < 2 ^ (j + 1) := by positivity
      have hle : (2 : Int) ^ (j + 1) ≤ 2 ^ 30 := pow_le_pow_right₀ (by omega) (by omega)
      exact wrap32_of_bounds (by omega) (by omega)
    have hfits : b1.len + bytes.length ≤ 2 ^ 30 := by omega
    obtain ⟨i, hi, hloop, hle, -⟩ := doubleLen_ok hfits 33 (j + 1) (by omega) (by omega)
    rw [← hdouble] at hloop
    obtain ⟨b2, hexp, hlen2⟩ := expandBuf_full junk hmove hv1 (by omega) (by omega) hloop
    obtain ⟨hv2, hcontent2, hhead2⟩ := expandBuf_content hv hexp
    have hsize2 := length_content hv2
    rw [hcontent2] at hsize2
    have hleft2 := hv2.left_eq
    have htail := hv1.tail_le
    obtain ⟨b', hb', hlen'⟩ := appendRawData_of_expand hv hexp (by omega)
    exact ⟨b', hb', i, hi, by omega⟩

/-! ## appendPack -/

/-- Positions behind a header that is written at the tail. -/
theorem toNat_tail {head tail : Int} (hhead : 0 ≤ head) (hle : head ≤ tail) (n : Nat) :
    (tail + 2 + (n : Int) - head).toNat = (tail - head).toNat + (2 + n) ∧
      head.toNat + (tail - head).toNat = tail.toNat ∧ (tail + 2).toNat = tail.toNat + 2 := by
  omega

/-- What `appendPack` does once it has made room, if it had to. -/
theorem appendPack_eq (b : DataBuf) (p : List UInt8) :
    b.appendPack p = (if wrap16 (p.length + 2) > b.left then b.moveHead else some b).bind fun b1 =>
      if wrap16 (p.length + 2) > b1.left then some (-1, b1) else
        (writeAt b1.data b1.tail (leBytes 2 p.length)).bind fun data =>
          (writeAt data (wrap32 (b1.tail + 2)) p).bind fun data =>
            some (0, { b1 with
              data, tail := wrap32 (wrap32 (b1.tail + 2) + p.length)
              left := wrap32 (wrap32 (b1.left - 2) - p.length) }) :=
  rfl

/-- The buffer after `appendPack` has moved its bytes to the front, or not. -/
theorem moveHead_ite {b : DataBuf} (hv : b.Valid) (c : Prop) [Decidable c] :
    ∃ b1, (if c then b.moveHead else some b) = some b1 ∧ b1.Valid ∧ b1.content = b.content ∧
      b1.len = b.len ∧ (c → b1.head = 0) ∧ (¬ c → b1 = b) := by
  by_cases hc : c
  · obtain ⟨b1, hmove, hv1, hcontent, hhead, hlen⟩ := moveHead_spec hv
    exact ⟨b1, by rw [if_pos hc, hmove], hv1, hcontent, hlen, fun _ => hhead, fun hno => absurd hc hno⟩
  · exact ⟨b, if_neg hc, hv, rfl, rfl, fun hyes => absurd hyes hc, fun _ => rfl⟩

/-- Header and payload are written inside the block, if they fit. -/
theorem appendPack_writes {b : DataBuf} (hv : b.Valid) {p : List UInt8}
    (hfits : p.length + 2 ≤ b.left) :
    ∃ d1 d2, writeAt b.data b.tail (leBytes 2 p.length) = some d1 ∧
      writeAt d1 (wrap32 (b.tail + 2)) p = some d2 := by
  obtain ⟨h1, h2, h3, h4, h5, h6⟩ := hv
  have htail : wrap32 (b.tail + 2) = b.tail + 2 := wrap32_of_bounds (by omega) (by omega)
  obtain ⟨d1, hd1⟩ : ∃ d1, writeAt b.data b.tail (leBytes 2 p.length) = some d1 :=
    ⟨_, writeAt_some (by omega) (by rw [length_leBytes]; omega)⟩
  have hlen := length_writeAt hd1
  rw [htail]
  exact ⟨d1, _, hd1, writeAt_some (by omega) (by omega)⟩

/-- An accepted payload is queued as its two-byte length and its bytes; a
rejected one leaves the queue as it was. -/
theorem appendPack_content {b b' : DataBuf} {p : List UInt8} {r : Int} (hv : b.Valid)
    (h : b.appendPack p = some (r, b')) :
    b'.Valid ∧ ((r = 0 ∧ b'.content = b.content ++ (leBytes 2 p.length ++ p)) ∨
      (r ≠ 0 ∧ b'.content = b.content)) := by
  obtain ⟨b1, hb1, hv1, hc1, -⟩ := moveHead_ite hv (wrap16 (p.length + 2) > b.left)
  rw [appendPack_eq, hb1, Option.bind_some] at h
  by_cases hroom : wrap16 (p.length + 2) > b1.left
  · rw [if_pos hroom] at h
    cases h
    exact ⟨hv1, Or.inr ⟨by decide, hc1⟩⟩
  · rw [if_neg hroom] at h
    simp only [Option.bind_eq_some_iff, Option.some.injEq, Prod.mk.injEq] at h
    obtain ⟨d1, hd1, d2, hd2, rfl, rfl⟩ := h
    have hl1 := length_writeAt hd1
    have hl2 := length_writeAt hd2
    have hb1' := writeAt_bounds hd1
    have hb2' := writeAt_bounds hd2
    have hself1 := slice_writeAt_self hd1
    have hself2 := slice_writeAt_self hd2
    have hlen := length_content hv1
    obtain ⟨h1, h2, h3, h4, h5, h6⟩ := hv1
    rw [length_leBytes] at hb1' hself1
    have htail : wrap32 (b1.tail + 2) = b1.tail + 2 := wrap32_of_bounds (by omega) (by omega)
    rw [htail] at hb2' hself2 hd2
    have htail2 : wrap32 (b1.tail + 2 + p.length) = b1.tail + 2 + p.length :=
      wrap32_of_bounds (by omega) (by omega)
    have hleft : wrap32 (b1.left - 2) = b1.left - 2 := wrap32_of_bounds (by omega) (by omega)
    have hleft2 : wrap32 (b1.left - 2 - p.length) = b1.left - 2 - p.length :=
      wrap32_of_bounds (by omega) (by omega)
    refine ⟨?_, Or.inl ⟨rfl, ?_⟩⟩
    · constructor <;> simp only [htail, htail2, hleft, hleft2] <;> omega
    · obtain ⟨hcnt, hoff, hoff2⟩ := toNat_tail h2 h3 p.length
      have hA := slice_writeAt_before (a := b1.head.toNat) (n := (b1.tail - b1.head).toNat) hd2
        (by omega)
      rw [slice_writeAt_before hd1 (by omega)] at hA
      have hB := slice_writeAt_before (a := b1.tail.toNat) (n := 2) hd2 (by omega)
      rw [hself1] at hB
      rw [hoff2] at hself2
      rw [← hc1]
      simp only [content, htail, htail2, hcnt]
      rw [← slice_append, hoff, ← slice_append, hA, hB, hself2]

end Donkeyji.Xy3.DataBuf

/-! ## Headers -/

namespace Donkeyji.Xy3

open Memory

/-- `getPack` takes the pack at the front of the bytes as complete. -/
def PackSeen (bytes : List UInt8) : Prop :=
  2 ≤ bytes.length ∧ toU64 (schar (bytes.headD 0) + 2) ≤ toU64 bytes.length

instance (bytes : List UInt8) : Decidable (PackSeen bytes) := by
  unfold PackSeen
  infer_instance

/-- The size in the header at the front of the bytes, a `short`. -/
def packSize (bytes : List UInt8) : Int := wrap16 (leNat (bytes.take 2))

namespace DataBuf

/-- `getPack` on any content. -/
theorem getPack_content {b : DataBuf} (hv : b.Valid) :
    b.getPack = some (if PackSeen b.content then some (packSize b.content, b.head + 2) else none) := by
  have hlen := length_content hv
  have hbig := hv.len_lt
  have hhead := hv.head_nonneg
  have htail := hv.tail_le
  have hvalid : toU64 (b.content.length : Int) = b.content.length :=
    toU64_of_bounds (by omega) (by omega)
  unfold getPack packSize
  rw [wrap32_size hv]
  by_cases h2 : 2 ≤ b.content.length
  · have hfirst := readAt_live hv (a := 0) (n := 1) (by omega)
    have hheader := readAt_live hv (a := 0) (n := 2) (by omega)
    simp only [Nat.cast_zero, Int.add_zero, Nat.cast_one, Nat.cast_ofNat, slice,
      List.drop_zero] at hfirst hheader
    have hone : b.content.take 1 = [b.content.headD 0] := by
      cases hc : b.content with
      | nil =>
        rw [hc] at h2
        cases h2
      | cons x xs => rfl
    rw [if_neg (by omega), hfirst, hheader, hone]
    simp only [List.map_cons, List.map_nil, List.sum_cons, List.sum_nil, Int.add_zero,
      Option.bind_eq_bind, Option.bind_some, Option.pure_def]
    by_cases hseen : toU64 (schar (b.content.headD 0) + 2) ≤ toU64 b.content.length
    · rw [if_neg (by omega), if_pos (show PackSeen b.content from ⟨h2, hseen⟩)]
    · rw [if_pos (by omega), if_neg (fun h : PackSeen b.content => hseen h.2)]
  · rw [if_pos (by omega), if_neg (fun h : PackSeen b.content => h2 h.1)]
    rfl

/-- `doRecv` on a complete pack. -/
theorem doRecv_pack {b : DataBuf} (hv : b.Valid) {n : Nat} (hseen : PackSeen b.content)
    (hsize : packSize b.content = n) (hfull : n + 2 ≤ b.content.length) :
    ∃ b', b.doRecv = some (some (slice b.content 2 n), b') ∧ b'.Valid ∧
      b'.content = b.content.drop (n + 2) ∧ b'.len = b.len := by
  have hshort : (n : Int) < 32768 := by
    rw [← hsize]
    unfold packSize wrap16
    omega
  obtain ⟨b', hcut, hv', hcontent, hlen⟩ := cutData_spec hv hfull
  have hbody := readAt_live hv (a := 2) (n := n) (by omega)
  have hwrap : wrap32 ((n : Int) + 2) = ((n + 2 : Nat) : Int) := by
    rw [wrap32_of_bounds (by omega) (by omega)]
    omega
  refine ⟨b', ?_, hv', hcontent, hlen⟩
  rw [Nat.cast_ofNat] at hbody
  simp only [doRecv, getPack_content hv, if_pos hseen, hsize, hbody, hwrap, hcut,
    Option.bind_eq_bind, Option.bind_some, Option.pure_def]

/-- `doRecv` where `getPack` sees no pack. -/
theorem doRecv_unseen {b : DataBuf} (hv : b.Valid) (hseen : ¬ PackSeen b.content) :
    b.doRecv = some (none, b) := by
  simp only [doRecv, getPack_content hv, if_neg hseen, Option.bind_eq_bind, Option.bind_some,
    Option.pure_def]

end DataBuf

end Donkeyji.Xy3
