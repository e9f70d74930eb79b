/-
Donkeyji.Xy3.GrowthTheorems — when the doubling loop of `expandBuf` ends.

`expandBuf` doubles `_len` in an `int` until it is at least what is needed. The
`k`-th value of the loop is `_len * 2^(k+1)` as an `int` (`doubleLen_iff`), so the
loop ends exactly if one of these values is large enough, and from the 31st
doubling on they are not positive. Up to 2^30 bytes one always is
(`exists_double`); above, the doubling may pass 2^31 and end at 0, and the loop
goes on forever.
-/
import Donkeyji.Xy3.DataBufTheorems

namespace Donkeyji.Xy3.DataBuf

open Memory

/-! ## The doubling loop -/

theorem wrap32_double (x : Int) (k : Nat) :
    wrap32 (wrap32 (x * 2 ^ k) * 2) = wrap32 (x * 2 ^ (k + 1)) := by
  have hstep : x * 2 ^ (k + 1) = x * 2 ^ k * 2 := by ring
  rw [hstep]
  unfold wrap32
  omega

/-- The loop ends exactly if one of the values it looks at is large enough, and
with such a value. -/
theorem doubleLen_iff (x realNeed : Int) (n k : Nat) :
    (∃ r, doubleLen n (wrap32 (x * 2 ^ k)) realNeed = some r ∧ realNeed ≤ r) ↔
      ∃ j, j < n ∧ realNeed ≤ wrap32 (x * 2 ^ (k + j)) := by
  induction n generalizing k with
  | zero => simp [doubleLen]
  | succ n ih =>
    rw [doubleLen]
    by_cases hlt : wrap32 (x * 2 ^ k) < realNeed
    · rw [if_pos hlt, wrap32_double, ih]
      constructor
      · rintro ⟨j, hj, hle⟩
        exact ⟨j + 1, by omega, by rwa [Nat.add_assoc, Nat.add_comm 1 j] at hle⟩
      · rintro ⟨j, hj, hle⟩
        cases j with
        | zero => exact absurd hle (by rw [Nat.add_zero]; omega)
        | succ j => exact ⟨j, by omega, by rwa [Nat.add_assoc, Nat.add_comm 1 j]⟩
    · rw [if_neg hlt]
      exact iff_of_true ⟨_, rfl, by omega⟩ ⟨0, by omega, by rw [Nat.add_zero]; omega⟩

/-- From the 31st doubling on the values are 0 or the smallest `int`. -/
theorem wrap32_pow_nonpos (x : Int) {k : Nat} (hk : 31 ≤ k) : wrap32 (x * 2 ^ k) ≤ 0 := by
  obtain ⟨d, rfl⟩ := Nat.exists_eq_add_of_le hk
  have hsplit : x * 2 ^ (31 + d) = x * 2 ^ d * 2147483648 := by
    rw [pow_add]
    ring
  rw [hsplit]
  unfold wrap32
  omega

/-- A loop that ends at all ends within 33 tests. -/
theorem doubleLen_fuel {x realNeed r : Int} {n : Nat} (hpos : 0 < realNeed)
    (h : doubleLen n (wrap32 (x * 2)) realNeed = some r) :
    ∃ r', doubleLen 33 (wrap32 (x * 2)) realNeed = some r' := by
  have hloop := fun n => doubleLen_iff x realNeed n 1
  simp only [pow_one] at hloop
  obtain ⟨j, -, hj⟩ := (hloop n).mp ⟨r, h, le_of_doubleLen h⟩
  have hj33 : j < 33 := by
    by_contra hge
    have := wrap32_pow_nonpos x (show 31 ≤ 1 + j by omega)
    omega
  obtain ⟨r', hr', -⟩ := (hloop 33).mpr ⟨j, hj33, hj⟩
  exact ⟨r', hr'⟩

/-- Up to 2^30 one of the doubled lengths is large enough. -/
theorem exists_double {x realNeed : Int} (hx : 1 ≤ x) (hlt : x < realNeed)
    (hneed : realNeed ≤ 2 ^ 30) : ∃ k : Nat, realNeed ≤ wrap32 (x * 2 ^ (k + 1)) := by
  have hbig : ∃ k : Nat, realNeed ≤ x * 2 ^ k :=
    ⟨30, hneed.trans (le_mul_of_one_le_left (by positivity) hx)⟩
  -- the first doubling that suffices is below twice the need
  classical
  have hfirst := Nat.find_spec hbig
  cases hk : Nat.find hbig with
  | zero =>
    rw [hk, pow_zero] at hfirst
    omega
  | succ k =>
    have hbefore : ¬ realNeed ≤ x * 2 ^ k := Nat.find_min hbig (by omega)
    rw [hk] at hfirst
    refine ⟨k, ?_⟩
    have hdouble : x * 2 ^ (k + 1) = x * 2 ^ k * 2 := by ring
    rw [wrap32_of_bounds (by omega) (by omega)]
    exact hfirst

/-! ## expandBuf -/

/-- `expandBuf` returns, and there is a positive length and room for what is needed. -/
def Grows (junk : Nat → UInt8) (b : DataBuf) (need : Int) : Prop :=
  ∃ r b', b.expandBuf junk need = some (r, b') ∧ 0 < b'.len ∧
    (b.len + need ≤ b'.len ∨ need ≤ b'.left)

/-- Room once the live bytes are at the front, or a doubling that suffices. -/
theorem grows_of (junk : Nat → UInt8) {b : DataBuf} (hv : b.Valid) (hlen : 1 ≤ b.len)
    {need : Int} (hneed : 0 ≤ need) (hfits : b.len + need < 2147483648)
    (h : need ≤ b.len - (b.tail - b.head) ∨
      ∃ k : Nat, b.len + need ≤ wrap32 (b.len * 2 ^ (k + 1))) : b.Grows junk need := by
  obtain ⟨b1, hmove, hv1, hcontent, hhead, hlen1⟩ := moveHead_spec hv
  have hsize := length_content hv1
  rw [hcontent, length_content hv, hhead] at hsize
  have hleft := hv1.left_eq
  by_cases hroom : need ≤ b1.left
  · have hexp : b.expandBuf junk need = some (0, b1) := by
      simp only [expandBuf, hmove, Option.bind_eq_bind, Option.bind_some, if_pos hroom,
        Option.pure_def]
    exact ⟨0, b1, hexp, by omega, .inr hroom⟩
  · obtain hfree | ⟨k, hk⟩ := h
    · omega
    · have hk30 : k < 30 := by
        by_contra hge
        have := wrap32_pow_nonpos b.len (show 31 ≤ k + 1 by omega)
        omega
      have hloop := (doubleLen_iff b.len (b.len + need) 33 1).mpr
        ⟨k, by omega, by rwa [Nat.add_comm 1 k]⟩
      rw [pow_one, ← hlen1] at hloop
      obtain ⟨newLen, hnew, hle⟩ := hloop
      obtain ⟨b', hexp, hb'⟩ := expandBuf_full junk hmove hv1 (by omega) (by omega) hnew
      exact ⟨0, b', hexp, by omega, .inl (by omega)⟩

/-- **When `expandBuf` grows.** There is room once the live bytes are at the front, or one
of the doublings of `_len`, as an `int`, reaches the total. -/
theorem grows_iff (junk : Nat → UInt8) {b : DataBuf} (hv : b.Valid) (hlen : 1 ≤ b.len)
    {need : Int} (hneed : 0 ≤ need) (hfits : b.len + need < 2147483648) :
    b.Grows junk need ↔
      need ≤ b.len - (b.tail - b.head) ∨
        ∃ k : Nat, b.len + need ≤ wrap32 (b.len * 2 ^ (k + 1)) := by
  refine ⟨?_, grows_of junk hv hlen hneed hfits⟩
  rintro ⟨r, b', hexp, -⟩
  obtain ⟨b1, hmove, hv1, hcontent, hhead, hlen1⟩ := moveHead_spec hv
  have hsize := length_content hv1
  rw [hcontent, length_content hv, hhead] at hsize
  have hleft := hv1.left_eq
  by_cases hroom : need ≤ b1.left
  · exact .inl (by omega)
  · have hreal : wrap32 (b.len + need) = b.len + need := wrap32_of_bounds (by omega) (by omega)
    simp only [expandBuf, hmove, Option.bind_eq_bind, Option.bind_some, if_neg hroom,
      Option.bind_eq_some_iff, hlen1, hreal] at hexp
    obtain ⟨newLen, hnew, -⟩ := hexp
    have hloop := (doubleLen_iff b.len (b.len + need) 33 1).mp
    rw [pow_one] at hloop
    obtain ⟨j, -, hj⟩ := hloop ⟨newLen, hnew, le_of_doubleLen hnew⟩
    exact .inr ⟨j, by rwa [Nat.add_comm 1 j] at hj⟩

/-- Eight bytes grow for twenty more. -/
theorem grows_iff_eight : Grows (fun _ => 0) ⟨List.replicate 8 0, 8, 0, 0, 8⟩ 20 :=
  (grows_iff (fun _ => 0) ⟨rfl, by decide, by decide, by decide, rfl, by decide⟩ (by decide)
    (by decide) (by decide)).mpr (.inr ⟨1, by decide⟩)

/-- **The loop goes on forever.** One byte is to grow by 2^30: the `int` goes from 2^30 over
-2^31 to 0. -/
theorem doubling_never_ends :
    ¬ ∀ (b : DataBuf) (need : Int), b.Valid → 1 ≤ b.len → 0 ≤ need →
      b.len + need < 2147483648 → Grows (fun _ => 0) b need := by
  intro h
  have hvalid : Valid ⟨[0], 1, 0, 0, 1⟩ :=
    ⟨rfl, by decide, by decide, by decide, rfl, by decide⟩
  obtain ⟨r, b', hexp, -⟩ := h ⟨[0], 1, 0, 0, 1⟩ 1073741824 hvalid (by decide) (by decide)
    (by decide)
  have hnone : expandBuf (fun _ => 0) ⟨[0], 1, 0, 0, 1⟩ 1073741824 = none := by decide +kernel
  rw [hnone] at hexp
  cases hexp

/-! ## appendRawData -/

/-- A chunk is appended if it does not take the block past 2^30 bytes. -/
theorem appendRawData_returns (junk : Nat → UInt8) {b : DataBuf} {bytes : List UInt8}
    (hv : b.Valid) (hlen : 1 ≤ b.len) (hfits : b.len + bytes.length ≤ 2 ^ 30) :
    ∃ b', b.appendRawData junk bytes = some (0, b') ∧ 1 ≤ b'.len := by
  have hgrows : b.Grows junk bytes.length := by
    refine grows_of junk hv hlen (by omega) (by omega) ?_
    by_cases hempty : (bytes.length : Int) = 0
    · have := hv.head_nonneg
      have := hv.tail_le
      exact .inl (by omega)
    · exact .inr (exists_double hlen (by omega) hfits)
  obtain ⟨r, b1, hexp, hpos, hroom⟩ := hgrows
  obtain ⟨hv1, hcontent, hhead⟩ := expandBuf_content hv hexp
  have hsize := length_content hv1
  have hold := length_content hv
  rw [hcontent] at hsize
  have hleft := hv1.left_eq
  have htail := hv.tail_le
  have hnonneg := hv.head_nonneg
  obtain ⟨b', hb', hlen'⟩ := appendRawData_of_expand hv hexp (by omega)
  exact ⟨b', hb', by omega⟩

end Donkeyji.Xy3.DataBuf
