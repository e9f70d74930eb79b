/-
Donkeyji.Lib.Memory — bytes, machine integers and byte memory as a C
program sees them.

Three small tools that any model of a C routine over raw buffers needs:

* `leBytes` / `leNat` — the little-endian spelling of a number in a fixed
  number of bytes, and its reading. `leNat_leBytes` is the round trip, up
  to the width.
* `wrap16` / `wrap32` / `toU64` — the values a `short`, an `int` and a
  `size_t` hold after a conversion or an overflowing operation.
* `readAt` / `writeAt` — `memcpy` out of and into a block of known size.
  An access that leaves the block has no result (`none`), so a model that
  computes in `Option` cannot read or write past its buffers silently.

`slice` is the list a successful `readAt` returns; the frame lemmas
`slice_writeAt_*` say which slices a write leaves alone.
-/
import Mathlib.Tactic

namespace Memory

/-! ## Little-endian numbers -/

/-- The `w` low bytes of `n`, least significant first. -/
def leBytes : Nat → Nat → List UInt8
  | 0, _ => []
  | w + 1, n => UInt8.ofNat n :: leBytes w (n / 256)

/-- The number a little-endian byte string spells. -/
def leNat : List UInt8 → Nat
  | [] => 0
  | b :: bs => b.toNat + 256 * leNat bs

@[simp] theorem length_leBytes (w n : Nat) : (leBytes w n).length = w := by
  induction w generalizing n with
  | zero => rfl
  | succ w ih => simp [leBytes, ih]

/-- Reading back `w` bytes of `n` gives `n` modulo the width. -/
theorem leNat_leBytes (w n : Nat) : leNat (leBytes w n) = n % 256 ^ w := by
  induction w generalizing n with
  | zero => simp [leBytes, leNat, Nat.mod_one]
  | succ w ih =>
    have hbyte : (UInt8.ofNat n).toNat = n % 256 := by simp
    rw [leBytes, leNat, ih, hbyte, Nat.pow_succ', Nat.mod_mul]

/-- A number that fits its width survives the round trip. -/
theorem leNat_leBytes_of_lt {w n : Nat} (h : n < 256 ^ w) : leNat (leBytes w n) = n := by
  rw [leNat_leBytes, Nat.mod_eq_of_lt h]

theorem leNat_lt (bs : List UInt8) : leNat bs < 256 ^ bs.length := by
  induction bs with
  | nil => simp [leNat]
  | cons b bs ih =>
    have hb : b.toNat < 256 := b.toNat_lt
    simp only [leNat, List.length_cons, Nat.pow_succ']
    omega

/-- A byte string is the spelling of its number. -/
theorem leBytes_leNat (bs : List UInt8) : leBytes bs.length (leNat bs) = bs := by
  induction bs with
  | nil => rfl
  | cons b bs ih =>
    have hb : b.toNat < 256 := b.toNat_lt
    have hlow : UInt8.ofNat (b.toNat + 256 * leNat bs) = b := by
      apply UInt8.toNat_inj.mp
      rw [UInt8.toNat_ofNat', Nat.add_mul_mod_self_left, Nat.mod_eq_of_lt hb]
    have hhigh : (b.toNat + 256 * leNat bs) / 256 = leNat bs := by omega
    rw [List.length_cons, leNat, leBytes, hlow, hhigh, ih]

/-! ## Machine integers -/

/-- The value of a 16-bit signed integer after a conversion to it. -/
def wrap16 (x : Int) : Int := (x + 32768) % 65536 - 32768

/-- The value of a 32-bit signed integer after an operation that may overflow
(two's complement). -/
def wrap32 (x : Int) : Int := (x + 2147483648) % 4294967296 - 2147483648

/-- The value of a 64-bit unsigned integer after a conversion to it. -/
def toU64 (x : Int) : Int := x % 18446744073709551616

/-- The value of a signed 8-bit `char`. -/
def schar (b : UInt8) : Int := if b.toNat < 128 then b.toNat else (b.toNat : Int) - 256

theorem wrap16_of_bounds {x : Int} (h1 : -32768 ≤ x) (h2 : x < 32768) : wrap16 x = x := by
  unfold wrap16; omega

theorem wrap32_of_bounds {x : Int} (h1 : -2147483648 ≤ x) (h2 : x < 2147483648) :
    wrap32 x = x := by
  unfold wrap32; omega

/-- One more than a length, computed in an `int`. -/
theorem wrap32_succ {n : Nat} (h : (n : Int) + 1 < 2147483648) : wrap32 (wrap32 n + 1) = n + 1 := by
  rw [wrap32_of_bounds (x := (n : Int)) (by omega) (by omega), wrap32_of_bounds (by omega) h]

theorem toU64_of_bounds {x : Int} (h1 : 0 ≤ x) (h2 : x < 18446744073709551616) :
    toU64 x = x := by
  unfold toU64; omega

theorem wrap32_bounds (x : Int) : -2147483648 ≤ wrap32 x ∧ wrap32 x < 2147483648 := by
  unfold wrap32; omega

/-! ## Blocks of memory -/

/-- The `n` bytes of a block that start at `off`. -/
def slice (mem : List UInt8) (off n : Nat) : List UInt8 := (mem.drop off).take n

/-- `memcpy` out of a block: the bytes read, when they all lie in the block. -/
def readAt (mem : List UInt8) (off n : Int) : Option (List UInt8) :=
  if 0 ≤ off ∧ 0 ≤ n ∧ off + n ≤ mem.length then some (slice mem off.toNat n.toNat) else none

/-- `memcpy` into a block: the block afterwards, when the bytes all fit. -/
def writeAt (mem : List UInt8) (off : Int) (bs : List UInt8) : Option (List UInt8) :=
  if 0 ≤ off ∧ off + bs.length ≤ mem.length then
    some (mem.take off.toNat ++ bs ++ mem.drop (off.toNat + bs.length))
  else none

theorem readAt_eq_some {mem bs : List UInt8} {off n : Int} :
    readAt mem off n = some bs ↔
      0 ≤ off ∧ 0 ≤ n ∧ off + n ≤ mem.length ∧ bs = slice mem off.toNat n.toNat := by
  unfold readAt
  split <;> simp_all [eq_comm]

theorem readAt_some {mem : List UInt8} {off n : Int} (h1 : 0 ≤ off) (h2 : 0 ≤ n)
    (h3 : off + n ≤ mem.length) : readAt mem off n = some (slice mem off.toNat n.toNat) := by
  simp [readAt, h1, h2, h3]

/-- Reading behind a prefix. -/
theorem readAt_append (pre bytes rest : List UInt8) {off n : Int} (hoff : off = pre.length)
    (hn : n = bytes.length) : readAt (pre ++ (bytes ++ rest)) off n = some bytes := by
  subst hoff hn
  rw [readAt_some (by omega) (by omega) (by simp only [List.length_append]; omega)]
  simp [slice]

theorem writeAt_some {mem bs : List UInt8} {off : Int} (h1 : 0 ≤ off)
    (h2 : off + bs.length ≤ mem.length) :
    writeAt mem off bs = some (mem.take off.toNat ++ bs ++ mem.drop (off.toNat + bs.length)) := by
  simp [writeAt, h1, h2]

theorem writeAt_bounds {mem bs mem' : List UInt8} {off : Int}
    (h : writeAt mem off bs = some mem') : 0 ≤ off ∧ off + bs.length ≤ mem.length := by
  unfold writeAt at h
  split at h
  · assumption
  · cases h

/-- A write keeps the size of its block. -/
theorem length_writeAt {mem bs mem' : List UInt8} {off : Int}
    (h : writeAt mem off bs = some mem') : mem'.length = mem.length := by
  have hb := writeAt_bounds h
  rw [writeAt_some hb.1 hb.2, Option.some.injEq] at h
  subst h
  simp only [List.length_append, List.length_take, List.length_drop]
  omega

theorem length_slice {mem : List UInt8} {off n : Nat} (h : off + n ≤ mem.length) :
    (slice mem off n).length = n := by
  simp only [slice, List.length_take, List.length_drop]
  omega

/-- Adjacent slices join. -/
theorem slice_append (mem : List UInt8) (off n m : Nat) :
    slice mem off n ++ slice mem (off + n) m = slice mem off (n + m) := by
  simp only [slice]
  rw [List.take_add, List.drop_drop]

/-- The front of a slice. -/
theorem take_slice {mem : List UInt8} {off n m : Nat} (h : m ≤ n) :
    (slice mem off n).take m = slice mem off m := by
  simp [slice, List.take_take, Nat.min_eq_left h]

/-- The rest of a slice. -/
theorem drop_slice {mem : List UInt8} {off n m : Nat} :
    (slice mem off n).drop m = slice mem (off + m) (n - m) := by
  simp [slice, List.drop_take, List.drop_drop]

/-- What was written is what is read there. -/
theorem slice_writeAt_self {mem bs mem' : List UInt8} {off : Int}
    (h : writeAt mem off bs = some mem') : slice mem' off.toNat bs.length = bs := by
  have hb := writeAt_bounds h
  rw [writeAt_some hb.1 hb.2, Option.some.injEq] at h
  subst h
  have hlen : (mem.take off.toNat).length = off.toNat := by
    simp only [List.length_take]; omega
  simp only [slice, List.append_assoc]
  rw [List.drop_left' hlen, List.take_left' rfl]

/-- A write leaves the bytes before it alone. -/
theorem slice_writeAt_before {mem bs mem' : List UInt8} {off : Int} {a n : Nat}
    (h : writeAt mem off bs = some mem') (ha : a + n ≤ off.toNat) :
    slice mem' a n = slice mem a n := by
  have hb := writeAt_bounds h
  rw [writeAt_some hb.1 hb.2, Option.some.injEq] at h
  subst h
  have hlen : (mem.take off.toNat).length = off.toNat := by
    simp only [List.length_take]; omega
  simp only [slice, List.append_assoc]
  rw [List.drop_append_of_le_length (by omega), List.take_append_of_le_length (by simp; omega),
    List.drop_take, List.take_take, Nat.min_eq_left (by omega)]

end Memory
