/-
Donkeyji.Mydb.BufTheorems — `mydb/buf.c` is a bounded byte queue.

`DbBuf.Valid` says that the pointers are in order, `content` which bytes they enclose. Each
function has one lemma that says what it does to the content; `FifoInv` ties the content to the
bytes written and not yet skipped and the last allocated pointer to the tail.
-/
import Donkeyji.Mydb.Buf

namespace Donkeyji.Mydb

open Memory
open Runs (run AllSteps AllStates)

namespace DbBuf

/-! ## The representation -/

/-- `START ≤ HEAD ≤ TAIL ≤ END`. -/
structure Valid (b : DbBuf) : Prop where
  mem_len : b.mem.length = b.total
  head_nonneg : 0 ≤ b.h
  head_le : b.h ≤ b.t
  tail_le : b.t ≤ b.total
  total_lt : b.total < 2 ^ 63

/-- The bytes between `HEAD` and `TAIL`. -/
def content (b : DbBuf) : List UInt8 := slice b.mem b.h.toNat (b.t - b.h).toNat

theorem length_content {b : DbBuf} (hv : b.Valid) : (b.content.length : Int) = b.t - b.h := by
  obtain ⟨h1, h2, h3, h4, h5⟩ := hv
  rw [content, length_slice (by omega)]
  omega

theorem left_eq {b : DbBuf} (hv : b.Valid) : b.left = b.total - b.t := by
  obtain ⟨h1, h2, h3, h4, h5⟩ := hv
  exact toU64_of_bounds (by omega) (by omega)

theorem size_eq {b : DbBuf} (hv : b.Valid) : b.size = b.content.length := by
  have hlen := length_content hv
  obtain ⟨h1, h2, h3, h4, h5⟩ := hv
  rw [size, toU64_of_bounds (by omega) (by omega), hlen]

/-- A new buffer is valid and empty. -/
theorem new_spec {junk : Nat → UInt8} {total : Nat} {b : DbBuf} (h : new junk total = some b) :
    b.Valid ∧ b.content = [] ∧ b.total = total := by
  unfold new sizeofDbBuf at h
  split at h
  · cases h
    refine ⟨⟨by simp [clear], by simp [clear], by simp [clear], by simp [clear], ?_⟩,
      by simp [clear, content, slice], rfl⟩
    simp only [clear]
    omega
  · cases h

/-! ## The functions -/

/-- `db_buf_Move` keeps the live bytes. -/
theorem move_spec {b : DbBuf} (hv : b.Valid) :
    ∃ b', b.move = some b' ∧ b'.Valid ∧ b'.content = b.content ∧ b'.h = 0 ∧
      b'.total = b.total := by
  have hlen := length_content hv
  have hsize := size_eq hv
  obtain ⟨h1, h2, h3, h4, h5⟩ := hv
  have hread : readAt b.mem b.h (b.content.length : Int) = some b.content := by
    have hcnt : b.content.length = (b.t - b.h).toNat := by omega
    rw [readAt_some h2 (by omega) (by omega), Int.toNat_natCast, hcnt, content]
  obtain ⟨mem, hmem⟩ : ∃ mem, writeAt b.mem 0 b.content = some mem :=
    ⟨_, writeAt_some (by omega) (by omega)⟩
  have hmemlen := length_writeAt hmem
  have hself := slice_writeAt_self hmem
  refine ⟨{ b with mem, t := b.content.length, h := 0 }, ?_, ?_, ?_, rfl, rfl⟩
  · simp only [move, hsize, hread, hmem, Option.bind_eq_bind, Option.bind_some, Option.pure_def]
  · constructor <;> simp only <;> omega
  · simpa [content] using hself

/-- `db_buf_alloc` keeps the live bytes, and succeeds exactly if there is room behind them. -/
theorem alloc_spec {b : DbBuf} (hv : b.Valid) (len : Nat) :
    ∃ p b', b.alloc len = some (p, b') ∧ b'.Valid ∧ b'.content = b.content ∧
      b'.total = b.total ∧ (p.isSome ↔ b.content.length + len ≤ b.total) ∧
      ∀ q, p = some q → q = b'.t ∧ q + len ≤ b'.total := by
  have hlen := length_content hv
  have hleft := left_eq hv
  by_cases hroom : b.left < len
  · obtain ⟨b', hmove, hv', hcontent, hhead, htotal⟩ := move_spec hv
    have hlen' := length_content hv'
    have hleft' := left_eq hv'
    rw [hcontent] at hlen'
    refine ⟨if b'.left ≥ len then some b'.t else none, b', ?_, hv', hcontent, htotal, ?_, ?_⟩
    · simp only [alloc, if_pos hroom, hmove, Option.bind_eq_bind, Option.bind_some, Option.pure_def]
    · split <;> simp <;> omega
    · intro q hq
      split at hq
      · cases hq
        exact ⟨rfl, by omega⟩
      · cases hq
  · have hhead := hv.head_nonneg
    refine ⟨some b.t, b, ?_, hv, rfl, rfl, by simp; omega, ?_⟩
    · simp only [alloc, if_neg hroom, Option.bind_eq_bind, Option.bind_some, Option.pure_def]
      rw [if_pos (by omega)]
    · intro q hq
      cases hq
      exact ⟨rfl, by omega⟩

/-- Bytes written at the tail are appended by `db_buf_seek_tail`. -/
theorem seekTail_write {b : DbBuf} (hv : b.Valid) (bytes : List UInt8)
    (hroom : b.t + bytes.length ≤ b.total) :
    ∃ mem b', writeAt b.mem b.t bytes = some mem ∧
      { b with mem }.seekTail bytes.length = (some b'.t, b') ∧ b'.Valid ∧
      b'.content = b.content ++ bytes ∧ b'.total = b.total := by
  have hleft := left_eq hv
  obtain ⟨h1, h2, h3, h4, h5⟩ := hv
  obtain ⟨mem, hmem⟩ : ∃ mem, writeAt b.mem b.t bytes = some mem :=
    ⟨_, writeAt_some (by omega) (by omega)⟩
  have hmemlen := length_writeAt hmem
  have hbefore := slice_writeAt_before (a := b.h.toNat) (n := (b.t - b.h).toNat) hmem (by omega)
  have hself := slice_writeAt_self hmem
  refine ⟨mem, { b with mem, t := b.t + bytes.length }, hmem, ?_, ?_, ?_, rfl⟩
  · have hleft' : ({ b with mem } : DbBuf).left = b.left := rfl
    rw [seekTail, if_pos (by omega)]
  · constructor <;> simp only <;> omega
  · have hcnt : (b.t + (bytes.length : Int) - b.h).toNat = (b.t - b.h).toNat + bytes.length := by
      omega
    have hoff : b.h.toNat + (b.t - b.h).toNat = b.t.toNat := by omega
    simp only [content, hcnt]
    rw [← slice_append, hoff, hbefore, hself]

/-- `db_buf_seek_tail` past the end changes nothing. -/
theorem seekTail_rejected {b : DbBuf} {len : Nat} (h : (b.seekTail len).1 = none) :
    (b.seekTail len).2 = b := by
  unfold seekTail at h ⊢
  split at h
  · cases h
  · rw [if_neg ‹_›]

/-- `db_buf_seek_head` past the tail changes nothing. -/
theorem seekHead_rejected {b : DbBuf} {len : Nat} (h : (b.seekHead len).1 = none) :
    (b.seekHead len).2 = b := by
  unfold seekHead at h ⊢
  split at h
  · rw [if_pos ‹_›]
  · cases h

/-- `db_buf_seek_head` skips live bytes, and rewinds an empty buffer. -/
theorem seekHead_spec {b : DbBuf} (hv : b.Valid) {len : Nat} (hle : len ≤ b.content.length) :
    ∃ p b', b.seekHead len = (some p, b') ∧ b'.Valid ∧ b'.content = b.content.drop len ∧
      b'.total = b.total ∧ (b'.h ≠ b'.t → b'.t = b.t) := by
  have hlen := length_content hv
  have hsize := size_eq hv
  obtain ⟨h1, h2, h3, h4, h5⟩ := hv
  have hnot : ¬ (len : Int) > b.size := by omega
  by_cases hempty : b.h + len = b.t
  · refine ⟨b.h + len, { b with h := 0, t := 0 }, ?_, ?_, ?_, rfl, fun hne => absurd rfl hne⟩
    · rw [seekHead, if_neg hnot]
      simp only [if_pos hempty]
      rfl
    · constructor <;> simp only <;> omega
    · have hall : b.content.drop len = [] := List.drop_eq_nil_of_le (by omega)
      rw [hall]
      simp [content, slice]
  · refine ⟨b.h + len, { b with h := b.h + len }, ?_, ?_, ?_, rfl, fun _ => rfl⟩
    · rw [seekHead, if_neg hnot]
      simp only [if_neg hempty]
    · constructor <;> simp only <;> omega
    · have hoff : (b.h + (len : Int)).toNat = b.h.toNat + len := by omega
      have hcnt : (b.t - (b.h + (len : Int))).toNat = (b.t - b.h).toNat - len := by omega
      simp only [content, hoff, hcnt, drop_slice]

end DbBuf

/-! ## Runs -/

/-- What a buffer promises: the pointers are in order and enclose the bytes written and not yet
skipped; `db_buf_alloc` succeeds exactly if there is room for the length behind the live
bytes, which it keeps; a rejected seek changes nothing. -/
structure Fifo.Ok (total : Nat) (s : Fifo) : Prop where
  pointers : 0 ≤ s.buf.h ∧ s.buf.h ≤ s.buf.t ∧ s.buf.t ≤ total
  content : s.buf.content = s.queue
  alloc : ∀ len, ∃ p b', s.buf.alloc len = some (p, b') ∧ b'.content = s.queue ∧
    (p.isSome ↔ s.queue.length + len ≤ total)
  seekTail : ∀ len, (s.buf.seekTail len).1 = none → (s.buf.seekTail len).2 = s.buf
  seekHead : ∀ len, (s.buf.seekHead len).1 = none → (s.buf.seekHead len).2 = s.buf

/-- The invariant of a run. -/
structure FifoInv (total : Nat) (s : Fifo) : Prop where
  valid : s.buf.Valid
  total_eq : s.buf.total = total
  content : s.buf.content = s.queue
  held : ∀ p len, s.held = some (p, len) → p = s.buf.t ∧ p + len ≤ s.buf.total

/-- The invariant gives the promise. -/
theorem FifoInv.ok {total : Nat} {s : Fifo} (h : FifoInv total s) : s.Ok total where
  pointers := ⟨h.valid.head_nonneg, h.valid.head_le, h.total_eq ▸ h.valid.tail_le⟩
  content := h.content
  alloc len := by
    obtain ⟨p, b', halloc, -, hcontent, -, hiff, -⟩ := DbBuf.alloc_spec h.valid len
    rw [h.content] at hcontent hiff
    rw [h.total_eq] at hiff
    exact ⟨p, b', halloc, hcontent, hiff⟩
  seekTail _ := DbBuf.seekTail_rejected
  seekHead _ := DbBuf.seekHead_rejected

/-- Every step returns and keeps the invariant. -/
theorem fifoStep_inv {total : Nat} {s : Fifo} {op : FifoOp} (h : FifoInv total s)
    (hadm : FifoAdmits s op) : ∃ s', fifoStep s op = some s' ∧ FifoInv total s' := by
  obtain ⟨hv, htotal, hcontent, hheld⟩ := h
  cases op with
  | alloc len =>
    obtain ⟨p, b', halloc, hv', hcontent', htotal', -, hp⟩ := DbBuf.alloc_spec hv len
    refine ⟨{ s with buf := b', held := p.map fun p => (p, len) }, ?_, hv',
      htotal'.trans htotal, hcontent'.trans hcontent, ?_⟩
    · simp only [fifoStep, halloc, Option.bind_eq_bind, Option.bind_some, Option.pure_def]
    · intro q n hq
      obtain ⟨q', hq', heq⟩ := Option.map_eq_some_iff.mp hq
      obtain ⟨rfl, rfl⟩ := Prod.mk.inj heq
      exact hp q' hq'
  | write bytes =>
    obtain ⟨⟨p, len⟩, hp, hlen⟩ := hadm
    rw [Option.mem_def] at hp
    obtain ⟨rfl, hroom⟩ := hheld p len hp
    obtain ⟨mem, b', hmem, hseek, hv', hcontent', htotal'⟩ :=
      DbBuf.seekTail_write hv bytes (by omega)
    refine ⟨⟨b', none, s.queue ++ bytes⟩, ?_, hv', htotal'.trans htotal, ?_, nofun⟩
    · simp only [fifoStep, hp, hmem, hseek, Option.bind_eq_bind, Option.bind_some,
        Option.pure_def]
    · rw [hcontent', hcontent]
  | seekHead len =>
    by_cases hle : len ≤ s.buf.content.length
    · obtain ⟨p, b', hseek, hv', hcontent', htotal', htail⟩ := DbBuf.seekHead_spec hv hle
      refine ⟨⟨b', if b'.h = b'.t then none else s.held, s.queue.drop len⟩, ?_, hv',
        htotal'.trans htotal, by rw [hcontent', hcontent], ?_⟩
      · simp only [fifoStep, hseek, Option.isSome_some, true_and, if_true]
      · intro q n hq
        by_cases hempty : b'.h = b'.t
        · simp [hempty] at hq
        · simp only [if_neg hempty] at hq
          obtain ⟨rfl, hroom⟩ := hheld q n hq
          exact ⟨(htail hempty).symm, by rw [htotal']; exact hroom⟩
    · have hsize := DbBuf.size_eq hv
      have hseek : s.buf.seekHead len = (none, s.buf) := by
        rw [DbBuf.seekHead, if_pos (by omega)]
      refine ⟨s, ?_, hv, htotal, hcontent, hheld⟩
      simp only [fifoStep, hseek, Option.isSome_none, Bool.false_eq_true, false_and, if_false]

end Donkeyji.Mydb
