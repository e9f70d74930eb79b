/-
Donkeyji.Posix.ModeMuncherTheorems — what mode strings mean.

`Munches` is the grammar of the strings that `mode_munch` accepts, with what
each does to a mode: clauses with commas between them, up to the end or to a
part in the `rwxrwxrwx` format. Each such string writes certain bits and leaves
the others alone (`Overwrite`), so `chmod` with it twice is `chmod` once. What
`modechopper` makes of a mode is read back, unless an `S` is in it.
-/
import Donkeyji.Lib.Overwrite
import Donkeyji.Posix.ModeMuncher

namespace Donkeyji.Posix

/-! ## The grammar -/

/-- The characters `ugoa` and the space. -/
def whoChars : List UInt8 := [117, 103, 111, 97, 32]

/-- The characters `rwxs` and the space. -/
def permChars : List UInt8 := [114, 119, 120, 115, 32]

/-- One clause: who is affected, one of `+-=`, and the changes. A clause that begins with `-` is
read in the other format. -/
structure Clause where
  who : List UInt8
  op : UInt8
  perm : List UInt8
  who_ok : ∀ c ∈ who, c ∈ whoChars
  op_ok : op = 43 ∨ op = 45 ∨ op = 61
  perm_ok : ∀ c ∈ perm, c ∈ permChars
  start_ok : who = [] → op ≠ 45

/-- How the clause is written. -/
def Clause.text (c : Clause) : List UInt8 := c.who ++ c.op :: c.perm

/-- The bits that characters stand for together. -/
def bitsOf (charBits : UInt8 → Option Mode) (cs : List UInt8) : Mode :=
  cs.foldl (fun bits c => bits ||| (charBits c).getD 0#32) 0#32

/-- Who is affected: all, if the clause does not say. -/
def Clause.affected (c : Clause) : Mode :=
  if bitsOf whoBits c.who = 0#32 then 0o7777 else bitsOf whoBits c.who

/-- The bits the clause is about. -/
def Clause.bits (c : Clause) : Mode := bitsOf permBits c.perm &&& c.affected

/-- What the clause writes. Without a change it writes nothing, and `=` writes all bits. -/
def Clause.overwrite (c : Clause) : Overwrite 32 :=
  if bitsOf permBits c.perm = 0#32 then .skip
  else if c.op = 43 then ⟨c.bits, c.bits⟩
  else if c.op = 45 then ⟨c.bits, 0#32⟩
  else ⟨~~~0#32, c.bits⟩

/-- A string that is accepted, and what it makes of a mode. -/
inductive Munches : List UInt8 → Mode → Mode → Prop where
  | last (c : Clause) (rest : List UInt8) (mode : Mode) :
      rest.headD 0 = 0 → Munches (c.text ++ rest) mode (c.overwrite.apply mode)
  | more (c : Clause) {p : List UInt8} {mode mode' : Mode} :
      Munches p (c.overwrite.apply mode) mode' → Munches (c.text ++ 44 :: p) mode mode'
  | rwx {p : List UInt8} {mode mode' : Mode} :
      p.head? = some 114 ∨ p.head? = some 45 → rwxrwxrwx mode p = some (0, mode') →
        Munches p mode mode'

/-! ## Clauses -/

theorem whoBits_isSome {c : UInt8} : (whoBits c).isSome ↔ c ∈ whoChars := by
  unfold whoBits whoChars
  simp only [List.mem_cons, List.not_mem_nil, or_false]
  split_ifs <;> simp_all

theorem permBits_isSome {c : UInt8} : (permBits c).isSome ↔ c ∈ permChars := by
  unfold permBits permChars
  simp only [List.mem_cons, List.not_mem_nil, or_false]
  split_ifs <;> simp_all

/-- The loop takes all characters that it knows. -/
theorem bitsLoop_append {charBits : UInt8 → Option Mode} {rest : List UInt8}
    (hrest : ∀ c ∈ rest.head?, charBits c = none) : ∀ (cs : List UInt8) (bits : Mode),
    (∀ c ∈ cs, (charBits c).isSome) → bitsLoop charBits bits (cs ++ rest) =
      (cs.foldl (fun bits c => bits ||| (charBits c).getD 0#32) bits, rest)
  | [], bits, _ => by
      cases rest with
      | nil => rfl
      | cons c rest => simp [bitsLoop, hrest c rfl]
  | c :: cs, bits, hcs => by
      obtain ⟨hc, hcs⟩ := List.forall_mem_cons.mp hcs
      obtain ⟨b, hb⟩ := Option.isSome_iff_exists.mp hc
      simp only [List.cons_append, bitsLoop, hb, List.foldl_cons, Option.getD_some]
      exact bitsLoop_append hrest cs (bits ||| b) hcs

theorem bitsLoop_eq {charBits : UInt8 → Option Mode} {rest : List UInt8}
    (hrest : ∀ c ∈ rest.head?, charBits c = none) {cs : List UInt8}
    (hcs : ∀ c ∈ cs, (charBits c).isSome) :
    bitsLoop charBits 0#32 (cs ++ rest) = (bitsOf charBits cs, rest) :=
  bitsLoop_append hrest cs 0#32 hcs

/-- Every string splits where the loop stops. -/
theorem exists_bitsLoop (charBits : UInt8 → Option Mode) : ∀ (p : List UInt8),
    ∃ cs rest, p = cs ++ rest ∧ (∀ c ∈ cs, (charBits c).isSome) ∧
      ∀ c ∈ rest.head?, charBits c = none
  | [] => ⟨[], [], rfl, by simp, by simp⟩
  | c :: p => by
      cases hc : charBits c with
      | none => exact ⟨[], c :: p, rfl, by simp, by simp [hc]⟩
      | some b =>
        obtain ⟨cs, rest, rfl, hcs, hrest⟩ := exists_bitsLoop charBits p
        exact ⟨c :: cs, rest, rfl, by simpa [hc] using hcs, hrest⟩

/-- The change of a clause is its write. -/
theorem applyChanges_eq (c : Clause) (mode : Mode) :
    applyChanges c.op (bitsOf permBits c.perm) c.affected mode = some (c.overwrite.apply mode) := by
  unfold applyChanges Clause.overwrite
  by_cases hzero : bitsOf permBits c.perm = 0#32
  · rw [if_pos hzero, if_pos hzero, Overwrite.apply_skip]
  · rw [if_neg hzero, if_neg hzero]
    by_cases hplus : c.op = 43
    · rw [if_pos hplus, if_pos hplus, Overwrite.apply_set]
      rfl
    · rw [if_neg hplus, if_neg hplus]
      by_cases hminus : c.op = 45
      · rw [if_pos hminus, if_pos hminus, Overwrite.apply_clear]
        rfl
      · have heq : c.op = 61 := (c.op_ok.resolve_left hplus).resolve_left hminus
        rw [if_neg hminus, if_neg hminus, if_pos heq, Overwrite.apply_all]
        rfl

/-- A clause does not begin like the other format. -/
theorem Clause.head_text (c : Clause) (rest : List UInt8) :
    ¬ ((c.text ++ rest).head? = some 114 ∨ (c.text ++ rest).head? = some 45) := by
  cases hwho : c.who with
  | nil =>
    have hne := c.start_ok hwho
    simp only [Clause.text, hwho, List.nil_append, List.cons_append, List.head?_cons,
      Option.some.injEq]
    rintro (h | h)
    · rcases c.op_ok with hop | hop | hop <;> rw [h] at hop <;> exact absurd hop (by decide)
    · exact hne h
  | cons x xs =>
    have hx := c.who_ok x (by rw [hwho]; exact List.mem_cons_self)
    simp only [Clause.text, hwho, List.cons_append, List.head?_cons, Option.some.injEq]
    rintro (rfl | rfl)
    · exact absurd hx (by decide)
    · exact absurd hx (by decide)

/-- **One turn on a clause** makes its write and goes on behind a comma. -/
theorem munchLoop_clause (fuel : Nat) (op : UInt8) (mode : Mode) (c : Clause) {rest : List UInt8}
    (hrest : ∀ x ∈ rest.head?, x ∉ permChars) :
    munchLoop (fuel + 1) op mode (c.text ++ rest) =
      if rest.headD 0 ≠ 0 ∧ rest.headD 0 ≠ 44 then some (-2, mode)
      else if rest.headD 0 = 44 then munchLoop fuel c.op (c.overwrite.apply mode) rest.tail
      else some (0, c.overwrite.apply mode) := by
  have hop : whoBits c.op = none := by
    rcases c.op_ok with h | h | h <;> rw [h] <;> rfl
  have hwho : bitsLoop whoBits 0#32 (c.who ++ c.op :: (c.perm ++ rest)) =
      (bitsOf whoBits c.who, c.op :: (c.perm ++ rest)) :=
    bitsLoop_eq (by simpa using hop) fun x hx => whoBits_isSome.mpr (c.who_ok x hx)
  have hperm : bitsLoop permBits 0#32 (c.perm ++ rest) = (bitsOf permBits c.perm, rest) := by
    refine bitsLoop_eq (fun x hx => ?_) fun x hx => permBits_isSome.mpr (c.perm_ok x hx)
    exact Option.not_isSome_iff_eq_none.mp (mt permBits_isSome.mp (hrest x hx))
  have hread : readOp op c.op = some c.op := if_pos c.op_ok
  have hspace : rest.headD 0 ≠ 32 := by
    cases rest with
    | nil => decide
    | cons x xs =>
      rintro rfl
      exact absurd (hrest 32 rfl) (by decide)
  have htext : c.text ++ rest = c.who ++ c.op :: (c.perm ++ rest) := by simp [Clause.text]
  rw [munchLoop, if_neg (c.head_text rest), htext, hwho]
  simp only [List.headD_cons, hread, List.tail_cons, hperm, hspace, ne_eq, not_false_eq_true,
    true_and]
  by_cases hbad : ¬ rest.headD 0 = 0 ∧ ¬ rest.headD 0 = 44
  · rw [if_pos hbad, if_pos hbad]
  · have hchange := applyChanges_eq c mode
    unfold Clause.affected at hchange
    rw [if_neg hbad, if_neg hbad, hchange]

/-- **Every string** begins with a clause, or with the other format, or is refused. -/
theorem munchLoop_cases {fuel : Nat} {op : UInt8} {mode : Mode} {p : List UInt8}
    (hhead : ¬ (p.head? = some 114 ∨ p.head? = some 45)) :
    (∃ (c : Clause) (rest : List UInt8), p = c.text ++ rest ∧ ∀ x ∈ rest.head?, x ∉ permChars) ∨
      munchLoop (fuel + 1) op mode p = some (-1, mode) := by
  obtain ⟨who, q, rfl, hwho, hq⟩ := exists_bitsLoop whoBits p
  by_cases hop : q.headD 0 = 43 ∨ q.headD 0 = 45 ∨ q.headD 0 = 61
  · left
    cases q with
    | nil => exact absurd hop (by decide)
    | cons o q =>
      obtain ⟨perm, rest, rfl, hperm, hrest⟩ := exists_bitsLoop permBits q
      refine ⟨⟨who, o, perm, fun c hc => whoBits_isSome.mp (hwho c hc), hop,
        fun c hc => permBits_isSome.mp (hperm c hc), ?_⟩, rest, by simp [Clause.text],
        fun x hx hmem => ?_⟩
      · rintro rfl rfl
        exact hhead (.inr rfl)
      · have hsome := permBits_isSome.mpr hmem
        rw [hrest x hx] at hsome
        cases hsome
  · right
    have hspace : q.headD 0 ≠ 32 := by
      cases q with
      | nil => decide
      | cons o q =>
        rintro rfl
        exact absurd (hq 32 rfl) (by decide)
    have hread : readOp op (q.headD 0) = none := by
      rw [readOp, if_neg hop, if_neg hspace]
    rw [munchLoop, if_neg hhead, bitsLoop_eq hq hwho]
    simp only [hread]

/-! ## Accepted strings -/

theorem munches_of_munchLoop : ∀ {fuel : Nat} {op : UInt8} {mode mode' : Mode} {p : List UInt8},
    munchLoop fuel op mode p = some (0, mode') → Munches p mode mode'
  | 0, _, _, _, _, h => by cases h
  | fuel + 1, op, mode, mode', p, h => by
      by_cases hhead : p.head? = some 114 ∨ p.head? = some 45
      · rw [munchLoop, if_pos hhead] at h
        exact .rwx hhead h
      rcases munchLoop_cases hhead with ⟨c, rest, rfl, hrest⟩ | hrefused
      · rw [munchLoop_clause fuel op mode c hrest] at h
        split at h
        · cases h
        · rename_i hend
          split at h
          · rename_i hcomma
            cases rest with
            | nil => cases hcomma
            | cons x rest =>
              obtain rfl : x = 44 := hcomma
              exact .more c (munches_of_munchLoop h)
          · rename_i hcomma
            cases h
            exact .last c rest mode (by_contra fun hzero => hend ⟨hzero, hcomma⟩)
      · rw [hrefused] at h
        cases h

theorem munchLoop_of_munches {p : List UInt8} {mode mode' : Mode} (h : Munches p mode mode') :
    ∀ {fuel : Nat} (op : UInt8), p.length < fuel → munchLoop fuel op mode p = some (0, mode') := by
  induction h with
  | last c rest mode hrest =>
    intro fuel op hfuel
    obtain ⟨fuel, rfl⟩ := Nat.exists_eq_succ_of_ne_zero (Nat.ne_zero_of_lt hfuel)
    have hstop : ∀ x ∈ rest.head?, x ∉ permChars := by
      intro x hx
      cases rest with
      | nil => cases hx
      | cons y rest =>
        cases hx
        obtain rfl : x = 0 := hrest
        decide
    rw [munchLoop_clause fuel op mode c hstop, hrest]
    rfl
  | more c _ ih =>
    intro fuel op hfuel
    obtain ⟨fuel, rfl⟩ := Nat.exists_eq_succ_of_ne_zero (Nat.ne_zero_of_lt hfuel)
    rw [munchLoop_clause fuel op _ c (by simp [permChars])]
    simp only [List.length_append, List.length_cons] at hfuel
    exact ih c.op (by omega)
  | rwx hhead hrwx =>
    intro fuel op hfuel
    obtain ⟨fuel, rfl⟩ := Nat.exists_eq_succ_of_ne_zero (Nat.ne_zero_of_lt hfuel)
    rw [munchLoop, if_pos hhead, hrwx]

/-- **`mode_munch` reads the grammar.** It accepts a string, and makes the mode out of it, exactly if
the string has that meaning. -/
theorem munch_iff (mode mode' : Mode) (p : List UInt8) :
    modeMunch mode p = some (0, mode') ↔ Munches p mode mode' :=
  ⟨munches_of_munchLoop, fun h => munchLoop_of_munches h 0 (Nat.lt_succ_self _)⟩

/-! ## Every accepted string is a write -/

/-- A character of the `rwxrwxrwx` format is a write, or it is bad, whatever the mode is. -/
theorem rwxChange_overwrite (count : Nat) (sel : ModeLookup) (c : UInt8) :
    (∀ mode, rwxChange count sel c mode = none) ∨
      ∃ o : Overwrite 32, ∀ mode, rwxChange count sel c mode = some (o.apply mode) := by
  unfold rwxChange
  split_ifs
  · exact .inr ⟨⟨sel.bits, sel.bits⟩, fun mode => by rw [Overwrite.apply_set]⟩
  · exact .inr ⟨⟨sel.bits, 0#32⟩, fun mode => by rw [Overwrite.apply_clear]⟩
  · exact .inr ⟨⟨sIsuid ||| sIxusr, sIsuid ||| sIxusr⟩, fun mode => by rw [Overwrite.apply_set]⟩
  · exact .inr ⟨⟨sIsgid ||| sIxgrp, sIsgid ||| sIxgrp⟩, fun mode => by rw [Overwrite.apply_set]⟩
  · exact .inl fun mode => rfl
  · exact .inr ⟨.skip, fun mode => by rw [Overwrite.apply_skip]⟩

theorem rwxLoop_overwrite {p : List UInt8} : ∀ {entries : List ModeLookup} {count : Nat}
    {mode mode' : Mode}, rwxLoop p count entries mode = some (some mode') →
      ∃ o : Overwrite 32, mode' = o.apply mode ∧
        ∀ m, rwxLoop p count entries m = some (some (o.apply m))
  | [], _, mode, _, h => by
      cases h
      exact ⟨.skip, (Overwrite.apply_skip mode).symm, fun m => by rw [Overwrite.apply_skip]; rfl⟩
  | sel :: rest, count, mode, mode', h => by
      unfold rwxLoop at h ⊢
      cases hc : charAt p count with
      | none =>
        rw [hc] at h
        cases h
      | some c =>
        simp only [hc] at h ⊢
        rcases rwxChange_overwrite count sel c with hbad | ⟨o, ho⟩
        · rw [hbad] at h
          cases h
        · rw [ho] at h
          obtain ⟨o', rfl, ho'⟩ := rwxLoop_overwrite h
          refine ⟨o.andThen o', (o.apply_andThen o' mode).symm, fun m => ?_⟩
          rw [ho, Overwrite.apply_andThen]
          exact ho' (o.apply m)

theorem rwxrwxrwx_overwrite {p : List UInt8} {mode mode' : Mode}
    (h : rwxrwxrwx mode p = some (0, mode')) : ∃ o : Overwrite 32, mode' = o.apply mode ∧
      ∀ m, rwxrwxrwx m p = some (0, o.apply m) := by
  obtain ⟨r, hloop, hr⟩ := Option.map_eq_some_iff.mp h
  cases r with
  | none => cases hr
  | some mode1 =>
    cases hr
    obtain ⟨o, ho, hall⟩ := rwxLoop_overwrite hloop
    have hclear := Overwrite.apply_clear (sIsuid ||| sIsgid)
    refine ⟨Overwrite.andThen ⟨sIsuid ||| sIsgid, 0#32⟩ o, ?_, fun m => ?_⟩
    · rw [Overwrite.apply_andThen, hclear, ho]
    · rw [rwxrwxrwx, hall, Overwrite.apply_andThen, hclear]
      rfl

/-- **An accepted string writes the same bits into every mode.** -/
theorem Munches.overwrite {p : List UInt8} {mode mode' : Mode} (h : Munches p mode mode') :
    ∃ o : Overwrite 32, mode' = o.apply mode ∧ ∀ m, Munches p m (o.apply m) := by
  induction h with
  | last c rest mode hrest => exact ⟨c.overwrite, rfl, fun m => .last c rest m hrest⟩
  | more c _ ih =>
    obtain ⟨o, rfl, ho⟩ := ih
    refine ⟨c.overwrite.andThen o, (c.overwrite.apply_andThen o _).symm, fun m => ?_⟩
    rw [Overwrite.apply_andThen]
    exact .more c (ho (c.overwrite.apply m))
  | rwx hhead hrwx =>
    obtain ⟨o, ho, hall⟩ := rwxrwxrwx_overwrite hrwx
    exact ⟨o, ho, fun m => .rwx hhead (hall m)⟩

/-- The system's `chmod` writes the lower bits. -/
theorem chmod_eq (stMode mode : Mode) :
    chmod stMode mode = (⟨0o7777, mode⟩ : Overwrite 32).apply stMode := rfl

/-- The character of `modechopper` for an entry. -/
def plainChar (mode bits : Mode) (rwx : UInt8) : UInt8 := if mode &&& bits ≠ 0#32 then rwx else 45

/-- The character of `modechopper` for an entry with a flag. -/
def flagChar (mode flag bits : Mode) : UInt8 :=
  if mode &&& flag ≠ 0#32 then if mode &&& bits ≠ 0#32 then 115 else 83
  else plainChar mode bits 120

theorem modechopper_eq (mode : Mode) : modechopper mode =
    [plainChar mode 0o400 114, plainChar mode 0o200 119, flagChar mode sIsuid sIxusr,
      plainChar mode 0o040 114, plainChar mode 0o020 119, flagChar mode sIsgid sIxgrp,
      plainChar mode 0o004 114, plainChar mode 0o002 119, plainChar mode 0o001 120] := by
  unfold modechopper flagChar
  split_ifs <;> rfl

theorem rwxChange_plain {count j : Nat} {rwx : UInt8} (hrwx : rwx ≠ 45) (mode tmpMode : Mode) :
    rwxChange count ⟨rwx, BitVec.twoPow 32 j⟩ (plainChar mode (BitVec.twoPow 32 j) rwx) tmpMode =
      some ((⟨BitVec.twoPow 32 j, mode⟩ : Overwrite 32).apply tmpMode) := by
  rw [Overwrite.copy_bit]
  by_cases hbit : mode &&& BitVec.twoPow 32 j ≠ 0#32
  · rw [plainChar, if_pos hbit, if_pos hbit, rwxChange, if_pos rfl]
  · rw [plainChar, if_neg hbit, if_neg hbit, rwxChange, if_neg (Ne.symm hrwx), if_pos rfl]

/-- What a character of an entry with a flag writes. -/
def flagWrite (mode flag bits : Mode) : Overwrite 32 :=
  if mode &&& flag ≠ 0#32 then if mode &&& bits ≠ 0#32 then ⟨flag ||| bits, mode⟩ else .skip
  else ⟨bits, mode⟩

/-- Copying bits that are all set is setting them. -/
theorem copy_set {val sel : Mode} (h : val &&& sel = sel) (m : Mode) :
    (⟨sel, val⟩ : Overwrite 32).apply m = m ||| sel := by
  rw [← Overwrite.apply_set, Overwrite.apply, Overwrite.apply, h, BitVec.and_self]

theorem and_twoPow {mode : Mode} {j : Nat} (h : mode &&& BitVec.twoPow 32 j ≠ 0#32) :
    mode &&& BitVec.twoPow 32 j = BitVec.twoPow 32 j := by
  rw [BitVec.and_twoPow] at h ⊢
  split_ifs at h ⊢ with hbit
  · rfl
  · exact absurd rfl h

theorem rwxChange_flag {count i j : Nat} (mode tmpMode : Mode)
    (hcall : rwxChange count ⟨120, BitVec.twoPow 32 j⟩ 115 tmpMode =
      some (tmpMode ||| (BitVec.twoPow 32 i ||| BitVec.twoPow 32 j))) :
    rwxChange count ⟨120, BitVec.twoPow 32 j⟩
        (flagChar mode (BitVec.twoPow 32 i) (BitVec.twoPow 32 j)) tmpMode =
      some ((flagWrite mode (BitVec.twoPow 32 i) (BitVec.twoPow 32 j)).apply tmpMode) := by
  unfold flagChar flagWrite
  by_cases hflag : mode &&& BitVec.twoPow 32 i ≠ 0#32
  · rw [if_pos hflag, if_pos hflag]
    by_cases hbit : mode &&& BitVec.twoPow 32 j ≠ 0#32
    · have hboth : mode &&& (BitVec.twoPow 32 i ||| BitVec.twoPow 32 j) =
          BitVec.twoPow 32 i ||| BitVec.twoPow 32 j := by
        rw [BitVec.and_or_distrib_left, and_twoPow hflag, and_twoPow hbit]
      rw [if_pos hbit, if_pos hbit, hcall, copy_set hboth]
    · rw [if_neg hbit, if_neg hbit, Overwrite.apply_skip]
      rfl
  · rw [if_neg hflag, if_neg hflag, rwxChange_plain (by decide)]

/-- A turn of the loop on a character that is a write. -/
theorem rwxLoop_step {p : List UInt8} {count : Nat} {sel : ModeLookup} {rest : List ModeLookup}
    {c : UInt8} {mode mode' : Mode} (hc : charAt p count = some c)
    (hchange : rwxChange count sel c mode = some mode') :
    rwxLoop p count (sel :: rest) mode = rwxLoop p (count + 1) rest mode' := by
  rw [rwxLoop, hc]
  simp only [hchange]

/-- A turn on a plain character of `modechopper`. -/
theorem rwxLoop_plain {p : List UInt8} {count : Nat} {rwx : UInt8} (j : Nat) {bits : Mode}
    (hbits : bits = BitVec.twoPow 32 j) (hrwx : rwx ≠ 45) {rest : List ModeLookup} {mode : Mode}
    (hc : charAt p count = some (plainChar mode bits rwx)) (tmpMode : Mode) :
    rwxLoop p count (⟨rwx, bits⟩ :: rest) tmpMode =
      rwxLoop p (count + 1) rest ((⟨bits, mode⟩ : Overwrite 32).apply tmpMode) := by
  subst hbits
  exact rwxLoop_step hc (rwxChange_plain hrwx mode tmpMode)

/-- **What is read back.** -/
theorem rwxLoop_modechopper (mode tmpMode : Mode) :
    rwxLoop (modechopper mode) 0 modesel tmpMode = some (some
      ((⟨0o007, mode⟩ : Overwrite 32).apply ((flagWrite mode sIsgid sIxgrp).apply
        ((⟨0o060, mode⟩ : Overwrite 32).apply ((flagWrite mode sIsuid sIxusr).apply
          ((⟨0o600, mode⟩ : Overwrite 32).apply tmpMode)))))) := by
  have huser : ∀ tmpMode, rwxChange 2 ⟨120, sIxusr⟩ (flagChar mode sIsuid sIxusr) tmpMode =
      some ((flagWrite mode sIsuid sIxusr).apply tmpMode) :=
    fun tmpMode => rwxChange_flag (i := 11) (j := 6) mode tmpMode rfl
  have hgroup : ∀ tmpMode, rwxChange 5 ⟨120, sIxgrp⟩ (flagChar mode sIsgid sIxgrp) tmpMode =
      some ((flagWrite mode sIsgid sIxgrp).apply tmpMode) :=
    fun tmpMode => rwxChange_flag (i := 10) (j := 3) mode tmpMode rfl
  rw [modechopper_eq, modesel, rwxLoop_plain 8 (by decide) (by decide) rfl,
    rwxLoop_plain 7 (by decide) (by decide) rfl, Overwrite.copy_copy]
  change rwxLoop _ 2 (⟨120, sIxusr⟩ :: _) _ = _
  rw [rwxLoop_step rfl (huser _), rwxLoop_plain 5 (by decide) (by decide) rfl,
    rwxLoop_plain 4 (by decide) (by decide) rfl, Overwrite.copy_copy]
  change rwxLoop _ 5 (⟨120, sIxgrp⟩ :: _) _ = _
  rw [rwxLoop_step rfl (hgroup _), rwxLoop_plain 2 (by decide) (by decide) rfl,
    rwxLoop_plain 1 (by decide) (by decide) rfl, rwxLoop_plain 0 (by decide) (by decide) rfl,
    Overwrite.copy_copy, Overwrite.copy_copy]
  rfl

/-- The string is read in the `rwxrwxrwx` format. -/
theorem modeMunch_modechopper (base mode : Mode) :
    modeMunch base (modechopper mode) = rwxrwxrwx base (modechopper mode) := by
  have hhead : (modechopper mode).head? = some 114 ∨ (modechopper mode).head? = some 45 := by
    rw [modechopper_eq]
    by_cases hbit : mode &&& 0o400 ≠ 0#32
    · exact .inl (congrArg some (if_pos hbit))
    · exact .inr (congrArg some (if_neg hbit))
  rw [modeMunch, munchLoop, if_pos hhead]

/-- Without an `S` the flag is copied with its bit. -/
theorem flagWrite_of_imp {mode flag bits : Mode}
    (h : mode &&& flag ≠ 0#32 → mode &&& bits ≠ 0#32) :
    ∃ sel, flagWrite mode flag bits = ⟨sel ||| bits, mode⟩ ∧
      (sel = flag ∨ sel = 0#32 ∧ mode &&& flag = 0#32) := by
  unfold flagWrite
  by_cases hflag : mode &&& flag ≠ 0#32
  · exact ⟨flag, by rw [if_pos hflag, if_pos (h hflag)], .inl rfl⟩
  · exact ⟨0#32, by rw [if_neg hflag, BitVec.zero_or], .inr ⟨rfl, not_not.mp hflag⟩⟩

/-- A write of one flag leaves the other. -/
theorem flagWrite_sel {mode flag bits : Mode} {j : Nat} (hflag : flag.getLsbD j = false)
    (hbits : bits.getLsbD j = false) : (flagWrite mode flag bits).sel.getLsbD j = false := by
  unfold flagWrite
  split_ifs
  · simp only [BitVec.getLsbD_or, hflag, hbits, Bool.or_self]
  · exact BitVec.getLsbD_zero
  · exact hbits

theorem getLsbD_of_and_twoPow {mode : Mode} {j : Nat} (h : mode &&& BitVec.twoPow 32 j ≠ 0#32) :
    mode.getLsbD j = true := by
  rw [BitVec.and_twoPow] at h
  split_ifs at h with hbit
  · exact hbit
  · exact absurd rfl h

/-- Without an `S` all the bits are copied. -/
theorem munch_modechopper (base mode : Mode)
    (hsuid : mode &&& sIsuid ≠ 0#32 → mode &&& sIxusr ≠ 0#32)
    (hsgid : mode &&& sIsgid ≠ 0#32 → mode &&& sIxgrp ≠ 0#32) :
    modeMunch base (modechopper mode) = some (0, (⟨0o6777, mode⟩ : Overwrite 32).apply base) := by
  obtain ⟨sel, hwrite, hsel⟩ := flagWrite_of_imp hsuid
  obtain ⟨sel', hwrite', hsel'⟩ := flagWrite_of_imp hsgid
  rw [modeMunch_modechopper, rwxrwxrwx, rwxLoop_modechopper, Option.map_some, hwrite, hwrite']
  simp only [Overwrite.copy_copy]
  rw [Overwrite.copy_clear]
  · rcases hsel with rfl | ⟨rfl, _⟩ <;> rcases hsel' with rfl | ⟨rfl, _⟩ <;> rfl
  · rcases hsel with rfl | ⟨rfl, hu⟩ <;> rcases hsel' with rfl | ⟨rfl, hg⟩
    · exact BitVec.and_zero
    · exact hg
    · exact hu
    · change mode &&& (sIsuid ||| sIsgid) = 0#32
      rw [BitVec.and_or_distrib_left, hu, hg]
      rfl

/-- **`modechopper` is read back** into any mode, the permissions and the two flags of the one
without touching the rest of the other, exactly if no flag stands without its execute bit. -/
theorem chopped_munches_iff (base mode : Mode) :
    modeMunch base (modechopper mode) = some (0, (⟨0o6777, mode⟩ : Overwrite 32).apply base) ↔
      (mode &&& sIsuid ≠ 0#32 → mode &&& sIxusr ≠ 0#32) ∧
        (mode &&& sIsgid ≠ 0#32 → mode &&& sIxgrp ≠ 0#32) := by
  refine ⟨fun h => ?_, fun ⟨hsuid, hsgid⟩ => munch_modechopper base mode hsuid hsgid⟩
  rw [modeMunch_modechopper, rwxrwxrwx, rwxLoop_modechopper, Option.map_some] at h
  simp only [Option.some.injEq, Prod.mk.injEq, true_and] at h
  have hclear : ∀ i, i = 10 ∨ i = 11 →
      (base &&& ~~~(sIsuid ||| sIsgid)).getLsbD i = false := by
    rintro i (rfl | rfl) <;> simp [sIsuid, sIsgid]
  refine ⟨fun hflag => ?_, fun hflag => ?_⟩
  · by_contra hbit
    have hskip : flagWrite mode sIsuid sIxusr = .skip := by
      rw [flagWrite, if_pos hflag, if_neg (not_not.mpr hbit)]
    have hset : mode.getLsbD 11 = true := getLsbD_of_and_twoPow hflag
    have hgroup : (flagWrite mode sIsgid sIxgrp).sel.getLsbD 11 = false := flagWrite_sel rfl rfl
    have hbit11 := congrArg (BitVec.getLsbD · 11) h
    simp only [Overwrite.getLsbD_apply, hskip, hgroup, hset, hclear 11 (.inr rfl)] at hbit11
    simp [Overwrite.skip] at hbit11
  · by_contra hbit
    have hskip : flagWrite mode sIsgid sIxgrp = .skip := by
      rw [flagWrite, if_pos hflag, if_neg (not_not.mpr hbit)]
    have hset : mode.getLsbD 10 = true := getLsbD_of_and_twoPow hflag
    have huser : (flagWrite mode sIsuid sIxusr).sel.getLsbD 10 = false := flagWrite_sel rfl rfl
    have hbit10 := congrArg (BitVec.getLsbD · 10) h
    simp only [Overwrite.getLsbD_apply, hskip, huser, hset, hclear 10 (.inl rfl)] at hbit10
    simp [Overwrite.skip] at hbit10

/-! ## The mask -/

/-- The permissions of a mode alone have no flag. -/
theorem permissions_flag (mode : Mode) {flag : Mode} (h : 0o777 &&& flag = 0#32) :
    ¬ (mode &&& 0o777 &&& flag ≠ 0#32) := by
  rw [not_not, BitVec.and_assoc, h]
  exact BitVec.and_zero

/-- A mask and the permissions it leaves stand for each other. -/
theorem not_permissions (cmask : Mode) : ~~~(~~~cmask &&& 0o777) &&& 0o777 = cmask &&& 0o777 := by
  refine BitVec.eq_of_getLsbD_eq fun i hi => ?_
  simp only [BitVec.getLsbD_and, BitVec.getLsbD_not, hi, decide_true, Bool.true_and]
  cases cmask.getLsbD i <;> cases BitVec.getLsbD (0o777 : Mode) i <;> rfl

/-- Of what is copied the permissions are kept. -/
theorem copy_permissions (mode base : Mode) :
    (⟨0o6777, mode &&& 0o777⟩ : Overwrite 32).apply base &&& 0o777 = mode &&& 0o777 := by
  refine BitVec.eq_of_getLsbD_eq fun i _ => ?_
  simp only [BitVec.getLsbD_and, Overwrite.getLsbD_apply]
  cases hi : BitVec.getLsbD (0o777 : Mode) i with
  | false => simp only [Bool.and_false]
  | true =>
    have hsel : BitVec.getLsbD (0o777 &&& 0o6777 : Mode) i = true := hi
    rw [BitVec.getLsbD_and, hi, Bool.true_and] at hsel
    simp only [hsel, if_true, Bool.and_true]

/-- What a call of `umask` says and leaves. -/
theorem Pumask_some {cmask cmask' : Mode} {arg : Option (List UInt8)} {t : List UInt8}
    (h : Pumask cmask arg = some (some t, cmask')) :
    ∃ mode : Mode, t = modechopper (mode &&& 0o777) ∧ cmask' = ~~~(mode &&& 0o777) &&& 0o777 := by
  cases arg with
  | none =>
    simp only [Pumask, umask, Option.some.injEq, Prod.mk.injEq] at h
    obtain ⟨rfl, rfl⟩ := h
    exact ⟨~~~cmask, rfl, (not_permissions cmask).symm⟩
  | some s =>
    obtain ⟨⟨r, mode⟩, hmunch, hr⟩ := Option.map_eq_some_iff.mp h
    by_cases hzero : r = 0
    · simp only [hzero, ne_eq, not_true_eq_false, if_false, umask, Prod.mk.injEq,
        Option.some.injEq] at hr
      exact ⟨mode, hr.1.symm, hr.2.symm⟩
    · simp [hzero] at hr

/-- **The mask comes back.** What `umask` says is the mask that is set. Given to `umask` later, under
any other mask, it sets this mask again. -/
theorem umask_round_trip {cmask cmask' : Mode} {arg : Option (List UInt8)} {t : List UInt8}
    (h : Pumask cmask arg = some (some t, cmask')) :
    Pumask cmask' none = some (some t, cmask') ∧
      ∀ later, Pumask later (some t) = some (some t, cmask') := by
  obtain ⟨mode, rfl, rfl⟩ := Pumask_some h
  refine ⟨?_, fun later => ?_⟩
  · simp only [Pumask, umask, not_permissions, BitVec.and_assoc, BitVec.and_self]
  · have hread := munch_modechopper (~~~later &&& 0o777) (mode &&& 0o777)
      (fun hflag => absurd hflag (permissions_flag mode rfl))
      (fun hflag => absurd hflag (permissions_flag mode rfl))
    simp only [Pumask, umask, hread, Option.map_some, copy_permissions]
    rfl

/-- `u=rw,g+r` under the mask 022, and its answer `rw-r-----` under the mask 077. -/
theorem umask_round_trip_two : Pumask 0o077 (some [114, 119, 45, 114, 45, 45, 45, 45, 45]) =
    some (some [114, 119, 45, 114, 45, 45, 45, 45, 45], 0o137) :=
  have h : Pumask 0o022 (some [117, 61, 114, 119, 44, 103, 43, 114]) =
    some (some [114, 119, 45, 114, 45, 45, 45, 45, 45], 0o137) := rfl
  (umask_round_trip h).2 0o077

end Donkeyji.Posix
