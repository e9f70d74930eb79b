/-
Donkeyji.Cpp.KvIndicesTheorems — `parse_string` stays in the string, ends,
and reads what is written with padding.

The indices lead to the parts of the string that `KvParser` works with
(`parseFrom_eq`); no read is behind the terminator, and an index overflows
exactly if the string has 2^31 characters or more. `Written` is the relation
between a list of pairs and the texts it may be written as.
-/
import Donkeyji.Cpp.KvIndices
import Donkeyji.Cpp.KvParserTheorems

namespace Donkeyji.Cpp

variable {str : CString} {p : UInt8 → Bool} {i : Nat}

/-! ## Indices -/

/-- Where a scan ends. -/
def scanEnd (str : CString) (p : UInt8 → Bool) (i : Nat) : Nat :=
  i + ((str.chars.drop i).takeWhile p).length

theorem le_scanEnd (str : CString) (p : UInt8 → Bool) (i : Nat) : i ≤ scanEnd str p i :=
  Nat.le_add_right i _

/-- A scan ends in the string. -/
theorem scanEnd_le (hi : i ≤ str.chars.length) : scanEnd str p i ≤ str.chars.length := by
  have hle := (List.takeWhile_prefix p (l := str.chars.drop i)).length_le
  rw [List.length_drop] at hle
  unfold scanEnd
  omega

/-- What is left behind the end of a scan. -/
theorem drop_scanEnd : str.chars.drop (scanEnd str p i) = (str.chars.drop i).dropWhile p := by
  unfold scanEnd
  rw [← List.drop_drop]
  generalize str.chars.drop i = rest
  calc rest.drop (rest.takeWhile p).length
    _ = (rest.takeWhile p ++ rest.dropWhile p).drop (rest.takeWhile p).length := by
      rw [List.takeWhile_append_dropWhile]
    _ = rest.dropWhile p := List.drop_left

/-- What a scan has gone over. -/
theorem substr_scanEnd :
    substr str i (scanEnd str p i - i) = (str.chars.drop i).takeWhile p := by
  unfold substr scanEnd
  rw [Nat.add_sub_cancel_left]
  exact (List.prefix_iff_eq_take.mp (List.takeWhile_prefix p)).symm

/-- The first character of what is left. -/
theorem charAt_of_lt (hi : i < str.chars.length) :
    charAt str i = .ok str.chars[i] ∧ str.chars[i] ≠ 0 ∧
      str.chars.drop i = str.chars[i] :: str.chars.drop (i + 1) := by
  refine ⟨by simp [charAt, hi], ?_, List.drop_eq_getElem_cons hi⟩
  intro h0
  have hmem := List.getElem_mem hi
  rw [h0] at hmem
  exact str.noNul hmem

/-- The terminator. -/
theorem charAt_length : charAt str str.chars.length = .ok 0 := by simp [charAt]

/-- A scan stays in the string; it overflows exactly if its end is no `int`. -/
theorem scanFrom_eq (fuel : Nat) (hi : i ≤ str.chars.length) (hint : i ≤ 2147483647)
    (hfuel : str.chars.length < fuel + i) :
    scanFrom str p fuel i =
      if scanEnd str p i ≤ 2147483647 then .ok (scanEnd str p i) else .error .overflow := by
  induction fuel generalizing i with
  | zero => omega
  | succ fuel ih =>
    rw [scanFrom]
    by_cases hlen : i = str.chars.length
    · subst hlen
      have hend : scanEnd str p str.chars.length = str.chars.length := by simp [scanEnd]
      rw [hend, if_pos hint, charAt_length]
      rfl
    · have hlt : i < str.chars.length := by omega
      obtain ⟨hchar, hne, hdrop⟩ := charAt_of_lt hlt
      rw [hchar]
      by_cases hp : p str.chars[i] = true
      · have hend : scanEnd str p i = scanEnd str p (i + 1) := by
          unfold scanEnd
          rw [hdrop, List.takeWhile_cons, if_pos hp, List.length_cons]
          omega
        by_cases hmax : i < 2147483647
        · simp [hne, hp, incr, hmax, bind, Except.bind, hend, ih (i := i + 1) (by omega) (by omega)
            (by omega)]
        · have hover : ¬ scanEnd str p (i + 1) ≤ 2147483647 := by
            have := le_scanEnd str p (i + 1)
            omega
          simp [hne, hp, incr, hmax, bind, Except.bind, hend, hover]
      · have hend : scanEnd str p i = i := by
          unfold scanEnd
          rw [hdrop, List.takeWhile_cons, if_neg hp]
          rfl
        simp [hp, hend, hint, bind, Except.bind, pure, Except.pure]

/-- An index, unless it is no `int`. -/
def asInt (n : Nat) : Except Stop Nat := if n ≤ 2147483647 then .ok n else .error .overflow

/-- See `scanFrom_eq`. -/
theorem scan_eq (hi : i ≤ str.chars.length) (hint : i ≤ 2147483647) :
    scan str p i = asInt (scanEnd str p i) :=
  scanFrom_eq _ hi hint (by omega)

/-- Two indices, of which the second is not smaller: the second one decides. -/
theorem asInt_bind {α : Type} {m n : Nat} (h : m ≤ n) (x : α) (f : Nat → Except Stop α)
    (hf : m ≤ 2147483647 → f m = if n ≤ 2147483647 then .ok x else .error .overflow) :
    asInt m >>= f = if n ≤ 2147483647 then .ok x else .error .overflow := by
  unfold asInt
  by_cases hm : m ≤ 2147483647
  · rw [if_pos hm]
    exact hf hm
  · rw [if_neg hm, if_neg (by omega)]
    rfl

/-- The ends of the scans of one turn. -/
structure TurnEnds (str : CString) (i : Nat) (t : Turn) : Prop where
  keyStart : t.keyStart = scanEnd str beforeKey i
  keyEnd : t.keyEnd = scanEnd str inKey t.keyStart
  valueStart : t.valueStart = scanEnd str beforeValue t.keyEnd
  valueEnd : t.valueEnd = scanEnd str inValue t.valueStart

/-- One turn: the scans follow each other. -/
theorem TurnEnds.turnFrom_eq {t : Turn} (ht : TurnEnds str i t) (hi : i ≤ str.chars.length)
    (hint : i ≤ 2147483647) :
    turnFrom str i = if t.valueEnd ≤ 2147483647 then .ok t else .error .overflow := by
  obtain ⟨keyStart, keyEnd, valueStart, valueEnd⟩ := t
  obtain ⟨h1, h2, h3, h4⟩ := ht
  simp only at h1 h2 h3 h4
  have hlen1 : keyStart ≤ str.chars.length := h1 ▸ scanEnd_le hi
  have hlen2 : keyEnd ≤ str.chars.length := h2 ▸ scanEnd_le hlen1
  have hlen3 : valueStart ≤ str.chars.length := h3 ▸ scanEnd_le hlen2
  have hle2 : keyStart ≤ keyEnd := h2 ▸ le_scanEnd str inKey keyStart
  have hle3 : keyEnd ≤ valueStart := h3 ▸ le_scanEnd str beforeValue keyEnd
  have hle4 : valueStart ≤ valueEnd := h4 ▸ le_scanEnd str inValue valueStart
  unfold turnFrom
  rw [scan_eq hi hint, ← h1]
  refine asInt_bind (show keyStart ≤ valueEnd by omega) _ _ fun hmax1 => ?_
  rw [scan_eq hlen1 hmax1, ← h2]
  refine asInt_bind (show keyEnd ≤ valueEnd by omega) _ _ fun hmax2 => ?_
  rw [scan_eq hlen2 hmax2, ← h3]
  refine asInt_bind hle4 _ _ fun hmax3 => ?_
  rw [scan_eq hlen3 hmax3, ← h4]
  refine asInt_bind (Nat.le_refl _) _ _ fun hmax4 => ?_
  rw [if_pos hmax4]
  rfl

/-- What one turn finds is what `scanEntry` finds. -/
theorem TurnEnds.scanEntry_eq {t : Turn} (ht : TurnEnds str i t) :
    scanEntry (str.chars.drop i) =
      (substr str t.keyStart (t.keyEnd - t.keyStart),
        substr str t.valueStart (t.valueEnd - t.valueStart), str.chars.drop t.valueEnd) := by
  rw [ht.valueEnd, substr_scanEnd, drop_scanEnd, ht.valueStart, drop_scanEnd, ht.keyEnd,
    substr_scanEnd, drop_scanEnd, ht.keyStart, drop_scanEnd]
  rfl

/-- There are ends of a turn, in the string. -/
theorem exists_turnEnds (hi : i ≤ str.chars.length) :
    ∃ t, TurnEnds str i t ∧ t.valueEnd ≤ str.chars.length :=
  ⟨⟨_, _, _, _⟩, ⟨rfl, rfl, rfl, rfl⟩, scanEnd_le (scanEnd_le (scanEnd_le (scanEnd_le hi)))⟩

/-- A scan has gone over nothing exactly if it ends where it starts. -/
theorem substr_ne_nil : substr str i (scanEnd str p i - i) ≠ [] ↔ i < scanEnd str p i := by
  rw [substr_scanEnd, ← List.length_pos_iff_ne_nil]
  unfold scanEnd
  omega

/-- The return value for `has_kv`. -/
def flag (hasKv : Bool) : Int := if hasKv then 1 else 0

/-- The loop reads what `parseLoop` reads; it overflows exactly if the end of the string is
no `int`. -/
theorem parseFrom_eq (fuel : Nat) (hi : i ≤ str.chars.length) (hint : i ≤ 2147483647)
    (hfuel : str.chars.length < fuel + i) (result : KvMap) (hasKv : Bool) :
    parseFrom str fuel i result (flag hasKv) =
      if str.chars.length ≤ 2147483647 then
        .ok (flag (parseLoop (str.chars.drop i) result hasKv).1,
          (parseLoop (str.chars.drop i) result hasKv).2)
      else .error .overflow := by
  induction fuel generalizing i result hasKv with
  | zero => omega
  | succ fuel ih =>
    rw [parseFrom]
    by_cases hlen : i = str.chars.length
    · subst hlen
      rw [if_pos hint, charAt_length]
      simp [parseLoop_nil, bind, Except.bind, pure, Except.pure]
    · have hlt : i < str.chars.length := by omega
      obtain ⟨hchar, hne, hdrop⟩ := charAt_of_lt hlt
      have hcons : str.chars.drop i ≠ [] := by
        rw [hdrop]
        exact List.cons_ne_nil _ _
      obtain ⟨t, ht, hend⟩ := exists_turnEnds hi
      have hlt := scanEntry_lt hcons
      rw [ht.scanEntry_eq, List.length_drop, List.length_drop] at hlt
      have hkey : substr str t.keyStart (t.keyEnd - t.keyStart) ≠ [] ↔ t.keyStart < t.keyEnd :=
        ht.keyEnd ▸ substr_ne_nil
      have hvalue : substr str t.valueStart (t.valueEnd - t.valueStart) ≠ [] ↔
          t.valueStart < t.valueEnd := ht.valueEnd ▸ substr_ne_nil
      rw [parseLoop, dif_neg hcons]
      simp only [ht.scanEntry_eq, hkey, hvalue]
      have hne' : str.chars[i] ≠ 0 := hne
      simp only [hchar, bind, Except.bind, if_pos hne', ht.turnFrom_eq hi hint]
      by_cases hmax : t.valueEnd ≤ 2147483647
      · rw [if_pos hmax]
        simp only [gt_iff_lt]
        by_cases hfound : t.keyStart < t.keyEnd ∧ t.valueStart < t.valueEnd
        · rw [if_pos hfound, if_pos hfound]
          exact ih (by omega) hmax (by omega) _ true
        · rw [if_neg hfound, if_neg hfound]
          exact ih (by omega) hmax (by omega) _ hasKv
      · rw [if_neg hmax, if_neg (by omega)]

/-- `parse_string` reads what `parseString` reads, in every string that `int` can index. -/
theorem parseStringAt_eq (str : CString) (result : KvMap) :
    parseStringAt str result =
      if str.chars.length ≤ 2147483647 then
        .ok (flag (parseString str result).1, (parseString str result).2)
      else .error .overflow := by
  have h := parseFrom_eq (str.chars.length + 1) (Nat.zero_le str.chars.length)
    (by decide) (by omega) result false
  rw [List.drop_zero] at h
  exact h

/-! ## Texts with padding -/

/-- Spaces and semicolons. -/
def Padding (pad : Str) : Prop := ∀ c ∈ pad, beforeKey c = true

instance (pad : Str) : Decidable (Padding pad) :=
  decidable_of_iff (pad.all beforeKey = true) List.all_eq_true

instance (skip taken : UInt8 → Bool) (t : Str) : Decidable (Token skip taken t) :=
  decidable_of_iff (t ≠ [] ∧ t.all taken = true ∧ t.head?.all (fun c => !skip c) = true ∧ 0 ∉ t) (by
    constructor
    · rintro ⟨hne, htaken, hstart, hnul⟩
      exact ⟨hne, List.all_eq_true.mp htaken, by simpa [Option.all_eq_true] using hstart, hnul⟩
    · rintro ⟨hne, htaken, hstart, hnul⟩
      exact ⟨hne, List.all_eq_true.mpr htaken, by simpa [Option.all_eq_true] using hstart, hnul⟩)

/-- The texts that a list of pairs may be written as: spaces around each equals sign, and spaces
and semicolons before, between and after the pairs. Two pairs are kept apart by at least one of
them. -/
inductive Written : List (Str × Str) → Str → Prop
  | nil {pad : Str} (hpad : Padding pad) : Written [] pad
  | cons {pad rest : Str} {e : Str × Str} {es : List (Str × Str)} (hpad : Padding pad)
      (hk : Key e.1) (hv : Value e.2) (before after : Nat)
      (hrest : ∀ c ∈ rest.head?, beforeKey c = true) (h : Written es rest) :
      Written (e :: es) (pad ++ (spacedText e before after ++ rest))

/-- Padding before a key is skipped. -/
theorem parseLoop_padding {pad : Str} (hpad : Padding pad) (rest : Str) (result : KvMap)
    (hasKv : Bool) : parseLoop (pad ++ rest) result hasKv = parseLoop rest result hasKv := by
  induction pad with
  | nil => rfl
  | cons c pad ih =>
    rw [List.cons_append, parseLoop_skip (hpad c List.mem_cons_self)]
    exact ih fun c' hc' => hpad c' (List.mem_cons_of_mem c hc')

/-- The loop stores the pairs, one after the other. -/
theorem Written.parseLoop_eq {es : List (Str × Str)} {text : Str} (h : Written es text)
    (result : KvMap) (hasKv : Bool) :
    parseLoop text result hasKv = (hasKv || !es.isEmpty, result.insertMany es) := by
  induction h generalizing result hasKv with
  | nil hpad =>
    have hskip := parseLoop_padding hpad [] result hasKv
    rw [List.append_nil] at hskip
    simp [hskip, parseLoop_nil]
  | cons hpad hk hv before after hrest h ih =>
    rw [parseLoop_padding hpad, parseLoop_spaced hk hv before after _ hrest, ih,
      Std.ExtTreeMap.insertMany_cons]
    simp

/-- The value of the last pair with the key. -/
def lastValue (es : List (Str × Str)) (k : Str) : Option Str :=
  (es.reverse.find? fun e => e.1 = k).map Prod.snd

/-- Each key gets the value of its last pair. -/
theorem getElem?_insertMany (es : List (Str × Str)) (result : KvMap) (k : Str) :
    (result.insertMany es)[k]? = (lastValue es k).or result[k]? := by
  induction es generalizing result with
  | nil => simp [lastValue]
  | cons e es ih =>
    rw [Std.ExtTreeMap.insertMany_cons, ih, Std.ExtTreeMap.getElem?_insert]
    unfold lastValue
    rw [List.reverse_cons, List.find?_append]
    cases es.reverse.find? fun e => e.1 = k with
    | some e' => simp
    | none =>
      by_cases hk : e.1 = k
      · simp [hk]
      · simp [hk, Std.LawfulEqCmp.compare_eq_iff_eq]

/-- **`parse_string`** reads no character behind the terminator and always ends; on a string of
fewer than 2^31 characters it reads the pairs that the string was written for, and returns 1 if
there are any. -/
theorem parseStringAt_written (str : CString) (result : KvMap) :
    parseStringAt str result ≠ .error .pastNul ∧ parseStringAt str result ≠ .error .notDone ∧
      (str.chars.length < 2147483648 →
        (∃ r m, parseStringAt str result = .ok (r, m)) ∧
        ∀ es, Written es str.chars → ∃ m, parseStringAt str ∅ = .ok (if es = [] then 0 else 1, m) ∧
          ∀ k, m[k]? = lastValue es k) := by
  refine ⟨?_, ?_, ?_⟩
  · rw [parseStringAt_eq]
    split <;> simp
  · rw [parseStringAt_eq]
    split <;> simp
  · intro hlen
    have hmax : str.chars.length ≤ 2147483647 := by omega
    refine ⟨⟨_, _, by rw [parseStringAt_eq, if_pos hmax]⟩, ?_⟩
    intro es hes
    have hloop := hes.parseLoop_eq ∅ false
    refine ⟨(∅ : KvMap).insertMany es, ?_, ?_⟩
    · rw [parseStringAt_eq, if_pos hmax, parseString, hloop]
      cases es <;> simp [flag]
    · intro k
      rw [getElem?_insertMany]
      simp

/-- `k1=v1; k2 =  v2  ; k1=v5;  `. -/
def basicText : CString where
  chars := [107, 49, 61, 118, 49, 59, 32, 107, 50, 32, 61, 32, 32, 118, 50, 32, 32, 59, 32,
    107, 49, 61, 118, 53, 59, 32, 32]
  noNul := by decide

/-- The last value of `k1` counts. -/
theorem parseStringAt_written_basic :
    ∃ m, parseStringAt basicText ∅ = .ok (1, m) ∧ m[([107, 49] : Str)]? = some [118, 53] ∧
      m[([107, 50] : Str)]? = some [118, 50] := by
  have h3 : Written [([107, 49], [118, 53])]
      ([32, 32, 59, 32] ++ (spacedText ([107, 49], [118, 53]) 0 0 ++ [59, 32, 32])) :=
    .cons (by decide) (by decide) (by decide) 0 0 (by simp [beforeKey, semicolon]) (.nil (by decide))
  have h2 : Written [([107, 50], [118, 50]), ([107, 49], [118, 53])]
      ([59, 32] ++ (spacedText ([107, 50], [118, 50]) 1 2 ++ _)) :=
    .cons (by decide) (by decide) (by decide) 1 2 (by simp [beforeKey, space]) h3
  have h1 : Written [([107, 49], [118, 49]), ([107, 50], [118, 50]), ([107, 49], [118, 53])]
      ([] ++ (spacedText ([107, 49], [118, 49]) 0 0 ++ _)) :=
    .cons (by decide) (by decide) (by decide) 0 0 (by simp [beforeKey, semicolon]) h2
  obtain ⟨m, hparse, hget⟩ :=
    ((parseStringAt_written basicText ∅).2.2 (by decide)).2 _ h1
  exact ⟨m, hparse, (hget _).trans (by decide), (hget _).trans (by decide)⟩

/-- The index of the terminator of a string of 2^31 characters is no `int`. -/
theorem parseStringAt_overflow :
    ∃ str : CString, str.chars = List.replicate 2147483648 97 ∧
      parseStringAt str ∅ = .error .overflow := by
  obtain ⟨n, hn⟩ : ∃ n, n = 2147483648 := ⟨_, rfl⟩
  rw [← hn]
  have hnul : (0 : UInt8) ∉ List.replicate n (97 : UInt8) := by
    intro h
    exact absurd (List.eq_of_mem_replicate h) (by decide)
  refine ⟨⟨List.replicate n 97, hnul⟩, rfl, ?_⟩
  rw [parseStringAt_eq, if_neg]
  rw [List.length_replicate]
  omega

end Donkeyji.Cpp
