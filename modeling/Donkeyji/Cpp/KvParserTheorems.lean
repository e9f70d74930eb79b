/-
Donkeyji.Cpp.KvParserTheorems — what `make_str` prints, `parse_string` reads
back.

A `Token` is what one of the scans can find: the entries of a parsed map are
tokens (`scannable_kvParser`). The C string of `make_str` is the entries joined
with semicolons (`chars_makeStr`), and a loop turn takes one entry off such a
string (`parseLoop_joined`).
-/
import Donkeyji.Cpp.KvParser

namespace Donkeyji.Cpp

/-! ## Tokens -/

/-- What is found by skipping some characters and taking others. -/
structure Token (skip taken : UInt8 → Bool) (t : Str) : Prop where
  nonempty : t ≠ []
  taken : ∀ c ∈ t, taken c
  start : ∀ c ∈ t.head?, skip c = false
  noNul : 0 ∉ t

variable {skip taken : UInt8 → Bool}

/-- A scan finds a token or nothing. -/
theorem token_of_scan {str : Str} (hnul : 0 ∉ str)
    (h : (str.dropWhile skip).takeWhile taken ≠ []) :
    Token skip taken ((str.dropWhile skip).takeWhile taken) := by
  refine ⟨h, fun c hc => List.mem_takeWhile_imp hc, ?_, ?_⟩
  · intro c hc
    cases hrest : str.dropWhile skip with
    | nil =>
      rw [hrest] at hc
      cases hc
    | cons d rest =>
      have hd : skip d = false := by
        have hfirst := List.head?_dropWhile_not skip str
        rw [hrest] at hfirst
        simpa using hfirst
      rw [hrest, List.takeWhile_cons] at hc
      split at hc
      · have hcd : d = c := by simpa using hc
        rw [← hcd]
        exact hd
      · cases hc
  · intro hmem
    have hdrop : (0 : UInt8) ∈ str.dropWhile skip := (List.takeWhile_prefix taken).subset hmem
    exact hnul ((List.dropWhile_suffix skip).subset hdrop)

/-- A token is not skipped. -/
theorem Token.dropWhile_skip {t : Str} (ht : Token skip taken t) (rest : Str) :
    (t ++ rest).dropWhile skip = t ++ rest := by
  cases t with
  | nil => exact absurd rfl ht.nonempty
  | cons c t =>
    have hc := ht.start c rfl
    simp [hc]

/-- A token ends where a character is not taken. -/
theorem Token.scan {t : Str} (ht : Token skip taken t) (rest : Str)
    (hrest : ∀ c ∈ rest.head?, taken c = false) :
    (t ++ rest).takeWhile taken = t ∧ (t ++ rest).dropWhile taken = rest := by
  rw [List.takeWhile_append_of_pos ht.taken, List.dropWhile_append_of_pos ht.taken]
  cases rest with
  | nil => simp
  | cons c rest =>
    have hc := hrest c rfl
    simp [hc]

/-- The keys that `parse_string` finds. -/
abbrev Key (k : Str) : Prop := Token beforeKey inKey k

/-- The values that `parse_string` finds. -/
abbrev Value (v : Str) : Prop := Token beforeValue inValue v

/-- Every entry of the map has the shape of a parsed one. -/
def Scannable (kv : KvMap) : Prop := ∀ k v, kv[k]? = some v → Key k ∧ Value v

theorem scannable_empty : Scannable ∅ := by
  intro k v h
  simp at h

theorem Scannable.insert {kv : KvMap} (h : Scannable kv) {k v : Str} (hk : Key k) (hv : Value v) :
    Scannable (kv.insert k v) := by
  intro k' v' hget
  rw [Std.ExtTreeMap.getElem?_insert] at hget
  split at hget
  · rename_i heq
    have hkk : k = k' := Std.LawfulEqCmp.eq_of_compare heq
    cases hget
    rw [← hkk]
    exact ⟨hk, hv⟩
  · exact h k' v' hget

/-! ## What is parsed -/

/-- What a turn leaves of the string is an end of it. -/
theorem scanEntry_suffix (str : Str) : (scanEntry str).2.2 <:+ str :=
  (List.dropWhile_suffix inValue).trans ((List.dropWhile_suffix beforeValue).trans
    ((List.dropWhile_suffix inKey).trans (List.dropWhile_suffix beforeKey)))

theorem parseLoop_scannable (str : Str) (result : KvMap) (hasKv : Bool) (hnul : 0 ∉ str)
    (h : Scannable result) : Scannable (parseLoop str result hasKv).2 := by
  fun_induction parseLoop str result hasKv with
  | case1 => exact h
  | case2 str result hasKv hne entry hfound ih =>
    refine ih (fun hmem => hnul ((scanEntry_suffix str).subset hmem)) ?_
    refine h.insert (token_of_scan hnul hfound.1) (token_of_scan ?_ hfound.2)
    intro hmem
    exact hnul ((List.dropWhile_suffix beforeKey).subset ((List.dropWhile_suffix inKey).subset hmem))
  | case3 str result hasKv hne entry hfound ih =>
    exact ih (fun hmem => hnul ((scanEntry_suffix str).subset hmem)) h

/-- Every entry of a parsed map has the shape of one. -/
theorem scannable_kvParser (str : CString) : Scannable (kvParser str) :=
  parseLoop_scannable str.chars ∅ false str.noNul scannable_empty

/-! ## What is printed -/

/-- An entry as it is printed. -/
def entryText (e : Str × Str) : Str := e.1 ++ equals :: e.2

/-- The entries with semicolons between them. -/
def joined (es : List (Str × Str)) : Str := [semicolon].intercalate (es.map entryText)

theorem foldl_appendEntry (es : List (Str × Str)) (out : Str) (hne : es ≠ []) :
    es.foldl appendEntry out = out ++ joined es ++ [semicolon] := by
  induction es generalizing out with
  | nil => exact absurd rfl hne
  | cons e es ih =>
    rw [List.foldl_cons]
    cases es with
    | nil => simp [joined, appendEntry, entryText]
    | cons e' es =>
      rw [ih _ (by simp)]
      simp [joined, appendEntry, entryText, List.intercalate_cons_cons]

/-- A parsed entry is printed without a NUL. -/
theorem joined_noNul {es : List (Str × Str)} (h : ∀ e ∈ es, Key e.1 ∧ Value e.2) :
    0 ∉ joined es := by
  induction es with
  | nil => simp [joined]
  | cons e es ih =>
    have he : 0 ∉ entryText e := by
      obtain ⟨hk, hv⟩ := h e List.mem_cons_self
      simp only [entryText, List.mem_append, List.mem_cons, not_or]
      exact ⟨hk.noNul, by decide, hv.noNul⟩
    have hes := ih fun e' he' => h e' (List.mem_cons_of_mem e he')
    cases es with
    | nil => simpa [joined] using he
    | cons e' es =>
      simp only [joined, List.map_cons, List.intercalate_cons_cons, List.mem_append,
        List.mem_singleton, not_or] at hes ⊢
      exact ⟨⟨he, by decide⟩, hes⟩

/-- **The C string of `make_str`**: the semicolon that becomes a NUL ends it. -/
theorem chars_makeStr {kv : KvMap} (h : Scannable kv) :
    (cStr (makeStr kv)).chars = joined kv.toList := by
  have hes : ∀ e ∈ kv.toList, Key e.1 ∧ Value e.2 := by
    intro e he
    exact h e.1 e.2 (Std.ExtTreeMap.mem_toList_iff_getElem?_eq_some.mp he)
  have hnul := joined_noNul hes
  by_cases hempty : kv.toList = []
  · simp [cStr, makeStr, hempty, joined]
  · have hout := foldl_appendEntry kv.toList [] hempty
    have hset : makeStr kv = joined kv.toList ++ [0] := by
      simp [makeStr, hout]
    have htake : ∀ c ∈ joined kv.toList, decide (c ≠ 0) = true := by
      intro c hc
      have hne : c ≠ 0 := fun h0 => hnul (h0 ▸ hc)
      simpa using hne
    simp only [cStr, hset]
    rw [List.takeWhile_append_of_pos htake]
    simp

/-! ## Reading it back -/

theorem parseLoop_nil (result : KvMap) (hasKv : Bool) :
    parseLoop [] result hasKv = (hasKv, result) := by
  rw [parseLoop, dif_pos rfl]

/-- A semicolon or a space before a key is skipped. -/
theorem parseLoop_skip {c : UInt8} (hskip : beforeKey c = true) (str : Str) (result : KvMap)
    (hasKv : Bool) : parseLoop (c :: str) result hasKv = parseLoop str result hasKv := by
  have hscan : scanEntry (c :: str) = scanEntry str := by simp [scanEntry, hskip]
  rw [parseLoop, dif_neg (by simp)]
  simp only [hscan]
  by_cases hstr : str = []
  · subst hstr
    simp [scanEntry, parseLoop_nil]
  · conv => rhs; rw [parseLoop, dif_neg hstr]

/-- An entry with spaces around the equals sign. -/
def spacedText (e : Str × Str) (before after : Nat) : Str :=
  e.1 ++ (List.replicate before space ++ equals :: (List.replicate after space ++ e.2))

/-- A turn takes one entry. -/
theorem parseLoop_spaced {e : Str × Str} (hk : Key e.1) (hv : Value e.2) (before after : Nat)
    (rest : Str) (hrest : ∀ c ∈ rest.head?, beforeKey c = true) (result : KvMap) (hasKv : Bool) :
    parseLoop (spacedText e before after ++ rest) result hasKv =
      parseLoop rest (result.insert e.1 e.2) true := by
  have hspaces : ∀ n, ∀ c ∈ List.replicate n space, beforeValue c = true := by
    intro n c hc
    rw [List.eq_of_mem_replicate hc]
    decide
  have hkey := hk.scan
    (List.replicate before space ++ equals :: (List.replicate after space ++ (e.2 ++ rest))) (by
      intro c hc
      cases before with
      | zero =>
        cases hc
        decide
      | succ n =>
        cases hc
        decide)
  have hvalue := hv.scan rest (by
    intro c hc
    have hskip := hrest c hc
    simp only [beforeKey, inValue, Bool.or_eq_true, decide_eq_true_eq] at *
    rcases hskip with rfl | rfl <;> decide)
  have hequals : beforeValue equals = true := by decide
  have hscan : scanEntry (spacedText e before after ++ rest) = (e.1, e.2, rest) := by
    simp only [scanEntry, spacedText, List.append_assoc, List.cons_append]
    rw [hk.dropWhile_skip, hkey.1, hkey.2, List.dropWhile_append_of_pos (hspaces before),
      List.dropWhile_cons, if_pos hequals, List.dropWhile_append_of_pos (hspaces after),
      hv.dropWhile_skip, hvalue.1, hvalue.2]
  rw [parseLoop, dif_neg (by simp [spacedText])]
  simp only [hscan]
  rw [if_pos ⟨hk.nonempty, hv.nonempty⟩]

/-- The loop stores the entries of a joined text, one after the other. -/
theorem parseLoop_joined {es : List (Str × Str)} (h : ∀ e ∈ es, Key e.1 ∧ Value e.2)
    (result : KvMap) (hasKv : Bool) :
    (parseLoop (joined es) result hasKv).2 = result.insertMany es := by
  induction es generalizing result hasKv with
  | nil => simp [joined, parseLoop_nil]
  | cons e es ih =>
    obtain ⟨hk, hv⟩ := h e List.mem_cons_self
    have hes := ih fun e' he' => h e' (List.mem_cons_of_mem e he')
    rw [Std.ExtTreeMap.insertMany_cons]
    cases es with
    | nil =>
      have hturn := parseLoop_spaced hk hv 0 0 [] (by simp) result hasKv
      simp only [spacedText, List.replicate_zero, List.nil_append, List.append_nil] at hturn
      simp [joined, entryText, hturn, parseLoop_nil]
    | cons e' es =>
      have hcut : joined (e :: e' :: es) = spacedText e 0 0 ++ semicolon :: joined (e' :: es) := by
        simp [joined, entryText, spacedText, List.intercalate_cons_cons]
      rw [hcut, parseLoop_spaced hk hv 0 0 _ (by simp [beforeKey]), parseLoop_skip (by decide)]
      exact hes _ true

/-- Storing the entries of a map in an empty one gives the map. -/
theorem insertMany_toList (kv : KvMap) : (∅ : KvMap).insertMany kv.toList = kv := by
  refine Std.ExtTreeMap.ext_getElem? fun k => ?_
  cases hget : kv[k]? with
  | some v =>
    have hmem := Std.ExtTreeMap.mem_toList_iff_getElem?_eq_some.mpr hget
    exact Std.ExtTreeMap.getElem?_insertMany_list_of_mem Std.ReflCmp.compare_self
      Std.ExtTreeMap.distinct_keys_toList hmem
  | none =>
    rw [Std.ExtTreeMap.getElem?_insertMany_list_of_contains_eq_false]
    · simp
    · by_contra hmem
      simp only [Bool.not_eq_false, List.contains_eq_mem, decide_eq_true_eq, List.mem_map] at hmem
      obtain ⟨e, he, hek⟩ := hmem
      have hsome := Std.ExtTreeMap.mem_toList_iff_getElem?_eq_some.mp he
      rw [hek, hget] at hsome
      cases hsome

end Donkeyji.Cpp
