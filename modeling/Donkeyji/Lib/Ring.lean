/-
Donkeyji.Lib.Ring — circular doubly linked lists with a sentinel.

`Span next prev a l b` says that the links lead from the node `a` through the
nodes `l` to the node `b`, and back. A `Ring` is a span from its sentinel to
itself. The rules are the two writes that put a node in before another one and
the two that take a node out.
-/
import Mathlib.Data.List.Nodup
import Mathlib.Tactic

namespace LinkedList

variable {α : Type*} {next prev next' prev' : α → α} {a b c s : α} {l m : List α}

/-- From `a` through `l` to `b`, linked both ways. -/
def Span (next prev : α → α) : α → List α → α → Prop
  | a, [], b => next a = b ∧ prev b = a
  | a, c :: l, b => (next a = c ∧ prev c = a) ∧ Span next prev c l b

@[simp] theorem span_cons :
    Span next prev a (c :: l) b ↔ (next a = c ∧ prev c = a) ∧ Span next prev c l b := Iff.rfl

theorem span_append :
    Span next prev a (l ++ c :: m) b ↔ Span next prev a l c ∧ Span next prev c m b := by
  induction l generalizing a with
  | nil => rfl
  | cons d l ih => simp only [List.cons_append, span_cons, ih, and_assoc]

/-- The node before the end of a span. -/
theorem Span.prev_mem (h : Span next prev a l b) : prev b ∈ a :: l := by
  induction l generalizing a with
  | nil => simp [h.2]
  | cons c l ih => exact List.mem_cons_of_mem a (ih h.2)

/-- Other links do not matter. -/
theorem Span.congr (h : Span next prev a l b) (hnext : ∀ c ∈ a :: l, next' c = next c)
    (hprev : ∀ c ∈ l ++ [b], prev' c = prev c) : Span next' prev' a l b := by
  induction l generalizing a with
  | nil => exact ⟨(hnext a (by simp)).trans h.1, (hprev b (by simp)).trans h.2⟩
  | cons c l ih =>
    refine ⟨⟨(hnext a (by simp)).trans h.1.1, (hprev c (by simp)).trans h.1.2⟩, ih h.2 ?_ ?_⟩
    · exact fun d hd => hnext d (List.mem_cons_of_mem a hd)
    · exact fun d hd => hprev d (List.mem_cons_of_mem c hd)

/-- The last node is linked to another one. -/
theorem Span.redirect (h : Span next prev a l b) (hnodup : (a :: l).Nodup)
    (hnext : ∀ d ∈ a :: l, d ≠ prev b → next' d = next d) (hprev : ∀ d ∈ l, prev' d = prev d)
    (hlast : next' (prev b) = c) (hback : prev' c = prev b) : Span next' prev' a l c := by
  induction l generalizing a with
  | nil => exact h.2 ▸ ⟨hlast, hback⟩
  | cons d l ih =>
    obtain ⟨hnot, hnodup⟩ := List.nodup_cons.mp hnodup
    have hne : a ≠ prev b := fun heq => hnot (heq ▸ h.2.prev_mem)
    refine ⟨⟨(hnext a (by simp) hne).trans h.1.1, (hprev d (by simp)).trans h.1.2⟩, ?_⟩
    exact ih h.2 hnodup (fun e he => hnext e (List.mem_cons_of_mem a he))
      fun e he => hprev e (List.mem_cons_of_mem d he)

/-- A node among the others, apart from the sentinel. -/
theorem nodup_middle_iff : (s :: (l ++ a :: m)).Nodup ↔ (a :: s :: (l ++ m)).Nodup := by
  rw [← List.cons_append, List.nodup_middle, List.cons_append]

/-- The nodes `l` in a circle with the sentinel `s`. -/
structure Ring (next prev : α → α) (s : α) (l : List α) : Prop where
  nodup : (s :: l).Nodup
  span : Span next prev s l s

namespace Ring

theorem clear (hnext : next s = s) (hprev : prev s = s) : Ring next prev s [] :=
  ⟨List.nodup_singleton s, hnext, hprev⟩

theorem congr (h : Ring next prev s l) (hnext : ∀ c ∈ s :: l, next' c = next c)
    (hprev : ∀ c ∈ s :: l, prev' c = prev c) : Ring next' prev' s l := by
  refine ⟨h.nodup, h.span.congr hnext fun c hc => hprev c ?_⟩
  simpa [or_comm] using hc

theorem first (h : Ring next prev s l) : next s = l.headD s := by
  cases l with
  | nil => exact h.span.1
  | cons a l => exact h.span.1.1

/-- The ring is empty if the sentinel is its own successor. -/
theorem eq_nil_iff (h : Ring next prev s l) : next s = s ↔ l = [] := by
  cases l with
  | nil => exact iff_of_true h.first rfl
  | cons a l =>
    refine iff_of_false (fun heq => ?_) (List.cons_ne_nil a l)
    have ha : a = s := h.first.symm.trans heq
    exact (List.nodup_cons.mp h.nodup).1 (ha ▸ List.mem_cons_self)

/-- The node before another one, or before the sentinel. -/
theorem prev_mem (h : Ring next prev s (l ++ m)) : prev (m.headD s) ∈ s :: (l ++ m) := by
  cases m with
  | nil => simpa using h.span.prev_mem
  | cons x m => exact List.mem_append_left (x :: m) (span_append.mp h.span).1.prev_mem

/-- The nodes around another one. -/
theorem around_mem (h : Ring next prev s (l ++ a :: m)) :
    prev a ∈ s :: (l ++ m) ∧ next a ∈ s :: (l ++ m) := by
  obtain ⟨hl, hm⟩ := span_append.mp h.span
  refine ⟨List.mem_append_left m hl.prev_mem, ?_⟩
  cases m with
  | nil => simp [hm.1]
  | cons x m => simp [hm.1.1]

/-- **A node is put in before another one**, or before the sentinel. -/
theorem insert (h : Ring next prev s (l ++ m)) (ha : a ∉ s :: (l ++ m)) {p : α}
    (hp : p = m.headD s) (hnext : next' (prev p) = a ∧ next' a = p)
    (hprev : prev' a = prev p ∧ prev' p = a)
    (hnexts : ∀ c, c ≠ prev p → c ≠ a → next' c = next c)
    (hprevs : ∀ c, c ≠ a → c ≠ p → prev' c = prev c) : Ring next' prev' s (l ++ a :: m) := by
  have hnew : ∀ {c}, c ∈ s :: (l ++ m) → c ≠ a := fun hc heq => ha (heq ▸ hc)
  have hnodup : (s :: (l ++ a :: m)).Nodup :=
    nodup_middle_iff.mpr (List.nodup_cons.mpr ⟨ha, h.nodup⟩)
  refine ⟨hnodup, span_append.mpr ?_⟩
  cases m with
  | nil =>
    change p = s at hp
    subst p
    rw [List.append_nil] at h ha hnew
    refine ⟨h.span.redirect h.nodup (fun d hd hne => hnexts d hne (hnew hd)) (fun d hd => ?_)
      hnext.1 hprev.1, hnext.2, hprev.2⟩
    refine hprevs d (hnew (List.mem_cons_of_mem s hd)) fun heq => ?_
    exact (List.nodup_cons.mp h.nodup).1 (heq ▸ hd)
  | cons x m =>
    change p = x at hp
    subst p
    obtain ⟨hl, hm⟩ := span_append.mp h.span
    have hsplit : (s :: l).Nodup ∧ (x :: m).Nodup ∧ ∀ c ∈ s :: l, ∀ d ∈ x :: m, c ≠ d :=
      List.nodup_append.mp h.nodup
    have hlm : ∀ {c}, c ∈ s :: l → c ∈ s :: (l ++ x :: m) := fun hc =>
      List.mem_append_left (x :: m) hc
    have hml : ∀ {c}, c ∈ x :: m → c ∈ s :: (l ++ x :: m) := fun hc =>
      List.mem_append_right (s :: l) hc
    refine ⟨hl.redirect hsplit.1 (fun d hd hne => hnexts d hne (hnew (hlm hd))) (fun d hd => ?_)
      hnext.1 hprev.1, ⟨hnext.2, hprev.2⟩, hm.congr (fun d hd => ?_) fun d hd => ?_⟩
    · have hmem := List.mem_cons_of_mem s hd
      exact hprevs d (hnew (hlm hmem)) (hsplit.2.2 d hmem x List.mem_cons_self)
    · exact hnexts d (hsplit.2.2 _ hl.prev_mem d hd).symm (hnew (hml hd))
    · rcases List.mem_append.mp hd with hd | hd
      · have hmem := List.mem_cons_of_mem x hd
        refine hprevs d (hnew (hml hmem)) fun heq => ?_
        exact (List.nodup_cons.mp hsplit.2.1).1 (heq ▸ hd)
      · rw [List.mem_singleton.mp hd]
        exact hprevs s (hnew List.mem_cons_self)
          (hsplit.2.2 s List.mem_cons_self x List.mem_cons_self)

/-- **A node is taken out.** -/
theorem remove (h : Ring next prev s (l ++ a :: m)) (hnext : next' (prev a) = next a)
    (hprev : prev' (next a) = prev a) (hnexts : ∀ c, c ≠ prev a → next' c = next c)
    (hprevs : ∀ c, c ≠ next a → prev' c = prev c) : Ring next' prev' s (l ++ m) := by
  obtain ⟨hl, hm⟩ := span_append.mp h.span
  have hall : (a :: s :: (l ++ m)).Nodup := nodup_middle_iff.mp h.nodup
  have hnodup := (List.nodup_cons.mp hall).2
  refine ⟨hnodup, ?_⟩
  cases m with
  | nil =>
    have hs : next a = s := hm.1
    rw [List.append_nil] at hnodup ⊢
    refine hl.redirect hnodup (fun d _ hne => hnexts d hne) (fun d hd => hprevs d ?_)
      (hnext.trans hs) (hs ▸ hprev)
    rintro rfl
    exact (List.nodup_cons.mp hnodup).1 (hs ▸ hd)
  | cons x m =>
    obtain ⟨⟨hx, -⟩, hm⟩ := hm
    have hsplit : (s :: l).Nodup ∧ (x :: m).Nodup ∧ ∀ c ∈ s :: l, ∀ d ∈ x :: m, c ≠ d :=
      List.nodup_append.mp hnodup
    refine span_append.mpr ⟨hl.redirect hsplit.1 (fun d _ hne => hnexts d hne)
      (fun d hd => hprevs d ?_) (hnext.trans hx) (hx ▸ hprev), hm.congr (fun d hd => hnexts d ?_)
      fun d hd => hprevs d ?_⟩
    · rw [hx]
      exact hsplit.2.2 d (List.mem_cons_of_mem s hd) x List.mem_cons_self
    · exact (hsplit.2.2 _ hl.prev_mem d hd).symm
    · rw [hx]
      rcases List.mem_append.mp hd with hd | hd
      · rintro rfl
        exact (List.nodup_cons.mp hsplit.2.1).1 hd
      · rw [List.mem_singleton.mp hd]
        exact hsplit.2.2 s List.mem_cons_self x List.mem_cons_self

end Ring

end LinkedList
