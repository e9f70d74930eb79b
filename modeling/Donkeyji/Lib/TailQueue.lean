/-
Donkeyji.Lib.TailQueue — tail queues in memory (`TAILQ` of the BSD `queue.h`).

The head has a pointer to the first element and the address of the last link;
an element has a pointer to the next one and the address of the link that
points to it. A link is the head's `tqhFirst` (`none`) or the `tqeNext` of an
element (`some a`). The entries of all elements are part of the queue value,
also those of elements that are on no queue and were never set.

`Represents q l` says that the queue is well formed and holds exactly the
elements `l`, in this order. The operations refine appending and erasing.
`Within q S` is what stays true without any condition on the calls: every
pointer that can be followed leads to an element that was once inserted.
-/
import Mathlib.Tactic

/-- A tail queue: the head, and the entries of the elements. -/
structure TailQ (α : Type*) where
  tqhFirst : Option α
  tqhLast : Option α
  tqeNext : α → Option α
  tqePrev : α → Option α

namespace TailQ

variable {α : Type*} {q q' : TailQ α}

/-- The pointer in a link. -/
def load (q : TailQ α) : Option α → Option α
  | none => q.tqhFirst
  | some a => q.tqeNext a

/-- `TAILQ_INIT`. -/
def init (q : TailQ α) : TailQ α := { q with tqhFirst := none, tqhLast := none }

/-! ## Segments -/

/-- From the link `s` one meets the elements `l` and arrives at the link `e`; every element
points back to the link it was met from. -/
def Seg (q : TailQ α) : Option α → List α → Option α → Prop
  | s, [], e => s = e
  | s, a :: l, e => q.load s = some a ∧ q.tqePrev a = s ∧ Seg q (some a) l e

@[simp] theorem seg_nil {s e : Option α} : Seg q s [] e ↔ s = e := Iff.rfl

@[simp] theorem seg_cons {s e : Option α} {a : α} {l : List α} :
    Seg q s (a :: l) e ↔ q.load s = some a ∧ q.tqePrev a = s ∧ Seg q (some a) l e := Iff.rfl

/-- A segment splits at every point of it. -/
theorem seg_append {s e : Option α} {l m : List α} :
    Seg q s (l ++ m) e ↔ ∃ x, Seg q s l x ∧ Seg q x m e := by
  induction l generalizing s with
  | nil => simp
  | cons a l ih => simp [ih, and_assoc]

/-- A segment ends at its start or at one of its elements. -/
theorem Seg.end_mem {s e : Option α} {l : List α} (h : Seg q s l e) : e ∈ s :: l.map some := by
  induction l generalizing s with
  | nil => simp [seg_nil.mp h]
  | cons a l ih =>
    have hmem := ih h.2.2
    simp only [List.map_cons, List.mem_cons] at hmem ⊢
    exact Or.inr hmem

/-- A segment depends on the links it starts from, and on the entries of its elements. -/
theorem Seg.congr {s e : Option α} {l : List α} (h : Seg q s l e)
    (hload : ∀ t ∈ s :: l.map some, t ≠ e → q'.load t = q.load t)
    (hprev : ∀ a ∈ l, q'.tqePrev a = q.tqePrev a) (hnd : (s :: l.map some).Nodup) :
    Seg q' s l e := by
  induction l generalizing s with
  | nil => exact h
  | cons a l ih =>
    obtain ⟨hs, ha, hrest⟩ := h
    obtain ⟨hnot, hnd'⟩ := List.nodup_cons.mp hnd
    have hne : s ≠ e := fun he => hnot (he ▸ hrest.end_mem)
    refine ⟨?_, ?_, ih hrest ?_ ?_ hnd'⟩
    · rw [hload s (by simp) hne]
      exact hs
    · rw [hprev a (by simp)]
      exact ha
    · exact fun t ht => hload t (List.mem_cons_of_mem s ht)
    · exact fun b hb => hprev b (by simp [hb])

/-! ## Representation -/

/-- The queue holds exactly the elements `l`, in this order. -/
structure Represents (q : TailQ α) (l : List α) : Prop where
  seg : Seg q none l q.tqhLast
  last : q.load q.tqhLast = none
  nodup : l.Nodup

theorem links_nodup {l : List α} (h : l.Nodup) : ((none : Option α) :: l.map some).Nodup := by
  refine List.nodup_cons.mpr ⟨by simp, ?_⟩
  exact h.map (Option.some_injective α)

/-- An initialised queue is empty. -/
theorem represents_init (q : TailQ α) : q.init.Represents [] := ⟨rfl, rfl, List.nodup_nil⟩

/-- The first element. -/
theorem Represents.first {l : List α} (h : q.Represents l) : q.tqhFirst = l.head? := by
  cases l with
  | nil =>
    have hlast := seg_nil.mp h.seg
    have := h.last
    rw [← hlast] at this
    exact this
  | cons a l => exact h.seg.1

/-- The element after another. -/
theorem Represents.next {a b : List α} {x : α} (h : q.Represents (a ++ x :: b)) :
    q.tqeNext x = b.head? := by
  obtain ⟨p, -, hx⟩ := seg_append.mp h.seg
  cases b with
  | nil =>
    have hlast := seg_nil.mp hx.2.2
    have := h.last
    rw [← hlast] at this
    exact this
  | cons y b => exact hx.2.2.1

/-- A segment that ends where no element follows is determined by its start. -/
theorem Seg.unique {s e e' : Option α} {l l' : List α} (h : Seg q s l e) (h' : Seg q s l' e')
    (he : q.load e = none) (he' : q.load e' = none) : l = l' := by
  induction l generalizing s l' with
  | nil =>
    cases l' with
    | nil => rfl
    | cons b l' =>
      have hs := h'.1
      rw [seg_nil.mp h, he] at hs
      cases hs
  | cons a l ih =>
    cases l' with
    | nil =>
      have hs := h.1
      rw [seg_nil.mp h', he'] at hs
      cases hs
    | cons b l' =>
      obtain rfl : a = b := Option.some.inj (h.1.symm.trans h'.1)
      rw [ih h.2.2 h'.2.2]

/-- A queue holds one list. -/
theorem Represents.unique {l l' : List α} (h : q.Represents l) (h' : q.Represents l') : l = l' :=
  h.seg.unique h'.seg h.last h'.last

/-! ## What is never inserted -/

/-- Following the pointers of the queue one only meets elements with the property. -/
structure Within (q : TailQ α) (S : α → Prop) : Prop where
  first : ∀ a, q.tqhFirst = some a → S a
  last : ∀ a, q.tqhLast = some a → S a
  next : ∀ a, S a → ∀ b, q.tqeNext a = some b → S b

theorem within_load {S : α → Prop} (h : q.Within S) {t : Option α} (ht : ∀ a, t = some a → S a)
    {b : α} (hb : q.load t = some b) : S b := by
  cases t with
  | none => exact h.first b hb
  | some a => exact h.next a (ht a rfl) b hb

/-- An initialised queue leads nowhere. -/
theorem within_init (q : TailQ α) : q.init.Within fun _ => False where
  first _ h := by cases h
  last _ h := by cases h
  next _ h := h.elim

/-! ## Insertion and removal -/

variable [DecidableEq α]

/-- Stores a pointer in a link. -/
def store (q : TailQ α) (link v : Option α) : TailQ α :=
  match link with
  | none => { q with tqhFirst := v }
  | some a => { q with tqeNext := Function.update q.tqeNext a v }

/-- `TAILQ_INSERT_TAIL`. -/
def insertTail (q : TailQ α) (elm : α) : TailQ α :=
  let q := q.store (some elm) none
  let q := { q with tqePrev := Function.update q.tqePrev elm q.tqhLast }
  let q := q.store q.tqhLast (some elm)
  { q with tqhLast := some elm }

/-- `TAILQ_REMOVE`. -/
def remove (q : TailQ α) (elm : α) : TailQ α :=
  let q :=
    match q.tqeNext elm with
    | some n => { q with tqePrev := Function.update q.tqePrev n (q.tqePrev elm) }
    | none => { q with tqhLast := q.tqePrev elm }
  q.store (q.tqePrev elm) (q.tqeNext elm)

@[simp] theorem load_store_self (q : TailQ α) (link v : Option α) :
    (q.store link v).load link = v := by
  cases link <;> simp [load, store]

theorem load_store_of_ne (q : TailQ α) {link t : Option α} (v : Option α) (h : t ≠ link) :
    (q.store link v).load t = q.load t := by
  cases link with
  | none =>
    cases t with
    | none => exact absurd rfl h
    | some b => rfl
  | some a =>
    cases t with
    | none => rfl
    | some b =>
      have hba : b ≠ a := fun e => h (congrArg some e)
      simp [load, store, hba]

@[simp] theorem tqePrev_store (q : TailQ α) (link v : Option α) :
    (q.store link v).tqePrev = q.tqePrev := by
  cases link <;> rfl

@[simp] theorem tqhLast_store (q : TailQ α) (link v : Option α) :
    (q.store link v).tqhLast = q.tqhLast := by
  cases link <;> rfl

/-- **Insertion appends.** -/
theorem represents_insertTail {l : List α} (h : q.Represents l) {x : α} (hx : x ∉ l) :
    (q.insertTail x).Represents (l ++ [x]) := by
  have hlast : some x ≠ q.tqhLast := by
    intro he
    have hmem := h.seg.end_mem
    rw [← he] at hmem
    simp [hx] at hmem
  have hload : ∀ t, t ≠ q.tqhLast → t ≠ some x → (q.insertTail x).load t = q.load t := by
    intro t ht htx
    show (TailQ.store _ _ _).load t = _
    rw [load_store_of_ne _ _ (by simpa using ht)]
    exact load_store_of_ne q _ htx
  have hprev : ∀ a, a ≠ x → (q.insertTail x).tqePrev a = q.tqePrev a := by
    intro a ha
    simp [insertTail, ha]
  have hend : (q.insertTail x).load q.tqhLast = some x := by
    show (TailQ.store _ _ _).load q.tqhLast = some x
    rw [tqhLast_store q (some x) none]
    exact load_store_self _ q.tqhLast (some x)
  refine ⟨?_, ?_, ?_⟩
  · rw [seg_append]
    refine ⟨q.tqhLast, h.seg.congr ?_ ?_ (links_nodup h.nodup), hend, ?_, rfl⟩
    · intro t ht htlast
      refine hload t htlast ?_
      intro he
      rw [he] at ht
      simp [hx] at ht
    · intro a ha
      exact hprev a fun he => hx (he ▸ ha)
    · simp [insertTail]
  · show (TailQ.store _ _ _).load (some x) = none
    rw [load_store_of_ne _ _ (by simpa using hlast)]
    exact load_store_self q (some x) none
  · rw [List.nodup_append]
    refine ⟨h.nodup, by simp, ?_⟩
    intro a ha b hb
    rw [List.mem_singleton.mp hb]
    exact fun he => hx (he ▸ ha)

/-- **Removal erases.** -/
theorem represents_remove {l : List α} (h : q.Represents l) {x : α} (hx : x ∈ l) :
    (q.remove x).Represents (l.erase x) := by
  obtain ⟨a, b, rfl⟩ := List.append_of_mem hx
  have hnd := links_nodup h.nodup
  obtain ⟨hna, hnb, hab⟩ := List.nodup_append.mp h.nodup
  have hxa : x ∉ a := fun hmem => hab x hmem x (by simp) rfl
  have herase : (a ++ x :: b).erase x = a ++ b := by
    rw [List.erase_append_right _ hxa, List.erase_cons_head]
  have hnodup : (a ++ b).Nodup := by
    rw [← herase]
    exact h.nodup.erase x
  obtain ⟨p, hsega, hp, hprevx, hsegb⟩ := seg_append.mp h.seg
  have hpmem := hsega.end_mem
  -- the link to `x` is not one of the links from `x` on
  have hpb : p ∉ b.map some := by
    intro hmem
    obtain ⟨y, hy, rfl⟩ := List.mem_map.mp hmem
    simp only [List.mem_cons, List.mem_map, Option.some.injEq, exists_eq_right, reduceCtorEq,
      false_or] at hpmem
    exact hab y hpmem y (by simp [hy]) rfl
  have hnda : ((none : Option α) :: a.map some).Nodup := links_nodup hna
  rw [herase]
  cases b with
  | nil =>
    have hlast : some x = q.tqhLast := hsegb
    have hnext : q.tqeNext x = none := by
      have := h.last
      rw [← hlast] at this
      exact this
    have hrem : q.remove x = TailQ.store { q with tqhLast := p } p none := by
      simp only [remove, hnext, hprevx]
    rw [hrem, List.append_nil]
    refine ⟨?_, ?_, hna⟩
    · rw [tqhLast_store]
      refine hsega.congr ?_ (fun _ _ => by simp) hnda
      intro t _ ht
      exact load_store_of_ne _ _ ht
    · rw [tqhLast_store]
      exact load_store_self _ p none
  | cons y b =>
    have hnext : q.tqeNext x = some y := hsegb.1
    have hxy : x ≠ y := by
      intro he
      subst he
      simp at hnb
    have hrem : q.remove x =
        TailQ.store { q with tqePrev := Function.update q.tqePrev y p } p (some y) := by
      simp only [remove, hnext, hprevx, Function.update_of_ne hxy]
    have hy : y ∉ a := fun hmem => hab y hmem y (by simp) rfl
    have hbnd : (some y :: b.map some).Nodup := by
      have := (List.nodup_cons.mp hnb).2.map (Option.some_injective α)
      simpa using this
    have hload : ∀ t, t ≠ p → (q.remove x).load t = q.load t := by
      intro t ht
      rw [hrem]
      exact load_store_of_ne _ _ ht
    have hprev : ∀ c, c ≠ y → (q.remove x).tqePrev c = q.tqePrev c := by
      intro c hc
      rw [hrem, tqePrev_store]
      exact Function.update_of_ne hc _ _
    have hlast : (q.remove x).tqhLast = q.tqhLast := by
      rw [hrem, tqhLast_store]
    have hlastmem : q.tqhLast ∈ some y :: b.map some := hsegb.2.2.end_mem
    refine ⟨?_, ?_, hnodup⟩
    · rw [hlast, seg_append]
      refine ⟨p, hsega.congr (fun t _ ht => hload t ht) ?_ hnda, ?_, ?_, ?_⟩
      · intro c hc
        exact hprev c fun he => hy (he ▸ hc)
      · rw [hrem]
        exact load_store_self _ p (some y)
      · rw [hrem, tqePrev_store]
        simp
      · refine hsegb.2.2.congr ?_ ?_ hbnd
        · intro t ht _
          refine hload t ?_
          intro he
          rw [he] at ht
          exact hpb ht
        · intro c hc
          refine hprev c ?_
          intro he
          subst he
          simp [hc] at hbnd
    · rw [hlast, hload q.tqhLast ?_]
      · exact h.last
      · intro he
        rw [he] at hlastmem
        exact hpb hlastmem

/-- Storing a pointer to an element with the property. -/
theorem Within.store {S : α → Prop} (h : q.Within S) (link : Option α) {v : Option α}
    (hv : ∀ a, v = some a → S a) : (q.store link v).Within S := by
  have hload : ∀ t, (∀ a, t = some a → S a) → ∀ b, (q.store link v).load t = some b → S b := by
    intro t ht b hb
    by_cases hlink : t = link
    · subst hlink
      rw [load_store_self] at hb
      exact hv b hb
    · rw [load_store_of_ne _ _ hlink] at hb
      exact within_load h ht hb
  refine ⟨hload none (by simp), ?_, ?_⟩
  · rw [tqhLast_store]
    exact h.last
  · intro a ha
    exact hload (some a) (by simpa using ha)

/-- Inserting another element. -/
theorem Within.insertTail {S : α → Prop} (h : q.Within S) (x : α) :
    (q.insertTail x).Within fun a => a = x ∨ S a := by
  have h1 : (q.store (some x) none).Within fun a => a = x ∨ S a := by
    refine ⟨fun a ha => Or.inr (h.first a ha), fun a ha => Or.inr (h.last a ha), ?_⟩
    intro a ha b hb
    by_cases hax : a = x
    · subst hax
      simp [TailQ.store] at hb
    · have hb' : q.tqeNext a = some b := by simpa [TailQ.store, hax] using hb
      exact Or.inr (h.next a (ha.resolve_left hax) b hb')
  have h2 : TailQ.Within { (q.store (some x) none) with
      tqePrev := Function.update (q.store (some x) none).tqePrev x (q.store (some x) none).tqhLast }
      fun a => a = x ∨ S a := ⟨h1.first, h1.last, h1.next⟩
  have h3 := h2.store (q.store (some x) none).tqhLast (v := some x) (by simp)
  refine ⟨h3.first, ?_, h3.next⟩
  intro a ha
  cases ha
  exact Or.inl rfl

end TailQ
