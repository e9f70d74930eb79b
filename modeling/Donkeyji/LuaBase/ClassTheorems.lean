/-
Donkeyji.LuaBase.ClassTheorems — the classes of a program, and what `IsSub`
answers.

`Formed` is the invariant of a program: a class has no metatable, its
`__SubClass` lists the classes that were made from it and nothing else, and
its `__SuperClass` is the class it was made from. `Inherited` is what one call
of `Inherit` leaves.

`IsSub` follows metatables. An object has one, that leads to its class, and a
class has none, so the loop ends after two turns and never meets an ancestor.
-/
import Donkeyji.Lib.Runs
import Donkeyji.LuaBase.Class

namespace Donkeyji.LuaBase

open Runs

variable {w w' : World} {self : Ref}

/-! ## Heaps -/

theorem get_setTable_self (h : Heap) (r : Ref) (t : Members) (k : Key) :
    (h.setTable r t).get r k = t.get k := by
  simp [Heap.get, Heap.setTable]

theorem get_setTable_of_ne (h : Heap) {r r' : Ref} (hr : r' ≠ r) (t : Members) (k : Key) :
    (h.setTable r t).get r' k = h.get r' k := by
  simp [Heap.get, Heap.setTable, hr]

theorem get_set_self (h : Heap) (r : Ref) (k : Key) (v : Option Value) :
    (h.set r k v).get r k = v := by
  simp [Heap.set, get_setTable_self]

theorem get_set_of_ne (h : Heap) {r r' : Ref} {k k' : Key} (hne : r' ≠ r ∨ k' ≠ k)
    (v : Option Value) : (h.set r k v).get r' k' = h.get r' k' := by
  by_cases hr : r' = r
  · subst hr
    have hk : k' ≠ k := hne.resolve_left fun hn => hn rfl
    rw [Heap.set, get_setTable_self, PairTable.get_set_of_ne _ hk]
    rfl
  · exact get_setTable_of_ne h hr _ _

theorem get_alloc_of_ne (h : Heap) {r : Ref} (hr : r ≠ h.next) (t : Members) (k : Key) :
    (h.alloc t).get r k = h.get r k := by
  simp [Heap.get, Heap.alloc, hr]

/-! ## The invariant -/

/-- `__SubClass` of a class lists the classes made from it. -/
def SubClasses (w : World) (c : Ref) : Prop :=
  (w.heap.get c .subClass = none ∧ ∀ d, w.parent d ≠ some c) ∨
    ∃ r < w.heap.next, w.heap.get c .subClass = some (.array r) ∧ (w.heap.arrays r).Nodup ∧
      ∀ d, d ∈ w.heap.arrays r ↔ w.parent d = some c

/-- What holds of the classes and objects of a program. -/
structure Formed (w : World) : Prop where
  alive : ∀ r, w.kind r ≠ .free → r < w.heap.next
  indexCls : ∀ c p, w.kind c = .cls p → w.heap.index c = none
  indexObj : ∀ o c, w.kind o = .object c → w.heap.index o = some c ∧ ∃ p, w.kind c = .cls p
  parent : ∀ c p, w.kind c = .cls (some p) → p < c ∧ ∃ q, w.kind p = .cls q
  subs : ∀ c p, w.kind c = .cls p → SubClasses w c
  own : ∀ c d p q r, w.kind c = .cls p → w.kind d = .cls q →
    w.heap.get c .subClass = some (.array r) → w.heap.get d .subClass = some (.array r) → c = d
  super : ∀ c p, w.kind c = .cls p → w.heap.get c .superClass = p.map .table

/-- The parent of a class. -/
theorem parent_eq_some {c p : Ref} : w.parent c = some p ↔ w.kind c = .cls (some p) := by
  unfold World.parent
  cases w.kind c <;> simp

theorem Formed.parent_lt (hw : Formed w) {c p : Ref} (h : w.parent c = some p) :
    p < c ∧ ∃ q, w.kind p = .cls q :=
  hw.parent c p (parent_eq_some.mp h)

theorem formed_start : Formed World.start where
  alive := by
    intro r hr
    by_cases h0 : r = clsObject
    · subst h0
      decide
    · simp [World.start, h0] at hr
  indexCls := fun _ _ _ => rfl
  indexObj := by
    intro o c ho
    by_cases h0 : o = clsObject <;> simp [World.start, h0] at ho
  parent := by
    intro c p hc
    by_cases h0 : c = clsObject <;> simp [World.start, h0] at hc
  subs := by
    intro c p hc
    by_cases h0 : c = clsObject
    · subst h0
      refine Or.inl ⟨by decide, ?_⟩
      intro d hd
      rw [parent_eq_some] at hd
      by_cases h0 : d = clsObject <;> simp [World.start, h0] at hd
    · simp [World.start, h0] at hc
  own := by
    intro c d p q r hc hd
    by_cases h0 : c = clsObject
    · by_cases h1 : d = clsObject
      · intro _ _
        rw [h0, h1]
      · simp [World.start, h1] at hd
    · simp [World.start, h0] at hc
  super := by
    intro c p hc
    by_cases h0 : c = clsObject
    · subst h0
      have hp : p = none := by simpa [World.start] using hc.symm
      subst hp
      decide
    · simp [World.start, h0] at hc

/-! ## Inherit -/

/-- What `Inherit` of the class `c` leaves: the new class `o` is entered into its array `r`. -/
structure Inherited (h : Heap) (c o r : Ref) (h' : Heap) : Prop where
  next : o < h'.next ∧ r < h'.next
  index : h'.index = Function.update h.index o none
  subs : h'.get c .subClass = some (.array r)
  array : (h.get c .subClass = some (.array r) ∧ h'.arrays r = h.arrays r ++ [o]) ∨
    (h.get c .subClass = none ∧ h'.arrays r = [o] ∧ h.next ≤ r)
  arrays : ∀ r' < h.next, r' ≠ r → h'.arrays r' = h.arrays r'
  frame : ∀ d k, d ≠ o → (d ≠ c ∨ k ≠ .subClass) → h'.get d k = h.get d k
  newSubs : h'.get o .subClass = none
  newSuper : h'.get o .superClass = some (.table c)

/-- `Inherit` from the point where `self` has an array of subclasses. -/
theorem insert_fill {h : Heap} {self o r : Ref}
    (hsub : h.get self .subClass = some (.array r)) :
    ∃ h', ((insertSubClass h self o).map fun h =>
        let h := h.setTable o (copyMembers (h.tables self) (h.tables o))
        let h := h.set o .subClass none
        h.set o .superClass (some (.table self))) = some h' ∧
      h'.next = h.next ∧ h'.index = h.index ∧
      h'.arrays = Function.update h.arrays r (h.arrays r ++ [o]) ∧
      (∀ c k, c ≠ o → h'.get c k = h.get c k) ∧ h'.get o .subClass = none ∧
      h'.get o .superClass = some (.table self) := by
  unfold insertSubClass
  rw [hsub]
  refine ⟨_, rfl, rfl, rfl, rfl, ?_, ?_, ?_⟩
  · intro c k hc
    rw [get_set_of_ne _ (Or.inl hc), get_set_of_ne _ (Or.inl hc), get_setTable_of_ne _ hc]
    rfl
  · rw [get_set_of_ne _ (Or.inr (by decide)), get_set_self]
  · rw [get_set_self]

/-- `Inherit` into a new table, for a class without subclasses. -/
theorem inherit_first {h : Heap} (hself : self < h.next) (hnone : h.get self .subClass = none)
    (t : Members) :
    ∃ h', inherit (h.alloc t) self h.next = some h' ∧
      Inherited h self h.next (h.next + 1) h' := by
  have hne : self ≠ h.next := Nat.ne_of_lt hself
  -- the array is made first
  obtain ⟨hd, hdef⟩ : ∃ hd : Heap, hd = { (h.alloc t).set self .subClass
      (some (.array (h.alloc t).next)) with
        arrays := Function.update (h.alloc t).arrays (h.alloc t).next []
        next := (h.alloc t).next + 1 } := ⟨_, rfl⟩
  have hensure : ensureSubClass (h.alloc t) self = hd := by
    have hget : (h.alloc t).get self .subClass = none := by
      rw [get_alloc_of_ne h hne, hnone]
    rw [hdef, ensureSubClass, hget, truthy, if_neg (by simp)]
  have hdGet : ∀ c k, c ≠ h.next → (c ≠ self ∨ k ≠ .subClass) → hd.get c k = h.get c k := by
    intro c k hc hor
    rw [hdef]
    exact (get_set_of_ne _ hor _).trans (get_alloc_of_ne h hc t k)
  have hdSelf : hd.get self .subClass = some (.array (h.next + 1)) := by
    rw [hdef]
    exact get_set_self _ _ _ _
  have hdArrays : hd.arrays = Function.update h.arrays (h.next + 1) [] := by
    rw [hdef]
    rfl
  have hdNext : hd.next = h.next + 2 := by
    rw [hdef]
    rfl
  have hdIndex : hd.index = Function.update h.index h.next none := by
    rw [hdef]
    rfl
  obtain ⟨h', heq, hnext, hindex, harrays, hframe, hnil, hsuper⟩ := insert_fill (o := h.next) hdSelf
  refine ⟨h', by rw [inherit, hensure, heq], ?_, ?_, ?_, ?_, ?_, ?_, hnil, hsuper⟩
  · rw [hnext, hdNext]
    exact ⟨Nat.lt_add_of_pos_right (by decide), Nat.lt_succ_self _⟩
  · rw [hindex, hdIndex]
  · rw [hframe self _ hne, hdSelf]
  · refine Or.inr ⟨hnone, ?_, Nat.le_succ _⟩
    rw [harrays, hdArrays]
    simp
  · intro r' hr' hner
    rw [harrays, Function.update_of_ne hner, hdArrays, Function.update_of_ne hner]
  · intro c k hc hor
    rw [hframe c k hc, hdGet c k hc hor]

/-- `Inherit` into a new table, for a class with subclasses. -/
theorem inherit_next {h : Heap} {r : Ref} (hself : self < h.next) (hr : r < h.next)
    (hsub : h.get self .subClass = some (.array r)) (t : Members) :
    ∃ h', inherit (h.alloc t) self h.next = some h' ∧ Inherited h self h.next r h' := by
  have hne : self ≠ h.next := Nat.ne_of_lt hself
  have hget : (h.alloc t).get self .subClass = some (.array r) := by
    rw [get_alloc_of_ne h hne, hsub]
  have hensure : ensureSubClass (h.alloc t) self = h.alloc t := by
    rw [ensureSubClass, hget]
    exact if_pos rfl
  obtain ⟨h', heq, hnext, hindex, harrays, hframe, hnil, hsuper⟩ := insert_fill (o := h.next) hget
  refine ⟨h', by rw [inherit, hensure, heq], ?_, ?_, ?_, ?_, ?_, ?_, hnil, hsuper⟩
  · rw [hnext]
    exact ⟨Nat.lt_succ_self _, Nat.lt_succ_of_lt hr⟩
  · rw [hindex]
    rfl
  · rw [hframe self _ hne, hget]
  · refine Or.inl ⟨hsub, ?_⟩
    rw [harrays, Function.update_self]
    rfl
  · intro r' _ hner
    rw [harrays, Function.update_of_ne hner]
    rfl
  · intro c k hc _
    rw [hframe c k hc, get_alloc_of_ne h hc]

/-- `Inherit` of a class of the program. -/
theorem Formed.inherited (hw : Formed w) {p : Option Ref} (hself : w.kind self = .cls p)
    (t : Members) :
    ∃ h' r, inherit (w.heap.alloc t) self w.heap.next = some h' ∧
      Inherited w.heap self w.heap.next r h' := by
  have hlt : self < w.heap.next := hw.alive self (by simp [hself])
  rcases hw.subs self p hself with ⟨hnone, -⟩ | ⟨r, hr, hsub, -⟩
  · obtain ⟨h', heq, hspec⟩ := inherit_first hlt hnone t
    exact ⟨h', _, heq, hspec⟩
  · obtain ⟨h', heq, hspec⟩ := inherit_next hlt hr hsub t
    exact ⟨h', r, heq, hspec⟩

/-! ## The invariant is kept -/

/-- `__SubClass` of the classes after `Inherit`. -/
theorem Inherited.subClasses (hw : Formed w) {p : Option Ref} {r : Ref} {h' : Heap}
    (hself : w.kind self = .cls p) (hi : Inherited w.heap self w.heap.next r h') {c : Ref}
    {q : Option Ref} (hc : w.kind c = .cls q) :
    SubClasses ⟨h', Function.update w.kind w.heap.next (.cls (some self))⟩ c := by
  have hlt : ∀ d, w.kind d ≠ .free → d ≠ w.heap.next := fun d hd => Nat.ne_of_lt (hw.alive d hd)
  have hcne : c ≠ w.heap.next := hlt c (by simp [hc])
  have hparent : ∀ d e, World.parent
      ⟨h', Function.update w.kind w.heap.next (.cls (some self))⟩ d = some e ↔
        (d = w.heap.next ∧ self = e) ∨ w.parent d = some e := by
    intro d e
    rw [parent_eq_some, parent_eq_some]
    by_cases hd : d = w.heap.next
    · subst hd
      have hfree : w.kind w.heap.next = .free := by
        by_contra hne
        exact hlt _ hne rfl
      simp [hfree]
    · simp [hd]
  by_cases hcs : c = self
  · subst hcs
    refine Or.inr ⟨r, hi.next.2, hi.subs, ?_, ?_⟩
    · show (h'.arrays r).Nodup
      rcases hi.array with ⟨hsub, harr⟩ | ⟨-, harr, -⟩
      · rcases hw.subs c q hc with ⟨hnone, -⟩ | ⟨r', -, hsub', hnodup, hmem⟩
        · rw [hnone] at hsub
          cases hsub
        · rw [hsub] at hsub'
          cases hsub'
          rw [harr]
          refine List.nodup_append.mpr ⟨hnodup, List.nodup_singleton _, ?_⟩
          intro a ha b hb
          rw [List.mem_singleton.mp hb]
          have hpar := parent_eq_some.mp ((hmem a).mp ha)
          exact hlt a (by simp [hpar])
      · rw [harr]
        exact List.nodup_singleton _
    · intro d
      rw [hparent]
      show d ∈ h'.arrays r ↔ _
      rcases hi.array with ⟨hsub, harr⟩ | ⟨hnone', harr, -⟩
      · rcases hw.subs c q hc with ⟨hnone, -⟩ | ⟨r', -, hsub', -, hmem⟩
        · rw [hnone] at hsub
          cases hsub
        · rw [hsub] at hsub'
          cases hsub'
          rw [harr, List.mem_append, hmem, List.mem_singleton]
          tauto
      · rcases hw.subs c q hc with ⟨-, hno⟩ | ⟨r', -, hsub', -⟩
        · rw [harr, List.mem_singleton]
          have := hno d
          tauto
        · rw [hnone'] at hsub'
          cases hsub'
  · have hget : h'.get c .subClass = w.heap.get c .subClass := hi.frame c _ hcne (Or.inl hcs)
    rcases hw.subs c q hc with ⟨hnone, hno⟩ | ⟨r', hr', hsub', hnodup, hmem⟩
    · refine Or.inl ⟨hget.trans hnone, ?_⟩
      intro d
      rw [ne_eq, hparent]
      have := hno d
      have := Ne.symm hcs
      tauto
    · have hrr : r' ≠ r := by
        intro he
        subst he
        rcases hi.array with ⟨hsub, -⟩ | ⟨-, -, hfresh⟩
        · exact hcs (hw.own c self q p r' hc hself hsub' hsub)
        · exact absurd hr' (Nat.not_lt.mpr hfresh)
      have harr : h'.arrays r' = w.heap.arrays r' := hi.arrays r' hr' hrr
      refine Or.inr ⟨r', Nat.lt_trans hr' hi.next.1, hget.trans hsub', ?_, ?_⟩
      · show (h'.arrays r').Nodup
        rw [harr]
        exact hnodup
      · intro d
        show d ∈ h'.arrays r' ↔ _
        rw [hparent, harr, hmem]
        have := Ne.symm hcs
        tauto

/-- `Inherit` keeps the invariant. -/
theorem Formed.inherit_step (hw : Formed w) {p : Option Ref} {r : Ref} {h' : Heap}
    (hself : w.kind self = .cls p) (hi : Inherited w.heap self w.heap.next r h') :
    Formed ⟨h', Function.update w.kind w.heap.next (.cls (some self))⟩ := by
  have hlt : ∀ d, w.kind d ≠ .free → d ≠ w.heap.next := fun d hd => Nat.ne_of_lt (hw.alive d hd)
  have hselfNe : self ≠ w.heap.next := hlt self (by simp [hself])
  have hold : ∀ d, d ≠ w.heap.next →
      Function.update w.kind w.heap.next (.cls (some self)) d = w.kind d :=
    fun d hd => Function.update_of_ne hd _ _
  constructor
  case alive =>
    intro d hd
    show d < h'.next
    by_cases hn : d = w.heap.next
    · rw [hn]
      exact hi.next.1
    · exact Nat.lt_trans (hw.alive d (by rwa [← hold d hn])) hi.next.1
  case indexCls =>
    intro c q hc
    show h'.index c = none
    rw [hi.index]
    by_cases hn : c = w.heap.next
    · simp [hn]
    · rw [Function.update_of_ne hn]
      exact hw.indexCls c q (by rwa [← hold c hn])
  case indexObj =>
    intro o c ho
    show h'.index o = some c ∧ ∃ q, Function.update w.kind _ _ c = .cls q
    by_cases hn : o = w.heap.next
    · simp [hn] at ho
    · have ho' : w.kind o = .object c := by rwa [← hold o hn]
      obtain ⟨hidx, q, hq⟩ := hw.indexObj o c ho'
      rw [hi.index, Function.update_of_ne hn, hold c (hlt c (by simp [hq]))]
      exact ⟨hidx, q, hq⟩
  case parent =>
    intro c q hc
    show q < c ∧ ∃ q', Function.update w.kind _ _ q = .cls q'
    by_cases hn : c = w.heap.next
    · subst hn
      have hq : self = q := by simpa using hc
      subst hq
      rw [hold self hselfNe]
      exact ⟨hw.alive self (by simp [hself]), p, hself⟩
    · obtain ⟨hqc, q', hq'⟩ := hw.parent c q (by rwa [← hold c hn])
      rw [hold q (hlt q (by simp [hq']))]
      exact ⟨hqc, q', hq'⟩
  case subs =>
    intro c q hc
    by_cases hn : c = w.heap.next
    · subst hn
      refine Or.inl ⟨hi.newSubs, ?_⟩
      intro d hd
      rw [parent_eq_some] at hd
      by_cases hdn : d = w.heap.next
      · subst hdn
        have : self = w.heap.next := by simpa using hd
        exact hselfNe this
      · have hd' : w.kind d = .cls (some w.heap.next) := by rwa [← hold d hdn]
        obtain ⟨hlt', -⟩ := hw.parent d _ hd'
        exact absurd (hw.alive d (by simp [hd'])) (Nat.lt_asymm hlt')
    · exact hi.subClasses hw hself (q := q) (by rwa [← hold c hn])
  case own =>
    intro c d q q' r' hc hd hcr hdr
    have hcn : c ≠ w.heap.next := by
      intro hn
      rw [hn, hi.newSubs] at hcr
      cases hcr
    have hdn : d ≠ w.heap.next := by
      intro hn
      rw [hn, hi.newSubs] at hdr
      cases hdr
    have hc' : w.kind c = .cls q := by rwa [← hold c hcn]
    have hd' : w.kind d = .cls q' := by rwa [← hold d hdn]
    -- a class other than `self` has another array than `self`
    have hother : ∀ e q'', w.kind e = .cls q'' → e ≠ w.heap.next →
        h'.get e .subClass = some (.array r) → e = self := by
      intro e q'' he hen her
      by_contra hes
      rw [hi.frame e _ hen (Or.inl hes)] at her
      rcases hi.array with ⟨hsub, -⟩ | ⟨-, -, hfresh⟩
      · exact hes (hw.own e self q'' p r he hself her hsub)
      · rcases hw.subs e q'' he with ⟨hnone, -⟩ | ⟨r'', hr'', hsub'', -⟩
        · rw [hnone] at her
          cases her
        · rw [her] at hsub''
          cases hsub''
          exact absurd hr'' (Nat.not_lt.mpr hfresh)
    by_cases hrr : r' = r
    · subst hrr
      rw [hother c q hc' hcn hcr, hother d q' hd' hdn hdr]
    · have hne : ∀ e, h'.get e .subClass = some (.array r') → e ≠ self := by
        intro e he hes
        rw [hes, hi.subs] at he
        cases he
        exact hrr rfl
      rw [hi.frame c _ hcn (Or.inl (hne c hcr))] at hcr
      rw [hi.frame d _ hdn (Or.inl (hne d hdr))] at hdr
      exact hw.own c d q q' r' hc' hd' hcr hdr
  case super =>
    intro c q hc
    show h'.get c .superClass = q.map .table
    by_cases hn : c = w.heap.next
    · subst hn
      have hq : some self = q := by simpa using hc
      rw [← hq, hi.newSuper]
      rfl
    · rw [hi.frame c _ hn (Or.inr (by decide))]
      exact hw.super c q (by rwa [← hold c hn])

/-- `New` adds a table and the way from it to its class. -/
theorem new_eq {h h' : Heap} {self : Ref} (hnew : new h self = some h') :
    h' = attachToClass (h.alloc .empty) self h.next := by
  unfold new at hnew
  simp only at hnew
  split at hnew
  · exact (Option.some.inj hnew).symm
  · split at hnew
    · cases hnew
    · exact (Option.some.inj hnew).symm

/-- `New` keeps the invariant. -/
theorem Formed.new_step (hw : Formed w) {p : Option Ref} (hself : w.kind self = .cls p) :
    Formed ⟨attachToClass (w.heap.alloc .empty) self w.heap.next,
      Function.update w.kind w.heap.next (.object self)⟩ := by
  have hlt : ∀ d, w.kind d ≠ .free → d ≠ w.heap.next := fun d hd => Nat.ne_of_lt (hw.alive d hd)
  have hold : ∀ d, d ≠ w.heap.next →
      Function.update w.kind w.heap.next (.object self) d = w.kind d :=
    fun d hd => Function.update_of_ne hd _ _
  -- a class is not the new table
  have hcls : ∀ c q, Function.update w.kind w.heap.next (.object self) c = .cls q →
      c ≠ w.heap.next ∧ w.kind c = .cls q := by
    intro c q hc
    by_cases hn : c = w.heap.next
    · simp [hn] at hc
    · exact ⟨hn, by rwa [← hold c hn]⟩
  have hindex : ∀ c, c ≠ w.heap.next →
      (attachToClass (w.heap.alloc .empty) self w.heap.next).index c = w.heap.index c := by
    intro c hn
    simp [attachToClass, Heap.alloc, hn]
  have hget : ∀ c k, c ≠ w.heap.next →
      (attachToClass (w.heap.alloc .empty) self w.heap.next).get c k = w.heap.get c k :=
    fun c k hn => get_alloc_of_ne w.heap hn _ k
  have hparent : ∀ d e, World.parent ⟨attachToClass (w.heap.alloc .empty) self w.heap.next,
      Function.update w.kind w.heap.next (.object self)⟩ d = some e ↔ w.parent d = some e := by
    intro d e
    rw [parent_eq_some, parent_eq_some]
    constructor
    · exact fun h => (hcls d _ h).2
    · intro h
      show Function.update w.kind _ _ d = _
      rw [hold d (hlt d (by simp [h]))]
      exact h
  constructor
  case alive =>
    intro d hd
    show d < w.heap.next + 1
    by_cases hn : d = w.heap.next
    · rw [hn]
      exact Nat.lt_succ_self _
    · exact Nat.lt_succ_of_lt (hw.alive d (by rwa [← hold d hn]))
  case indexCls =>
    intro c q hc
    obtain ⟨hn, hc⟩ := hcls c q hc
    exact (hindex c hn).trans (hw.indexCls c q hc)
  case indexObj =>
    intro o c ho
    show _ ∧ ∃ q, Function.update w.kind _ _ c = .cls q
    by_cases hn : o = w.heap.next
    · subst hn
      have hc : self = c := by simpa using ho
      subst hc
      rw [hold self (hlt self (by simp [hself]))]
      exact ⟨by simp [attachToClass], p, hself⟩
    · obtain ⟨hidx, q, hq⟩ := hw.indexObj o c (by rwa [← hold o hn])
      rw [hold c (hlt c (by simp [hq]))]
      exact ⟨(hindex o hn).trans hidx, q, hq⟩
  case parent =>
    intro c q hc
    obtain ⟨-, hc⟩ := hcls c _ hc
    obtain ⟨hqc, q', hq'⟩ := hw.parent c q hc
    show q < c ∧ ∃ q', Function.update w.kind _ _ q = .cls q'
    rw [hold q (hlt q (by simp [hq']))]
    exact ⟨hqc, q', hq'⟩
  case subs =>
    intro c q hc
    obtain ⟨hn, hc⟩ := hcls c q hc
    rcases hw.subs c q hc with ⟨hnone, hno⟩ | ⟨r, hr, hsub, hnodup, hmem⟩
    · refine Or.inl ⟨(hget c _ hn).trans hnone, ?_⟩
      intro d
      rw [ne_eq, hparent]
      exact hno d
    · refine Or.inr ⟨r, Nat.lt_succ_of_lt hr, (hget c _ hn).trans hsub, hnodup, ?_⟩
      intro d
      rw [hparent]
      exact hmem d
  case own =>
    intro c d q q' r hc hd hcr hdr
    obtain ⟨hcn, hc⟩ := hcls c q hc
    obtain ⟨hdn, hd⟩ := hcls d q' hd
    exact hw.own c d q q' r hc hd ((hget c _ hcn).symm.trans hcr) ((hget d _ hdn).symm.trans hdr)
  case super =>
    intro c q hc
    obtain ⟨hn, hc⟩ := hcls c q hc
    exact (hget c _ hn).trans (hw.super c q hc)

/-- The members other than those kept by `Inherit` do not matter. -/
theorem Formed.frame {h : Heap} (hw : Formed w) (hnext : h.next = w.heap.next)
    (hindex : h.index = w.heap.index) (harrays : h.arrays = w.heap.arrays)
    (hget : ∀ c k, bookkeeping k = true → h.get c k = w.heap.get c k) :
    Formed { w with heap := h } where
  alive r hr := by
    show r < h.next
    rw [hnext]
    exact hw.alive r hr
  indexCls c p hc := by
    show h.index c = none
    rw [hindex]
    exact hw.indexCls c p hc
  indexObj o c ho := by
    show h.index o = some c ∧ _
    rw [hindex]
    exact hw.indexObj o c ho
  parent := hw.parent
  subs c p hc := by
    have hsub := hw.subs c p hc
    unfold SubClasses at hsub ⊢
    dsimp only
    rw [hget c _ (by decide), harrays, hnext]
    exact hsub
  own c d p q r hc hd hcr hdr := by
    dsimp only at hcr hdr
    rw [hget _ _ (by decide)] at hcr hdr
    exact hw.own c d p q r hc hd hcr hdr
  super c p hc := by
    show h.get c _ = _
    rw [hget c _ (by decide)]
    exact hw.super c p hc

/-- Every operation keeps the invariant. -/
theorem Formed.step (hw : Formed w) (op : ClassOp) (hstep : classStep w op = some w') :
    Formed w' := by
  cases op with
  | inherit self o =>
    simp only [classStep] at hstep
    split at hstep
    · rename_i p hself _
      obtain ⟨h', r, heq, hi⟩ := hw.inherited hself (.ofList o)
      rw [heq] at hstep
      cases hstep
      exact hw.inherit_step hself hi
    · cases hstep
  | new self =>
    simp only [classStep] at hstep
    split at hstep
    · rename_i p hself _ _
      obtain ⟨h', hnew, rfl⟩ := Option.map_eq_some_iff.mp hstep
      rw [new_eq hnew]
      exact hw.new_step hself
    · cases hstep
  | assign r k v =>
    simp only [classStep] at hstep
    split at hstep
    · cases hstep
    · rename_i hok
      cases hstep
      refine hw.frame rfl rfl rfl ?_
      intro c k' hk'
      refine get_set_of_ne _ (Or.inr ?_) _
      rintro rfl
      exact hok (Or.inr hk')

/-- The invariant holds after every program. -/
theorem formed_run {ops : List ClassOp} (hrun : run classStep World.start ops = some w) :
    Formed w :=
  inv_of_run (fun _ op _ hs hstep => Formed.step hs op hstep) formed_start hrun

/-! ## IsSub -/

/-- `A` is reached from `c` by following `Inherit` upward. -/
def Ancestor (w : World) : Ref → Ref → Prop := Relation.TransGen fun c p => w.parent c = some p

/-- The class of an object, and a class itself. -/
def World.classOf (w : World) (o : Ref) : Ref :=
  match w.kind o with
  | .object c => c
  | _ => o

/-- What `IsSub` is for: the class of an object or an ancestor of it, an ancestor of a class. -/
def SubOf (w : World) (o a : Ref) : Prop :=
  match w.kind o with
  | .object c => a = c ∨ Ancestor w c a
  | _ => Ancestor w o a

/-- The loop of `IsSub(o, a)` ends with this answer. -/
def IsSubEnds (h : Heap) (o a : Ref) (b : Bool) : Prop := ∃ n, isSub h a n o = some b

/-- An ancestor is older. -/
theorem Formed.ancestor_lt (hw : Formed w) {c a : Ref} (h : Ancestor w c a) : a < c := by
  induction h with
  | single h => exact (hw.parent_lt h).1
  | tail _ h ih => exact Nat.lt_trans (hw.parent_lt h).1 ih

/-- A table without a metatable. -/
theorem isSubEnds_none {h : Heap} {o : Ref} (ho : h.index o = none) (a : Ref) (b : Bool) :
    IsSubEnds h o a b ↔ b = false := by
  constructor
  · rintro ⟨n, hn⟩
    cases n with
    | zero => cases hn
    | succ n =>
      rw [isSub, ho] at hn
      exact (Option.some.inj hn).symm
  · rintro rfl
    exact ⟨1, by rw [isSub, ho]⟩

/-- A table with a metatable. -/
theorem isSubEnds_some {h : Heap} {o c : Ref} (ho : h.index o = some c) (a : Ref) (b : Bool) :
    IsSubEnds h o a b ↔ if c = a then b = true else IsSubEnds h c a b := by
  constructor
  · rintro ⟨n, hn⟩
    cases n with
    | zero => cases hn
    | succ n =>
      rw [isSub, ho] at hn
      simp only at hn
      split
      · rename_i hc
        rw [if_pos hc] at hn
        exact (Option.some.inj hn).symm
      · rename_i hc
        rw [if_neg hc] at hn
        exact ⟨n, hn⟩
  · intro hif
    split at hif
    · rename_i hc
      exact ⟨1, by rw [isSub, ho]; simp [hc, hif]⟩
    · rename_i hc
      obtain ⟨n, hn⟩ := hif
      exact ⟨n + 1, by rw [isSub, ho]; simpa [hc] using hn⟩

/-- The answer of `IsSub` about an object. -/
theorem Formed.isSub_object (hw : Formed w) {o c : Ref} (ho : w.kind o = .object c) (a : Ref)
    (b : Bool) : IsSubEnds w.heap o a b ↔ (b = true ↔ a = c) := by
  obtain ⟨hidx, p, hc⟩ := hw.indexObj o c ho
  rw [isSubEnds_some hidx]
  split
  · rename_i hca
    simp [hca]
  · rename_i hca
    have hac : a ≠ c := fun h => hca h.symm
    rw [isSubEnds_none (hw.indexCls c p hc)]
    cases b <;> simp [hac]

/-- **`IsSub`** ends, and it is right exactly if it is not asked about an ancestor of the class. -/
theorem isSub_right_iff {ops : List ClassOp} (hrun : run classStep World.start ops = some w)
    {o : Ref} (ho : w.kind o ≠ .free) (a : Ref) :
    (∃ b, IsSubEnds w.heap o a b) ∧
      ((∃ b, IsSubEnds w.heap o a b ∧ (b = true ↔ SubOf w o a)) ↔
        ¬ Ancestor w (w.classOf o) a) := by
  have hw := formed_run hrun
  unfold SubOf World.classOf
  cases hk : w.kind o with
  | free => exact absurd hk ho
  | cls p =>
    have hends := isSubEnds_none (hw.indexCls o p hk) a
    refine ⟨⟨false, (hends false).mpr rfl⟩, ?_⟩
    simp [hends]
  | object c =>
    have hends := hw.isSub_object hk a
    refine ⟨⟨decide (a = c), (hends _).mpr (by simp)⟩, ?_⟩
    simp only [hends]
    constructor
    · rintro ⟨b, hb, hsub⟩ hanc
      have hac : a = c := hb.mp (hsub.mpr (Or.inr hanc))
      exact absurd (hw.ancestor_lt hanc) (by rw [hac]; exact Nat.lt_irrefl c)
    · intro hnot
      exact ⟨decide (a = c), by simp, by simp [hnot]⟩

/-- A class, a class made from it, and an object of that. -/
def twoClasses : List ClassOp := [.inherit 0 [(.other 7, .data 1)], .inherit 1 [], .new 3]

/-- The object is of its class, and `IsSub` says so. -/
theorem isSub_right_iff_class :
    ∃ w, run classStep World.start twoClasses = some w ∧ w.kind 5 = .object 3 ∧
      ∃ b, IsSubEnds w.heap 5 3 b ∧ (b = true ↔ SubOf w 5 3) := by
  obtain ⟨w, hrun⟩ := Option.isSome_iff_exists.mp
    (show (run classStep World.start twoClasses).isSome = true by decide)
  have hkind : w.kind 5 = .object 3 := by
    have h : (run classStep World.start twoClasses).map (fun w => w.kind 5) =
        some (.object 3) := by decide
    rw [hrun] at h
    exact Option.some.inj h
  refine ⟨w, hrun, hkind, ((isSub_right_iff hrun (by simp [hkind]) 3).2).mpr ?_⟩
  intro h
  have hlt := (formed_run hrun).ancestor_lt h
  simp [World.classOf, hkind] at hlt

/-- `IsSub` does not see that the class of an object was made from `clsObject`. -/
theorem isSub_not_right :
    ∃ w, run classStep World.start twoClasses = some w ∧ w.kind 5 = .object 3 ∧
      SubOf w 5 clsObject ∧ IsSubEnds w.heap 5 clsObject false := by
  obtain ⟨w, hrun⟩ := Option.isSome_iff_exists.mp
    (show (run classStep World.start twoClasses).isSome = true by decide)
  have hvalues : (run classStep World.start twoClasses).map
      (fun w => (w.kind 5, w.parent 3, w.parent 1, isSub w.heap clsObject 2 5)) =
        some (.object 3, some 1, some 0, some false) := by decide
  rw [hrun] at hvalues
  simp only [Option.map_some, Option.some.injEq, Prod.mk.injEq] at hvalues
  obtain ⟨hkind, h3, h1, hend⟩ := hvalues
  refine ⟨w, hrun, hkind, ?_, ⟨2, hend⟩⟩
  unfold SubOf
  rw [hkind]
  exact Or.inr (.tail (.single h3) h1)

end Donkeyji.LuaBase
