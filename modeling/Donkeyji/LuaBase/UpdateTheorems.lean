/-
Donkeyji.LuaBase.UpdateTheorems — what `Update` changes in the classes below
the one it is called on.

`Follows` says that a class, and every class between it and `self`, has the old
value of `self` under a key: these are the classes that get the new value. A
class that does not follow keeps its value, which is that of the nearest class
on its way up that overrides (`NearestOverride`).

One child is a call of `Update` on it, after its own members were replaced
(`child_spec`); the children are a fold (`children_spec`), and the depth of the
tree is bounded by the references, which grow from a class to those made from
it (`updateFrom_spec`).
-/
import Donkeyji.LuaBase.ClassTheorems

namespace Donkeyji.LuaBase

open Relation Runs

variable {w : World} {user : Nat → Heap → Ref → Members → Option Heap}

/-- `d` is `c` or below it. -/
def Under (w : World) (c d : Ref) : Prop := ReflTransGen (fun d p => w.parent d = some p) d c

/-- `d` is below `self`, and it and all classes between them have the value `v` under `k`. -/
inductive Follows (parent : Ref → Option Ref) (h : Heap) (self : Ref) (k : Key)
    (v : Option Value) : Ref → Prop
  | child {d : Ref} (hd : parent d = some self) (hv : h.get d k = v) :
      Follows parent h self k v d
  | step {d c : Ref} (hd : parent d = some c) (hc : Follows parent h self k v c)
      (hv : h.get d k = v) : Follows parent h self k v d

/-- The value of the nearest class from `d` up to `self` that has another value than the class it
was made from; for `self` the old value counts. -/
inductive NearestOverride (parent : Ref → Option Ref) (h : Heap) (self : Ref) (k : Key)
    (old : Option Value) : Ref → Option Value → Prop
  | child {d : Ref} (hd : parent d = some self) (hv : h.get d k ≠ old) :
      NearestOverride parent h self k old d (h.get d k)
  | own {d c : Ref} (hd : parent d = some c) (hc : c ≠ self) (hv : h.get d k ≠ h.get c k) :
      NearestOverride parent h self k old d (h.get d k)
  | up {d c : Ref} {v : Option Value} (hd : parent d = some c) (hc : c ≠ self)
      (hv : h.get d k = h.get c k) (hup : NearestOverride parent h self k old c v) :
      NearestOverride parent h self k old d v

/-! ## The tree -/

/-- What is under a class is not older. -/
theorem Formed.under_le (hw : Formed w) {c d : Ref} (h : Under w c d) : c ≤ d := by
  rcases reflTransGen_iff_eq_or_transGen.mp h with heq | htrans
  · exact Nat.le_of_eq heq
  · exact Nat.le_of_lt (hw.ancestor_lt htrans)

/-- The classes under two children of one class are different. -/
theorem Formed.under_unique (hw : Formed w) {self c c' d : Ref} (hc : w.parent c = some self)
    (hc' : w.parent c' = some self) (h : Under w c d) (h' : Under w c' d) : c = c' := by
  have hsame : ∀ {a b : Ref}, w.parent a = some self → w.parent b = some self →
      Under w a b → a = b := by
    intro a b ha hb hab
    rcases reflTransGen_iff_eq_or_transGen.mp hab with heq | htrans
    · exact heq
    · -- otherwise `self` is under `a`
      obtain ⟨p, hp, hpa⟩ := TransGen.head'_iff.mp htrans
      rw [hb] at hp
      cases hp
      have hle := hw.under_le hpa
      have hlt := (hw.parent_lt ha).1
      exact absurd hlt (Nat.not_lt.mpr hle)
  have hunique : Relator.RightUnique fun d p => w.parent d = some p := by
    intro a b c hb hc
    rw [hb] at hc
    exact Option.some.inj hc
  rcases ReflTransGen.total_of_right_unique hunique h h' with hcc | hcc
  · exact (hsame hc' hc hcc).symm
  · exact hsame hc hc' hcc

/-- What is below a class is under one of its children. -/
theorem exists_child {self d : Ref} (h : Ancestor w d self) :
    ∃ c, w.parent c = some self ∧ Under w c d := by
  obtain ⟨c, hdc, hc⟩ := TransGen.tail'_iff.mp h
  exact ⟨c, hc, hdc⟩

/-- What is under a child of a class is below the class. -/
theorem ancestor_of_child {self c d : Ref} (hc : w.parent c = some self) (h : Under w c d) :
    Ancestor w d self :=
  TransGen.tail'_iff.mpr ⟨c, h, hc⟩

/-- A class that follows is below. -/
theorem Follows.ancestor {h : Heap} {self d : Ref} {k : Key} {v : Option Value}
    (hf : Follows w.parent h self k v d) : Ancestor w d self := by
  induction hf with
  | child hd _ => exact .single hd
  | step hd _ _ ih => exact .head hd ih

/-- A class that follows, seen from the child it is under. -/
theorem Formed.follows_iff (hw : Formed w) {h : Heap} {self c d : Ref} {k : Key} {v : Option Value}
    (hc : w.parent c = some self) (hd : Under w c d) :
    Follows w.parent h self k v d ↔ h.get c k = v ∧ (d = c ∨ Follows w.parent h c k v d) := by
  constructor
  · intro hf
    induction hf with
    | child hdself hv =>
      have heq := hw.under_unique hc hdself hd .refl
      subst heq
      exact ⟨hv, Or.inl rfl⟩
    | @step d e hde hfe hv ih =>
      have hne : d ≠ c := by
        intro heq
        subst heq
        rw [hc] at hde
        cases hde
        exact Nat.lt_irrefl _ (hw.ancestor_lt hfe.ancestor)
      have hec : Under w c e := by
        rcases ReflTransGen.cases_head hd with heq | ⟨e', hde', hec⟩
        · exact absurd heq hne
        · rw [hde] at hde'
          cases hde'
          exact hec
      obtain ⟨hcv, hor⟩ := ih hec
      refine ⟨hcv, Or.inr ?_⟩
      rcases hor with rfl | hfc
      · exact .child hde hv
      · exact .step hde hfc hv
  · rintro ⟨hcv, rfl | hf⟩
    · exact .child hc hcv
    · clear hd
      induction hf with
      | child hdc hv => exact .step hdc (.child hc hcv) hv
      | step hde _ hv ih => exact .step hde ih hv

/-- Only the values of the classes on the way count. -/
theorem follows_congr {h h' : Heap} {self d : Ref} {k : Key} {v : Option Value}
    (heq : ∀ e, Under w e d → Ancestor w e self → h'.get e k = h.get e k)
    (hf : Follows w.parent h self k v d) : Follows w.parent h' self k v d := by
  induction hf with
  | @child d hd hv => exact .child hd ((heq d .refl (.single hd)).trans hv)
  | @step d c hd hc hv ih =>
    refine .step hd (ih fun e he hanc => heq e (.head hd he) hanc) ?_
    exact (heq d .refl (.head hd hc.ancestor)).trans hv

/-! ## One call -/

/-- `Update` may be called: `old` has the bookkeeping of `self`, and `self` and the classes below
it have the `Update` of `clsObject`. -/
structure Ready (w : World) (h : Heap) (c : Ref) (old : Members) : Prop where
  formed : Formed { w with heap := h }
  cls : ∃ p, w.kind c = .cls p
  subs : old.get .subClass = h.get c .subClass
  super : old.get .superClass = h.get c .superClass
  update : h.get c .update = some (.func .update)
  below : ∀ d, Ancestor w d c → h.get d .update = some (.func .update)

/-- Those of the classes in `part` that follow `c` have its value; nothing else has changed. -/
structure Updated (w : World) (h : Heap) (c : Ref) (old : Members) (part : Ref → Prop)
    (h' : Heap) : Prop where
  next : h'.next = h.next
  index : h'.index = h.index
  arrays : h'.arrays = h.arrays
  follows : ∀ d k, part d → Follows w.parent h c k (old.get k) d → h.get c k ≠ none →
    h'.get d k = h.get c k
  frame : ∀ d k, ¬ (part d ∧ Follows w.parent h c k (old.get k) d ∧ h.get c k ≠ none) →
    h'.get d k = h.get d k

variable {h h' : Heap} {self c : Ref} {old : Members} {fuel : Nat}

/-- The members of a child after the loop of `Update`. -/
theorem get_replaceMembers (self old sub : Members) (k : Key) :
    (replaceMembers self old sub).get k =
      if self.get k ≠ none ∧ sub.get k = old.get k then self.get k else sub.get k := by
  unfold replaceMembers
  rw [PairTable.get_foldl_store self.nodup]
  simp [self.mem_keys, Option.isSome_iff_ne_none]

/-- A child has other bookkeeping than the class it was made from. -/
theorem Ready.bookkeeping_ne (hr : Ready w h self old) (hc : w.parent c = some self) {k : Key}
    (hk : bookkeeping k = true) : h.get c k ≠ old.get k := by
  obtain ⟨p, hself⟩ := hr.cls
  have hckind : w.kind c = .cls (some self) := parent_eq_some.mp hc
  have hlt : self < c := (hr.formed.parent_lt hc).1
  intro heq
  simp only [bookkeeping, Bool.or_eq_true, decide_eq_true_eq] at hk
  rcases hk with rfl | rfl
  · rw [hr.subs] at heq
    rcases hr.formed.subs self p hself with ⟨-, hno⟩ | ⟨r, -, hsub, -⟩
    · exact hno c hc
    · have hown := hr.formed.own c self _ p r hckind hself (heq.trans hsub) hsub
      exact absurd hlt (by rw [hown]; exact Nat.lt_irrefl self)
  · rw [hr.super] at heq
    have h1 := hr.formed.super c _ hckind
    have h2 := hr.formed.super self p hself
    have h3 : (some self).map Value.table = p.map Value.table :=
      h1.symm.trans (heq.trans h2)
    cases p with
    | none => cases h3
    | some q =>
      have hq : self = q := by simpa using h3
      subst hq
      exact Nat.lt_irrefl self (hr.formed.parent self self hself).1

/-- Under a bookkeeping key no class follows. -/
theorem Ready.not_follows (hr : Ready w h self old) {d : Ref} {k : Key}
    (hk : bookkeeping k = true) : ¬ Follows w.parent h self k (old.get k) d := by
  intro hf
  obtain ⟨c, hc, hd⟩ := exists_child hf.ancestor
  exact hr.bookkeeping_ne hc hk ((hr.formed.follows_iff hc hd).mp hf).1

/-- A class does not follow itself. -/
theorem Ready.not_follows_self (hr : Ready w h self old) {k : Key} {v : Option Value} :
    ¬ Follows w.parent h self k v self :=
  fun hf => Nat.lt_irrefl self (hr.formed.ancestor_lt hf.ancestor)

/-- After a part of the children the call may go on. -/
theorem Updated.ready {part : Ref → Prop} (hu : Updated w h self old part h')
    (hr : Ready w h self old) : Ready w h' self old := by
  have hself : ∀ k, h'.get self k = h.get self k :=
    fun k => hu.frame self k fun hn => hr.not_follows_self hn.2.1
  refine ⟨?_, hr.cls, ?_, ?_, ?_, ?_⟩
  · exact hr.formed.frame hu.next hu.index hu.arrays
      fun d k hk => hu.frame d k fun hn => hr.not_follows hk hn.2.1
  · rw [hself]
    exact hr.subs
  · rw [hself]
    exact hr.super
  · rw [hself]
    exact hr.update
  · intro d hd
    by_cases hf : part d ∧ Follows w.parent h self .update (old.get .update) d ∧ h.get self .update ≠ none
    · rw [hu.follows d _ hf.1 hf.2.1 hf.2.2]
      exact hr.update
    · rw [hu.frame d _ hf]
      exact hr.below d hd

/-- The child after its own members were replaced. -/
def replaced (h : Heap) (self c : Ref) (old : Members) : Heap :=
  h.setTable c (replaceMembers (h.tables self) old (h.tables c))

theorem get_replaced (h : Heap) (self c : Ref) (old : Members) (k : Key) :
    (replaced h self c old).get c k =
      if h.get self k ≠ none ∧ h.get c k = old.get k then h.get self k else h.get c k := by
  rw [replaced, get_setTable_self, get_replaceMembers]
  rfl

theorem get_replaced_of_ne (h : Heap) (self : Ref) {c d : Ref} (hd : d ≠ c) (old : Members)
    (k : Key) : (replaced h self c old).get d k = h.get d k :=
  get_setTable_of_ne h hd _ k

/-- `Update` may be called on the child. -/
theorem Ready.child (hr : Ready w h self old) (hc : w.parent c = some self) :
    Ready w (replaced h self c old) c (h.tables c) := by
  have hbook : ∀ k, bookkeeping k = true → (replaced h self c old).get c k = h.get c k := by
    intro k hk
    rw [get_replaced, if_neg fun hn => hr.bookkeeping_ne hc hk hn.2]
  refine ⟨?_, ⟨some self, parent_eq_some.mp hc⟩, ?_, ?_, ?_, ?_⟩
  · refine hr.formed.frame rfl rfl rfl ?_
    intro d k hk
    by_cases hd : d = c
    · subst hd
      exact hbook k hk
    · exact get_replaced_of_ne h self hd old k
  · exact (hbook _ (by decide)).symm
  · exact (hbook _ (by decide)).symm
  · rw [get_replaced]
    split
    · exact hr.update
    · exact hr.below c (.single hc)
  · intro d hd
    have hne : d ≠ c := fun heq => Nat.lt_irrefl c (hr.formed.ancestor_lt (heq ▸ hd))
    rw [get_replaced_of_ne h self hne]
    exact hr.below d (.tail hd hc)

/-- The call on a child updates the classes under it. -/
theorem Updated.of_child (hr : Ready w h self old) (hc : w.parent c = some self)
    (hu : Updated w (replaced h self c old) c (h.tables c) (fun _ => True) h') :
    Updated w h self old (Under w c) h' := by
  have hne : ∀ {d}, Ancestor w d c → d ≠ c :=
    fun hd heq => Nat.lt_irrefl c (hr.formed.ancestor_lt (heq ▸ hd))
  -- below the child nothing was replaced
  have hto : ∀ {d k v}, Follows w.parent h c k v d → Follows w.parent (replaced h self c old) c k v d :=
    fun hf => follows_congr (fun e _ he => get_replaced_of_ne h self (hne he) old _) hf
  have hback : ∀ {d k v}, Follows w.parent (replaced h self c old) c k v d → Follows w.parent h c k v d :=
    fun hf => follows_congr (fun e _ he => (get_replaced_of_ne h self (hne he) old _).symm) hf
  have hcself : ∀ k, h'.get c k = (replaced h self c old).get c k :=
    fun k => hu.frame c k fun hn => hne hn.2.1.ancestor rfl
  refine ⟨hu.next, hu.index, hu.arrays, ?_, ?_⟩
  · intro d k hd hf hk
    obtain ⟨hcv, hor⟩ := (hr.formed.follows_iff hc hd).mp hf
    have hreplaced : (replaced h self c old).get c k = h.get self k := by
      rw [get_replaced, if_pos ⟨hk, hcv⟩]
    rcases hor with rfl | hfc
    · rw [hcself, hreplaced]
    · have hold : (h.tables c).get k = old.get k := hcv
      rw [hu.follows d k trivial (hold ▸ hto hfc) (hreplaced ▸ hk), hreplaced]
  · intro d k hnot
    by_cases hf : Follows w.parent (replaced h self c old) c k ((h.tables c).get k) d ∧
        (replaced h self c old).get c k ≠ none
    · -- `d` follows the child, which does not follow `self`
      have hfd := hback hf.1
      have hdv : h.get d k = h.get c k := by
        cases hfd with
        | child _ hv => exact hv
        | step _ _ hv => exact hv
      rw [hu.follows d k trivial hf.1 hf.2, hdv, get_replaced, if_neg]
      rintro ⟨hk, hcv⟩
      have hd : Under w c d := hfd.ancestor.to_reflTransGen
      have hfc : Follows w.parent h c k (old.get k) d := hcv ▸ hfd
      exact hnot ⟨hd, (hr.formed.follows_iff hc hd).mpr ⟨hcv, Or.inr hfc⟩, hk⟩
    · rw [hu.frame d k fun hn => hf hn.2]
      by_cases hd : d = c
      · subst hd
        rw [get_replaced, if_neg]
        rintro ⟨hk, hcv⟩
        exact hnot ⟨.refl, .child hc hcv, hk⟩
      · exact get_replaced_of_ne h self hd old k

/-- The loop over the children. -/
theorem children_spec (hcall : ∀ {h : Heap} {c : Ref} {old : Members},
      w.parent c = some self → Ready w h c old → h.next = w.heap.next →
      ∃ h', updateFrom user fuel h c old = some h' ∧ Updated w h c old (fun _ => True) h')
    {cs : List Ref} (hnodup : cs.Nodup) (hcs : ∀ c ∈ cs, w.parent c = some self)
    (hr : Ready w h self old) (hnext : h.next = w.heap.next) :
    ∃ h', cs.foldlM (fun h sub =>
        let oldSub := h.tables sub
        let h := h.setTable sub (replaceMembers (h.tables self) old oldSub)
        match h.get sub .update with
        | some (.func .update) => updateFrom user fuel h sub oldSub
        | some (.func (.user f)) => user f h sub oldSub
        | _ => none) h = some h' ∧ Updated w h self old (fun d => ∃ c ∈ cs, Under w c d) h' := by
  induction cs generalizing h with
  | nil => exact ⟨h, rfl, rfl, rfl, rfl, by simp, fun _ _ _ => rfl⟩
  | cons c cs ih =>
    obtain ⟨hcnot, hnodup⟩ := List.nodup_cons.mp hnodup
    have hc := hcs c List.mem_cons_self
    have hready := hr.child hc
    obtain ⟨h1, hcall1, hu1⟩ := hcall hc hready hnext
    have hu1 := Updated.of_child hr hc hu1
    obtain ⟨h2, hcall2, hu2⟩ := ih hnodup (fun e he => hcs e (List.mem_cons_of_mem c he))
      (hu1.ready hr) (hu1.next.trans hnext)
    refine ⟨h2, ?_, ?_⟩
    · have hupdate : (h.setTable c (replaceMembers (h.tables self) old (h.tables c))).get c
          .update = some (.func .update) := hready.update
      have hcall1' : updateFrom user fuel
          (h.setTable c (replaceMembers (h.tables self) old (h.tables c))) c (h.tables c) =
          some h1 := hcall1
      rw [List.foldlM_cons]
      simp only [hupdate, hcall1', Option.bind_eq_bind, Option.bind_some]
      exact hcall2
    · have hself : ∀ k, h1.get self k = h.get self k :=
        fun k => hu1.frame self k fun hn => hr.not_follows_self hn.2.1
      -- the classes under the other children are as they were
      have hother : ∀ {c' d e k}, c' ∈ cs → Under w c' d → Under w e d →
          h1.get e k = h.get e k := by
        intro c' d e k hc' hd he
        refine hu1.frame e k fun hn => ?_
        have hunder : Under w c d := ReflTransGen.trans he hn.1
        have heq := hr.formed.under_unique hc (hcs c' (List.mem_cons_of_mem c hc')) hunder hd
        exact hcnot (heq ▸ hc')
      refine ⟨hu2.next.trans hu1.next, hu2.index.trans hu1.index, hu2.arrays.trans hu1.arrays,
        ?_, ?_⟩
      · rintro d k ⟨c', hc', hd⟩ hf hk
        rcases List.mem_cons.mp hc' with rfl | hc'
        · rw [← hu1.follows d k hd hf hk]
          refine hu2.frame d k ?_
          rintro ⟨⟨c'', hc'', hd''⟩, -⟩
          have heq := hr.formed.under_unique hc (hcs c'' (List.mem_cons_of_mem _ hc'')) hd hd''
          exact hcnot (heq ▸ hc'')
        · rw [← hself]
          refine hu2.follows d k ⟨c', hc', hd⟩ ?_ (by rwa [hself])
          exact follows_congr (fun e he _ => hother hc' hd he) hf
      · intro d k hnot
        rw [hu2.frame d k, hu1.frame d k]
        · exact fun hn => hnot ⟨⟨c, List.mem_cons_self, hn.1⟩, hn.2⟩
        · rintro ⟨⟨c', hc', hd⟩, hf, hk⟩
          refine hnot ⟨⟨c', List.mem_cons_of_mem c hc', hd⟩, ?_, by rwa [hself] at hk⟩
          exact follows_congr (fun e he _ => (hother hc' hd he).symm) hf

/-- **`Update`** changes the classes that follow, and ends. -/
theorem updateFrom_spec (fuel : Nat) {h : Heap} {self : Ref} {old : Members}
    (hr : Ready w h self old) (hnext : h.next = w.heap.next) (hfuel : h.next < fuel + self) :
    ∃ h', updateFrom user fuel h self old = some h' ∧ Updated w h self old (fun _ => True) h' := by
  induction fuel generalizing h self old with
  | zero =>
    obtain ⟨p, hself⟩ := hr.cls
    have hlt : self < h.next := hr.formed.alive self (by simp [hself])
    rw [Nat.zero_add] at hfuel
    exact absurd hlt (Nat.lt_asymm hfuel)
  | succ fuel ih =>
    obtain ⟨p, hself⟩ := hr.cls
    rw [updateFrom]
    rcases hr.formed.subs self p hself with ⟨hnone, hno⟩ | ⟨r, -, hsub, hnodup, hmem⟩
    · have hnone' : h.get self .subClass = none := hnone
      rw [hnone']
      refine ⟨h, rfl, rfl, rfl, rfl, ?_, fun _ _ _ => rfl⟩
      intro d k _ hf
      obtain ⟨c, hc, -⟩ := exists_child hf.ancestor
      exact absurd hc (hno c)
    · have hsub' : h.get self .subClass = some (.array r) := hsub
      rw [hsub']
      have hchildren : ∀ c ∈ h.arrays r, w.parent c = some self := fun c hc => (hmem c).mp hc
      have hless : ∀ {n a b : Nat}, n < fuel + 1 + a → a < b → n < fuel + b := by omega
      have hcall : ∀ {h : Heap} {c : Ref} {old : Members}, w.parent c = some self →
          Ready w h c old → h.next = w.heap.next → ∃ h', updateFrom user fuel h c old = some h' ∧
            Updated w h c old (fun _ => True) h' := by
        intro h c old hc hr hn
        refine ih hr hn ?_
        rw [hn, ← hnext]
        exact hless hfuel (hr.formed.parent_lt hc).1
      obtain ⟨h', heq, hu⟩ := children_spec hcall hnodup hchildren hr hnext
      refine ⟨h', heq, hu.next, hu.index, hu.arrays, ?_, ?_⟩
      · intro d k _ hf hk
        obtain ⟨c, hc, hd⟩ := exists_child hf.ancestor
        exact hu.follows d k ⟨c, (hmem c).mpr hc, hd⟩ hf hk
      · exact fun d k hnot => hu.frame d k fun hn => hnot ⟨trivial, hn.2⟩

/-! ## After a change of a class -/

/-- What `Update` is for: `w` is the program before the call, `old` the members of `self` before
they were changed, `h'` the heap after the call. -/
structure UpdateRight (w : World) (c : Ref) (old : Members) (h' : Heap) : Prop where
  follows : ∀ d k, Ancestor w d c → bookkeeping k = false → w.heap.get c k ≠ none →
    Follows w.parent w.heap c k (old.get k) d → h'.get d k = w.heap.get c k
  overrides : ∀ d k, Ancestor w d c → bookkeeping k = false → w.heap.get c k ≠ none →
    ¬ Follows w.parent w.heap c k (old.get k) d →
      NearestOverride w.parent w.heap c k (old.get k) d (h'.get d k)
  frame : ∀ d k, ¬ (Ancestor w d c ∧ bookkeeping k = false ∧ w.heap.get c k ≠ none) →
    h'.get d k = w.heap.get d k
  rest : h'.next = w.heap.next ∧ h'.index = w.heap.index ∧ h'.arrays = w.heap.arrays

/-- A class that does not follow has the value of the nearest class that overrides. -/
theorem nearestOverride_of_not_follows {k : Key} {v : Option Value} {d : Ref}
    (hd : Ancestor w d self) (hself : ∀ c, Ancestor w c self → c ≠ self)
    (hf : ¬ Follows w.parent h self k v d) :
    NearestOverride w.parent h self k v d (h.get d k) := by
  have hor : Follows w.parent h self k v d ∨
      NearestOverride w.parent h self k v d (h.get d k) := by
    clear hf
    induction hd using TransGen.head_induction_on with
    | single hd =>
      rename_i d
      by_cases hv : h.get d k = v
      · exact Or.inl (.child hd hv)
      · exact Or.inr (.child hd hv)
    | head hd hc ih =>
      rename_i d c
      by_cases hv : h.get d k = h.get c k
      · rcases ih with hf | ho
        · have hcv : h.get c k = v := by
            cases hf with
            | child _ hv => exact hv
            | step _ _ hv => exact hv
          exact Or.inl (.step hd hf (hv.trans hcv))
        · rw [hv]
          exact Or.inr (.up hd (hself c hc) hv ho)
      · exact Or.inr (.own hd (hself c hc) hv)
  exact hor.resolve_left hf

/-- The members of one class are changed. -/
theorem assign_run {w1 : World} {changes : List (Key × Option Value)}
    (hrun : run classStep w (changes.map fun e => .assign self e.1 e.2) = some w1) :
    w1.kind = w.kind ∧ w1.heap.next = w.heap.next ∧
      ∀ d k, (d ≠ self ∨ bookkeeping k = true) → w1.heap.get d k = w.heap.get d k := by
  induction changes generalizing w with
  | nil =>
    cases hrun
    exact ⟨rfl, rfl, fun _ _ _ => rfl⟩
  | cons e changes ih =>
    obtain ⟨w2, hstep, hrest⟩ := Option.bind_eq_some_iff.mp hrun
    simp only [classStep] at hstep
    split at hstep
    · cases hstep
    · rename_i hok
      cases hstep
      obtain ⟨hkind, hnext, hget⟩ := ih hrest
      refine ⟨hkind, hnext, ?_⟩
      intro d k hor
      rw [hget d k hor]
      refine get_set_of_ne _ (hor.imp_right ?_) _
      rintro hk rfl
      exact hok (Or.inr hk)

/-- **Hot update.** In every program, after any change of the members of a class, `Update` with
the old members reaches the classes below and keeps what they override, if the class and those
below it have the `Update` of `clsObject`. -/
theorem update_reaches {ops : List ClassOp} {changes : List (Key × Option Value)} {w1 : World}
    {p : Option Ref} (hrun : run classStep World.start ops = some w) (hself : w.kind self = .cls p)
    (hchanges : run classStep w (changes.map fun e => .assign self e.1 e.2) = some w1)
    (hupdate : w1.heap.get self .update = some (.func .update))
    (hbelow : ∀ d, Ancestor w1 d self → w1.heap.get d .update = some (.func .update))
    {fuel : Nat} (hfuel : w1.heap.next < fuel) :
    ∃ h', callUpdate user fuel w1.heap self (w.heap.tables self) = some h' ∧
      UpdateRight w1 self (w.heap.tables self) h' := by
  obtain ⟨hkind, -, hget⟩ := assign_run hchanges
  have hformed : Formed w1 :=
    inv_of_run (fun _ op _ hs hstep => Formed.step hs op hstep) (formed_run hrun) hchanges
  have hr : Ready w1 w1.heap self (w.heap.tables self) :=
    ⟨hformed, ⟨p, by rw [hkind, hself]⟩, (hget self _ (Or.inr (by decide))).symm,
      (hget self _ (Or.inr (by decide))).symm, hupdate, hbelow⟩
  have hne : ∀ c, Ancestor w1 c self → c ≠ self :=
    fun c hc heq => Nat.lt_irrefl self (hformed.ancestor_lt (heq ▸ hc))
  obtain ⟨h', hcall, hu⟩ := @updateFrom_spec w1 user fuel _ _ _ hr rfl
    (Nat.lt_of_lt_of_le hfuel (Nat.le_add_right fuel self))
  refine ⟨h', by rw [callUpdate, hupdate]; exact hcall, ?_⟩
  constructor
  case follows => exact fun d k _ _ hk hf => hu.follows d k trivial hf hk
  case overrides =>
    intro d k hd _ hk hnot
    rw [hu.frame d k fun hn => hnot hn.2.1]
    exact nearestOverride_of_not_follows hd hne hnot
  case frame =>
    intro d k hnot
    refine hu.frame d k ?_
    rintro ⟨-, hf, hk⟩
    refine hnot ⟨hf.ancestor, ?_, hk⟩
    rw [← Bool.not_eq_true]
    exact fun hb => hr.not_follows hb hf
  case rest => exact ⟨hu.next, hu.index, hu.arrays⟩

/-- A class and a class made from that one; the argument is what the first one adds. -/
def twoLevels (o : List (Key × Value)) : List ClassOp := [.inherit 0 o, .inherit 1 []]

/-- A new member of `clsObject`. -/
def newMember : List (Key × Option Value) := [(.other 5, some (.data 5))]

/-- A new member reaches both classes. -/
theorem update_reaches_two :
    ∃ w w1 h', run classStep World.start (twoLevels []) = some w ∧
      run classStep w (newMember.map fun e => .assign 0 e.1 e.2) = some w1 ∧
      callUpdate (fun _ _ _ _ => none) 9 w1.heap 0 (w.heap.tables 0) = some h' ∧
      UpdateRight w1 0 (w.heap.tables 0) h' := by
  obtain ⟨w, hrun⟩ := Option.isSome_iff_exists.mp
    (show (run classStep World.start (twoLevels [])).isSome = true by decide)
  have hall : ∃ w1, run classStep World.start
      (twoLevels [] ++ newMember.map fun e => .assign 0 e.1 e.2) = some w1 :=
    Option.isSome_iff_exists.mp (by decide)
  obtain ⟨w1, hall⟩ := hall
  have hvalues : (run classStep World.start (twoLevels [])).map
      (fun w => w.kind 0) = some (.cls none) := by decide
  have hvalues1 : (run classStep World.start
      (twoLevels [] ++ newMember.map fun e => .assign 0 e.1 e.2)).map
      (fun w => (w.heap.next, decide (∀ d ∈ List.range 5, w.parent d ≠ none ∨ d = 0 →
        w.heap.get d .update = some (.func .update)))) = some (5, true) := by decide
  rw [hrun] at hvalues
  rw [hall] at hvalues1
  simp only [Option.map_some, Option.some.injEq, Prod.mk.injEq, decide_eq_true_eq] at hvalues hvalues1
  rw [run_append, hrun] at hall
  obtain ⟨hnext, hupdate⟩ := hvalues1
  have hformed : Formed w1 :=
    inv_of_run (fun _ op _ hs hstep => Formed.step hs op hstep) (formed_run hrun) hall
  obtain ⟨h', hcall, hright⟩ := @update_reaches _ (fun _ _ _ _ => none) _ _ _ _ _ hrun
    hvalues hall (hupdate 0 (by decide) (Or.inr rfl)) (by
      intro d hd
      obtain ⟨p, hp, -⟩ := TransGen.head'_iff.mp hd
      have hlt := hformed.alive d (by simp [parent_eq_some.mp hp])
      rw [hnext] at hlt
      exact hupdate d (List.mem_range.mpr hlt) (Or.inl (by simp [hp]))) 9 (by rw [hnext]; decide)
  exact ⟨w, w1, h', hrun, hall, hcall, hright⟩

/-- A class that replaces `Update` with a function that does nothing keeps the new member from the
classes below it, although they followed. -/
theorem update_not_right :
    ∃ w w1 h', run classStep World.start (twoLevels [(.update, .func (.user 0))]) = some w ∧
      run classStep w (newMember.map fun e => .assign 0 e.1 e.2) = some w1 ∧
      callUpdate (fun _ h _ _ => some h) 9 w1.heap 0 (w.heap.tables 0) = some h' ∧
      ¬ UpdateRight w1 0 (w.heap.tables 0) h' := by
  obtain ⟨w, hrun⟩ := Option.isSome_iff_exists.mp
    (show (run classStep World.start (twoLevels [(.update, .func (.user 0))])).isSome = true by
      decide)
  have hvalues : (run classStep World.start (twoLevels [(.update, .func (.user 0))])).bind
      (fun w => (run classStep w (newMember.map fun e => .assign 0 e.1 e.2)).bind fun w1 =>
        (callUpdate (fun _ h _ _ => some h) 9 w1.heap 0 (w.heap.tables 0)).map fun h' =>
          ((w1.parent 3, w1.parent 1), ((w.heap.tables 0).get (.other 5), w1.heap.get 0 (.other 5)),
            (w1.heap.get 1 (.other 5), w1.heap.get 3 (.other 5)), h'.get 3 (.other 5))) =
      some ((some 1, some 0), (none, some (.data 5)), (none, none), none) := by decide
  rw [hrun, Option.bind_some] at hvalues
  obtain ⟨w1, hchanges, hvalues⟩ := Option.bind_eq_some_iff.mp hvalues
  obtain ⟨h', hcall, hvalues⟩ := Option.map_eq_some_iff.mp hvalues
  simp only [Prod.mk.injEq] at hvalues
  obtain ⟨⟨hp3, hp1⟩, ⟨hold, hnew⟩, ⟨h1, h3⟩, hresult⟩ := hvalues
  refine ⟨w, w1, h', hrun, hchanges, hcall, ?_⟩
  intro hright
  have hf : Follows w1.parent w1.heap 0 (.other 5) ((w.heap.tables 0).get (.other 5)) 3 := by
    rw [hold]
    exact .step hp3 (.child hp1 h1) h3
  have hreach := hright.follows 3 (.other 5) (.tail (.single hp3) hp1) (by decide)
    (by simp [hnew]) hf
  rw [hresult, hnew] at hreach
  cases hreach

end Donkeyji.LuaBase
