/-
Donkeyji.LuaBase.ImportTheorems — `import` returns exactly if no cycle of
imports can be reached, and then it runs each module once.

The registry is updated when the body and `__init__` are done, so that a module
in a cycle is run again before it is registered: what has been imported is
accessible by the relation of imports (`accessible_of_import`). In the other
direction the proof is by that relation; `Inv` says what has been run at a time
when some modules are under way, and no file under way is reached from the one
that is imported (`import_spec`).
-/
import Mathlib.Data.Finite.Defs
import Mathlib.Data.Fintype.Card
import Mathlib.Order.WellFounded
import Mathlib.Tactic
import Donkeyji.LuaBase.Import

namespace Donkeyji.LuaBase

open Relation

variable {File : Type} {p : Scripts File} {s s' : Registry File} {f g : File} {m fuel : Nat}

/-- The module `f` imports `g`, in its body or in its `__init__`. -/
def Imports (p : Scripts File) (f g : File) : Prop :=
  g ∈ (p.file f).body ∨ ∃ gs, p.init f = some gs ∧ g ∈ gs

/-- There is no endless chain of imports from `f`. -/
def Accessible (p : Scripts File) (f : File) : Prop := Acc (fun g f => Imports p f g) f

/-- A chain of imports from `f` leads into a cycle. -/
def ReachesCycle (p : Scripts File) (f : File) : Prop :=
  ∃ g, ReflTransGen (Imports p) f g ∧ TransGen (Imports p) g g

/-- Among finitely many files the chains end exactly if none leads into a cycle. -/
theorem accessible_iff [Finite File] : Accessible p f ↔ ¬ ReachesCycle p f := by
  constructor
  · intro hacc
    induction hacc with
    | intro f _ ih =>
      rintro ⟨g, hfg, hgg⟩
      rcases ReflTransGen.cases_head hfg with rfl | ⟨e, hfe, heg⟩
      · obtain ⟨e, hfe, hef⟩ := TransGen.head'_iff.mp hgg
        exact ih e hfe ⟨e, .refl, TransGen.tail' hef hfe⟩
      · exact ih e hfe ⟨g, heg, hgg⟩
  · intro hno
    -- the files below others, as far as they are reached
    let below : File → File → Prop := fun b a =>
      ReflTransGen (Imports p) f a ∧ TransGen (Imports p) a b
    have htrans : IsTrans File below := ⟨fun c b a hcb hba => ⟨hba.1, hba.2.trans hcb.2⟩⟩
    have hirrefl : Std.Irrefl below := ⟨fun a ha => hno ⟨a, ha.1, ha.2⟩⟩
    have hwf : WellFounded below := Finite.wellFounded_of_trans_of_irrefl below
    have hall : ∀ a, ReflTransGen (Imports p) f a → Accessible p a := by
      intro a
      induction a using hwf.induction with
      | _ a ih =>
        intro hfa
        exact .intro a fun b hab => ih b ⟨hfa, .single hab⟩ (hfa.tail hab)
    exact hall f .refl

/-- What is imported from a file whose chains end does not import it again. -/
theorem Accessible.not_back (h : Accessible p f) (hfg : Imports p f g) :
    ¬ ReflTransGen (Imports p) g f := by
  intro hgf
  have hcycle : ∀ {f}, Accessible p f → ¬ TransGen (Imports p) f f := by
    intro f hf
    induction hf with
    | intro f _ ih =>
      intro hff
      obtain ⟨e, hfe, hef⟩ := TransGen.head'_iff.mp hff
      exact ih e hfe (TransGen.tail' hef hfe)
  exact hcycle h (TransGen.head' hfg hgf)

variable [DecidableEq File]

/-! ## More fuel -/

/-- A file that is registered is not run. -/
theorem importFile_registered (h : s.imported f = some m) :
    importFile p (fuel + 1) s f = some (m, s.add (.returned f m)) := by
  rw [importFile, h]

/-- What `import` does with a new file up to the registration. -/
def runFile (p : Scripts File) (fuel : Nat) (s : Registry File) (f : File) :
    Option (Registry File) :=
  (importAll p fuel ({ s with next := s.next + 1 }.add (.body f)) (p.file f).body).bind fun s =>
    match p.init f with
    | none => some s
    | some gs => importAll p fuel (s.add (.init f)) gs

/-- A file that is not registered is run, and then it is. -/
theorem importFile_new (h : s.imported f = none) :
    importFile p (fuel + 1) s f = (runFile p fuel s f).map fun s' =>
      (s.next, { s' with imported := Function.update s'.imported f (some s.next) }.add
        (.returned f s.next)) := by
  rw [importFile, h]
  unfold runFile importAll
  simp only [Option.bind_eq_bind, Option.pure_def]
  rw [Option.map_eq_bind, Option.bind_assoc]
  refine congrArg _ (funext fun s1 => ?_)
  cases p.init f <;> rfl

/-- More fuel does not change a list of imports, if it does not change one. -/
theorem importAll_mono {n n' : Nat}
    (h : ∀ s f r, importFile p n s f = some r → importFile p n' s f = some r) {fs : List File}
    (hs : importAll p n s fs = some s') : importAll p n' s fs = some s' := by
  induction fs generalizing s with
  | nil => exact hs
  | cons f fs ih =>
    unfold importAll at hs ih ⊢
    rw [List.foldlM_cons] at hs ⊢
    obtain ⟨s1, hs1, hrest⟩ := Option.bind_eq_some_iff.mp hs
    obtain ⟨r, hr, rfl⟩ := Option.map_eq_some_iff.mp hs1
    rw [h s f r hr]
    exact ih hrest

/-- More fuel does not change a result. -/
theorem importFile_mono {n n' : Nat} (hle : n ≤ n') :
    ∀ s f r, importFile p n s f = some r → importFile p n' s f = some r := by
  induction n generalizing n' with
  | zero =>
    intro s f r h
    cases h
  | succ n ih =>
    intro s f r h
    obtain ⟨k, rfl⟩ : ∃ k, n' = k + 1 := ⟨n' - 1, by omega⟩
    have hall : ∀ {s s' : Registry File} {fs}, importAll p n s fs = some s' →
        importAll p k s fs = some s' := importAll_mono (ih (by omega))
    cases hreg : s.imported f with
    | some m =>
      rw [importFile_registered hreg] at h ⊢
      exact h
    | none =>
      rw [importFile_new hreg] at h ⊢
      obtain ⟨s1, hrun, rfl⟩ := Option.map_eq_some_iff.mp h
      have hmore : runFile p k s f = some s1 := by
        unfold runFile at hrun ⊢
        obtain ⟨s2, hbody, hinit⟩ := Option.bind_eq_some_iff.mp hrun
        rw [hall hbody, Option.bind_some]
        cases hi : p.init f with
        | none =>
          rw [hi] at hinit
          exact hinit
        | some gs =>
          rw [hi] at hinit
          exact hall hinit
      rw [hmore]
      rfl

/-! ## What returns has no cycle -/

/-- What is registered is accessible. -/
def Closed (p : Scripts File) (s : Registry File) : Prop :=
  ∀ f, (s.imported f).isSome = true → Accessible p f

/-- A list of imports that returns, if one import is as it should be. -/
theorem accessible_of_importAll
    (h : ∀ s f m s', Closed p s → importFile p fuel s f = some (m, s') →
      Accessible p f ∧ Closed p s') {fs : List File} (hs : Closed p s)
    (hall : importAll p fuel s fs = some s') : (∀ f ∈ fs, Accessible p f) ∧ Closed p s' := by
  induction fs generalizing s with
  | nil =>
    cases hall
    exact ⟨by simp, hs⟩
  | cons f fs ih =>
    unfold importAll at hall ih
    rw [List.foldlM_cons] at hall
    obtain ⟨s1, hs1, hrest⟩ := Option.bind_eq_some_iff.mp hall
    obtain ⟨⟨m, s1⟩, hr, rfl⟩ := Option.map_eq_some_iff.mp hs1
    obtain ⟨hf, hclosed⟩ := h s f m s1 hs hr
    obtain ⟨hfs, hclosed'⟩ := ih hclosed hrest
    exact ⟨List.forall_mem_cons.mpr ⟨hf, hfs⟩, hclosed'⟩

/-- **A file that `import` returns for** has no endless chain of imports. -/
theorem accessible_of_import : ∀ (fuel : Nat) (s : Registry File) (f : File) (m : Nat)
    (s' : Registry File), Closed p s → importFile p fuel s f = some (m, s') →
      Accessible p f ∧ Closed p s' := by
  intro fuel
  induction fuel with
  | zero =>
    intro s f m s' _ h
    cases h
  | succ fuel ih =>
    intro s f m s' hs h
    cases hreg : s.imported f with
    | some m' =>
      rw [importFile_registered hreg] at h
      cases h
      exact ⟨hs f (by simp [hreg]), hs⟩
    | none =>
      rw [importFile_new hreg] at h
      obtain ⟨s1, hrun, heq⟩ := Option.map_eq_some_iff.mp h
      cases heq
      obtain ⟨s2, hbody, hinit⟩ := Option.bind_eq_some_iff.mp hrun
      obtain ⟨hbodies, hclosed⟩ := accessible_of_importAll ih
        (s := { s with next := s.next + 1 }.add (.body f)) hs hbody
      have hrest : (∀ gs, p.init f = some gs → ∀ g ∈ gs, Accessible p g) ∧ Closed p s1 := by
        cases hi : p.init f with
        | none =>
          rw [hi] at hinit
          cases hinit
          exact ⟨by simp, hclosed⟩
        | some gs =>
          rw [hi] at hinit
          obtain ⟨hgs, hclosed'⟩ := accessible_of_importAll ih (s := s2.add (.init f)) hclosed hinit
          exact ⟨fun gs' h => Option.some.inj h ▸ hgs, hclosed'⟩
      have hacc : Accessible p f := by
        refine .intro f fun g hfg => ?_
        rcases hfg with hg | ⟨gs, hgs, hg⟩
        · exact hbodies g hg
        · exact hrest.1 gs hgs g hg
      refine ⟨hacc, ?_⟩
      intro g hg
      by_cases hgf : g = f
      · exact hgf ▸ hacc
      · refine hrest.2 g ?_
        simpa [Registry.add, hgf] using hg

/-! ## Without a cycle each module runs once -/

/-- What was run and returned when the files in `busy` are under way. -/
structure Inv (busy : List File) (s : Registry File) : Prop where
  bodyOnce : ∀ f, s.log.count (.body f) ≤ 1
  initOnce : ∀ f, s.log.count (.init f) ≤ 1
  fresh : ∀ f, s.imported f = none → f ∉ busy →
    s.log.count (.body f) = 0 ∧ s.log.count (.init f) = 0
  returned : ∀ f m, .returned f m ∈ s.log → s.imported f = some m

/-- The registry only grows, and only by files reached from those in `part`. -/
structure Grew (p : Scripts File) (part : File → Prop) (s s' : Registry File) : Prop where
  grows : ∀ g m, s.imported g = some m → s'.imported g = some m
  frame : ∀ g, (∀ f, part f → ¬ ReflTransGen (Imports p) f g) → s'.imported g = s.imported g ∧
    s'.log.count (.body g) = s.log.count (.body g) ∧
    s'.log.count (.init g) = s.log.count (.init g)

/-- What an import should do while the files in `busy` are under way. -/
def ImportsOnce (p : Scripts File) (busy : List File) (f : File) : Prop :=
  ∀ s, Inv busy s → ∃ fuel m s', importFile p fuel s f = some (m, s') ∧ Inv busy s' ∧
    Grew p (· = f) s s'

theorem Grew.refl (part : File → Prop) (s : Registry File) : Grew p part s s :=
  ⟨fun _ _ h => h, fun _ _ => ⟨rfl, rfl, rfl⟩⟩

theorem Grew.trans {part : File → Prop} {s s1 s2 : Registry File} (h : Grew p part s s1)
    (h' : Grew p part s1 s2) : Grew p part s s2 where
  grows := fun g m hg => h'.grows g m (h.grows g m hg)
  frame := by
    intro g hg
    obtain ⟨h1, h2, h3⟩ := h.frame g hg
    obtain ⟨h1', h2', h3'⟩ := h'.frame g hg
    exact ⟨h1'.trans h1, h2'.trans h2, h3'.trans h3⟩

theorem Grew.mono {part part' : File → Prop} (h : Grew p part s s')
    (himp : ∀ f, part f → part' f) : Grew p part' s s' where
  grows := h.grows
  frame := fun g hg => h.frame g fun f hf => hg f (himp f hf)

/-- A list of imports. -/
theorem importAll_spec {busy fs : List File} (h : ∀ f ∈ fs, ImportsOnce p busy f)
    (hs : Inv busy s) :
    ∃ fuel s', importAll p fuel s fs = some s' ∧ Inv busy s' ∧ Grew p (· ∈ fs) s s' := by
  induction fs generalizing s with
  | nil => exact ⟨0, s, rfl, hs, .refl _ _⟩
  | cons f fs ih =>
    obtain ⟨n1, m, s1, himport, hs1, hg1⟩ := h f List.mem_cons_self s hs
    obtain ⟨n2, s2, hall, hs2, hg2⟩ := ih (fun g hg => h g (List.mem_cons_of_mem f hg)) hs1
    have hg1' : Grew p (· ∈ f :: fs) s s1 := hg1.mono fun g hg => hg ▸ List.mem_cons_self
    have hg2' : Grew p (· ∈ f :: fs) s1 s2 := hg2.mono fun g hg => List.mem_cons_of_mem f hg
    refine ⟨max n1 n2, s2, ?_, hs2, hg1'.trans hg2'⟩
    · have h1 := importFile_mono (Nat.le_max_left n1 n2) s f _ himport
      have h2 := importAll_mono (importFile_mono (Nat.le_max_right n1 n2)) hall
      unfold importAll at h2 ⊢
      rw [List.foldlM_cons, h1]
      exact h2

/-- What the imports of a file reach is reached from it. -/
theorem Grew.up {part : File → Prop} (h : Grew p part s s') (himp : ∀ g, part g → Imports p f g) :
    Grew p (· = f) s s' where
  grows := h.grows
  frame := fun e he => h.frame e fun g hg hge => he f rfl (.head (himp g hg) hge)

/-- An event about `f`. -/
theorem grew_add {e : Event File} (hbody : ∀ g, e = .body g → g = f)
    (hinit : ∀ g, e = .init g → g = f) (s : Registry File) : Grew p (· = f) s (s.add e) where
  grows := fun _ _ h => h
  frame := by
    intro g hg
    have hne : g ≠ f := fun h => hg f rfl (h ▸ .refl)
    have h1 : e ≠ .body g := fun h => hne (hbody g h)
    have h2 : e ≠ .init g := fun h => hne (hinit g h)
    refine ⟨rfl, ?_, ?_⟩
    · simp [Registry.add, List.count_append, h1]
    · simp [Registry.add, List.count_append, h2]

/-- `f` is registered. -/
theorem grew_register (h : s.imported f = none) (m : Nat) :
    Grew p (· = f) s { s with imported := Function.update s.imported f (some m) } where
  grows := by
    intro g m' hg
    have hne : g ≠ f := by
      rintro rfl
      rw [h] at hg
      cases hg
    show Function.update s.imported f (some m) g = some m'
    rw [Function.update_of_ne hne]
    exact hg
  frame := by
    intro g hg
    have hne : g ≠ f := fun h => hg f rfl (h ▸ .refl)
    exact ⟨Function.update_of_ne hne _ _, rfl, rfl⟩

/-- The body of a new file is started. -/
theorem Inv.start_body {busy : List File} (hs : Inv busy s) (hreg : s.imported f = none)
    (hbusy : f ∉ busy) : Inv (f :: busy) ({ s with next := s.next + 1 }.add (.body f)) where
  bodyOnce := by
    intro g
    have h0 := (hs.fresh f hreg hbusy).1
    have h1 := hs.bodyOnce g
    by_cases hg : g = f
    · subst hg
      simp [Registry.add, List.count_append, h0]
    · simpa [Registry.add, List.count_append, List.count_singleton, Ne.symm hg] using h1
  initOnce := by
    intro g
    simpa [Registry.add, List.count_append, List.count_singleton] using hs.initOnce g
  fresh := by
    intro g hg hgb
    obtain ⟨hne, hgb⟩ := not_or.mp (fun h => hgb (List.mem_cons.mpr h))
    simpa [Registry.add, List.count_append, List.count_singleton, Ne.symm hne] using
      hs.fresh g hg hgb
  returned := by
    intro g m hmem
    exact hs.returned g m (by simpa [Registry.add] using hmem)

/-- `__init__` is started, which was not run before. -/
theorem Inv.start_init {busy : List File} (hs : Inv (f :: busy) s)
    (hinit : s.log.count (.init f) = 0) : Inv (f :: busy) (s.add (.init f)) where
  bodyOnce := by
    intro g
    simpa [Registry.add, List.count_append, List.count_singleton] using hs.bodyOnce g
  initOnce := by
    intro g
    have h1 := hs.initOnce g
    by_cases hg : g = f
    · subst hg
      simp [Registry.add, List.count_append, hinit]
    · simpa [Registry.add, List.count_append, List.count_singleton, Ne.symm hg] using h1
  fresh := by
    intro g hg hgb
    have hne : g ≠ f := fun h => hgb (h ▸ List.mem_cons_self)
    simpa [Registry.add, List.count_append, List.count_singleton, Ne.symm hne] using
      hs.fresh g hg hgb
  returned := by
    intro g m hmem
    exact hs.returned g m (by simpa [Registry.add] using hmem)

/-- The module that is registered is returned. -/
theorem Inv.return {busy : List File} (hs : Inv busy s) (hreg : s.imported f = some m) :
    Inv busy (s.add (.returned f m)) where
  bodyOnce := by
    intro g
    simpa [Registry.add, List.count_append, List.count_singleton] using hs.bodyOnce g
  initOnce := by
    intro g
    simpa [Registry.add, List.count_append, List.count_singleton] using hs.initOnce g
  fresh := by
    intro g hg hgb
    simpa [Registry.add, List.count_append, List.count_singleton] using hs.fresh g hg hgb
  returned := by
    intro g m' hmem
    have hor : Event.returned g m' ∈ s.log ∨ (g = f ∧ m' = m) := by
      simpa [Registry.add] using hmem
    rcases hor with hold | ⟨rfl, rfl⟩
    · exact hs.returned g m' hold
    · exact hreg

/-- A file that is done is registered. -/
theorem Inv.register {busy : List File} (hs : Inv (f :: busy) s) (hreg : s.imported f = none)
    (m : Nat) : Inv busy { s with imported := Function.update s.imported f (some m) } where
  bodyOnce := hs.bodyOnce
  initOnce := hs.initOnce
  fresh := by
    intro g hg hgb
    by_cases hgf : g = f
    · subst hgf
      simp at hg
    · have hold : s.imported g = none := by simpa [hgf] using hg
      exact hs.fresh g hold (by simp [hgf, hgb])
  returned := by
    intro g m' hmem
    have hold := hs.returned g m' hmem
    have hgf : g ≠ f := by
      rintro rfl
      rw [hreg] at hold
      cases hold
    show Function.update s.imported f (some m) g = some m'
    rw [Function.update_of_ne hgf]
    exact hold

/-- A new file is run, if its imports are as they should be. -/
theorem runFile_spec {busy : List File} (hacc : Accessible p f)
    (hspec : ∀ g, Imports p f g → ImportsOnce p (f :: busy) g) (hs : Inv busy s)
    (hreg : s.imported f = none) (hbusy : f ∉ busy) :
    ∃ fuel s', runFile p fuel s f = some s' ∧ Inv (f :: busy) s' ∧ Grew p (· = f) s s' ∧
      s'.imported f = none := by
  -- no import of `f` reaches `f`
  have hback : ∀ {part : File → Prop} {s s' : Registry File}, Grew p part s s' →
      (∀ g, part g → Imports p f g) → s'.imported f = s.imported f ∧
        s'.log.count (.init f) = s.log.count (.init f) := by
    intro part s s' hg himp
    obtain ⟨h1, -, h3⟩ := hg.frame f fun g hgp => hacc.not_back (himp g hgp)
    exact ⟨h1, h3⟩
  have hbodyImp : ∀ g, g ∈ (p.file f).body → Imports p f g := fun g hg => Or.inl hg
  obtain ⟨n1, s2, hbody, hs2, hg2⟩ := importAll_spec
    (fun g hg => hspec g (hbodyImp g hg)) (hs.start_body hreg hbusy)
  have hstart : Grew p (· = f) s ({ s with next := s.next + 1 }.add (.body f)) := by
    have hadd : Grew p (· = f) { s with next := s.next + 1 } _ :=
      grew_add (e := .body f) (fun g h => (Event.body.inj h).symm) (fun g h => by cases h) _
    exact ⟨hadd.grows, hadd.frame⟩
  have hgrew2 : Grew p (· = f) s s2 := hstart.trans (hg2.up hbodyImp)
  obtain ⟨hnone2, hinit2⟩ := hback hg2 hbodyImp
  have hnone2' : s2.imported f = none := hnone2.trans hreg
  have hinit0 : s2.log.count (.init f) = 0 := by
    rw [hinit2]
    simpa [Registry.add, List.count_append, List.count_singleton] using
      (hs.fresh f hreg hbusy).2
  cases hi : p.init f with
  | none =>
    refine ⟨n1, s2, ?_, hs2, hgrew2, hnone2'⟩
    rw [runFile, hbody, Option.bind_some, hi]
  | some gs =>
    have hinitImp : ∀ g, g ∈ gs → Imports p f g := fun g hg => Or.inr ⟨gs, hi, hg⟩
    obtain ⟨n2, s3, hall, hs3, hg3⟩ := importAll_spec
      (fun g hg => hspec g (hinitImp g hg)) (hs2.start_init hinit0)
    have hadd : Grew p (· = f) s2 (s2.add (.init f)) :=
      grew_add (fun g h => by cases h) (fun g h => (Event.init.inj h).symm) s2
    refine ⟨max n1 n2, s3, ?_, hs3, hgrew2.trans (hadd.trans (hg3.up hinitImp)),
      (hback hg3 hinitImp).1.trans hnone2'⟩
    have h1 := importAll_mono (importFile_mono (Nat.le_max_left n1 n2)) hbody
    have h2 := importAll_mono (importFile_mono (Nat.le_max_right n1 n2)) hall
    rw [runFile, h1, Option.bind_some, hi]
    exact h2

/-- **A file without endless chains of imports** is imported once. -/
theorem import_spec (hacc : Accessible p f) : ∀ busy : List File,
    (∀ g ∈ busy, ¬ ReflTransGen (Imports p) f g) → ImportsOnce p busy f := by
  induction hacc with
  | intro f hbelow ih =>
    intro busy hbusy s hs
    have hfacc : Accessible p f := .intro f hbelow
    cases hreg : s.imported f with
    | some m =>
      refine ⟨1, m, s.add (.returned f m), importFile_registered hreg, hs.return hreg, ?_⟩
      exact grew_add (fun g h => by cases h) (fun g h => by cases h) s
    | none =>
      have hspec : ∀ g, Imports p f g → ImportsOnce p (f :: busy) g := by
        intro g hfg
        refine ih g hfg (f :: busy) ?_
        intro e he hge
        rcases List.mem_cons.mp he with rfl | he
        · exact hfacc.not_back hfg hge
        · exact hbusy e he (.head hfg hge)
      have hnot : f ∉ busy := fun h => hbusy f h .refl
      obtain ⟨fuel, s1, hrun, hs1, hg1, hnone⟩ := runFile_spec hfacc hspec hs hreg hnot
      refine ⟨fuel + 1, s.next, _, by rw [importFile_new hreg, hrun]; rfl, ?_, ?_⟩
      · exact (hs1.register hnone s.next).return (by simp)
      · refine hg1.trans ((grew_register hnone s.next).trans ?_)
        exact grew_add (fun g h => by cases h) (fun g h => by cases h) _

/-! ## Whole runs -/

/-- What a run of imports should do: it returns, starts each body and each `__init__` at most
once, and each import of a file returns the same table. -/
def RunsOnce (p : Scripts File) (fs : List File) : Prop :=
  ∃ fuel s, importAll p fuel (.start File) fs = some s ∧
    (∀ f, s.log.count (.body f) ≤ 1) ∧ (∀ f, s.log.count (.init f) ≤ 1) ∧
    ∀ f m m', .returned f m ∈ s.log → .returned f m' ∈ s.log → m = m'

/-- **`import`** is right about a list of calls exactly if none of them leads into a cycle. -/
theorem runsOnce_iff [Finite File] (p : Scripts File) (fs : List File) :
    RunsOnce p fs ↔ ∀ f ∈ fs, ¬ ReachesCycle p f := by
  constructor
  · rintro ⟨fuel, s, hall, -⟩ f hf
    rw [← accessible_iff]
    have hclosed : Closed p (.start File) := by
      intro g hg
      cases hg
    exact (accessible_of_importAll (accessible_of_import fuel) hclosed hall).1 f hf
  · intro h
    have hstart : Inv [] (.start File) :=
      ⟨fun _ => Nat.zero_le 1, fun _ => Nat.zero_le 1, fun _ _ _ => ⟨rfl, rfl⟩, by
        intro f m hmem
        cases hmem⟩
    obtain ⟨fuel, s, hall, hs, -⟩ := importAll_spec (p := p)
      (fun f hf => import_spec (accessible_iff.mpr (h f hf)) [] (by simp)) hstart
    refine ⟨fuel, s, hall, hs.bodyOnce, hs.initOnce, ?_⟩
    intro f m m' h h'
    have h1 := hs.returned f m h
    have h2 := hs.returned f m' h'
    rw [h1] at h2
    exact Option.some.inj h2

/-- Three modules; each imports later ones, the last has an `__init__`. -/
def threeModules : Scripts (Fin 3) where
  file
    | 0 => ⟨[1, 2], none⟩
    | 1 => ⟨[2, 2], some [2]⟩
    | 2 => ⟨[], some []⟩
  globalInit := none

/-- All three are imported once. -/
theorem runsOnce_three : RunsOnce threeModules [0, 2, 1] := by
  refine (runsOnce_iff threeModules [0, 2, 1]).mpr ?_
  have hlt : ∀ f g, Imports threeModules f g → f < g := by
    intro f g h
    rcases h with h | ⟨gs, hgs, h⟩
    · fin_cases f <;> fin_cases g <;> simp_all [threeModules]
    · fin_cases f <;> simp [threeModules, Scripts.init] at hgs <;> subst hgs <;>
        fin_cases g <;> simp_all
  have hlt' : ∀ f g, TransGen (Imports threeModules) f g → f < g := by
    intro f g h
    induction h with
    | single h => exact hlt _ _ h
    | tail _ h ih => exact ih.trans (hlt _ _ h)
  rintro f - ⟨g, -, hgg⟩
  exact lt_irrefl g (hlt' g g hgg)

/-- Two modules that import each other. -/
def cycleModules : Scripts Bool where
  file f := ⟨[!f], none⟩
  globalInit := none

/-- `import` of one of them never returns. -/
theorem not_runsOnce_cycle :
    (∀ fuel, importFile cycleModules fuel (.start Bool) false = none) ∧
      ¬ RunsOnce cycleModules [false] := by
  have hcycle : ¬ Accessible cycleModules false := by
    rw [accessible_iff, not_not]
    have himp : ∀ f, Imports cycleModules f (!f) := fun f => Or.inl List.mem_cons_self
    exact ⟨false, .refl, .tail (.single (himp false)) (himp true)⟩
  have hclosed : Closed cycleModules (.start Bool) := by
    intro g hg
    cases hg
  refine ⟨?_, ?_⟩
  · intro fuel
    by_contra hne
    obtain ⟨⟨m, s⟩, h⟩ := Option.ne_none_iff_exists'.mp hne
    exact hcycle (accessible_of_import fuel _ _ m s hclosed h).1
  · rintro ⟨fuel, s, hall, -⟩
    exact hcycle ((accessible_of_importAll (accessible_of_import fuel) hclosed hall).1 false
      List.mem_cons_self)

end Donkeyji.LuaBase
