/-
Donkeyji.Aoi.SceneTheorems — when every entity of a scene is registered in the
grid it is in.

An entity counts as in the scene from its `enterScene` to its `leaveScene`.
`__updateAOI` changes the lists of visible entities only, so an operation has
done what it does to the grids when it gets there, and may raise from then on.

With the file alone nobody gets into a grid, because `getId` is missing. If
something else defines it, entering is right, a move is right only within a
grid, because `moveTo` leaves the tables of the grids alone, and leaving never
takes the entity out: the scene has no `onLeaveScene`, and `onEntityLeave`
raises at once. `gridsRight_iff` puts this together.
-/
import Donkeyji.Lib.Raising
import Donkeyji.Lib.Runs
import Donkeyji.Aoi.Scene

namespace Donkeyji.Aoi

open Raising Runs

variable {E I : Type} [DecidableEq E] [DecidableEq I] {names : Names E I} {conf : SceneConf}

/-! ## What is asked for -/

/-- The entities in the scene, as the operations say. -/
structure Stage (E I : Type) where
  world : World E I
  inScene : E → Bool

/-- The entity is in the table of the grid. -/
def World.Registered (w : World E I) (grid : GridRef) (e : E) : Prop :=
  ∃ id, w.grids grid id = some (some e)

/-- The grid contains the point. -/
def GridRef.Contains (conf : SceneConf) (grid : GridRef) (x y : Int) : Prop :=
  grid.i < conf.nI ∧ grid.j < conf.nJ ∧
    grid.i * conf.gridHeight ≤ y ∧ y < (grid.i + 1) * conf.gridHeight ∧
    grid.j * conf.gridWidth ≤ x ∧ x < (grid.j + 1) * conf.gridWidth

/-- An entity in the scene is in the table of the grid that contains it, which is its `ownerGrid`,
and in no other; another entity is in no table. -/
def EntityRight (conf : SceneConf) (s : Stage E I) (e : E) : Prop :=
  if s.inScene e then
    ∃ grid, s.world.ownerGrid e = some grid ∧
      grid.Contains conf (s.world.x e) (s.world.y e) ∧
      ∀ grid', s.world.Registered grid' e ↔ grid' = grid
  else
    ∀ grid, ¬ s.world.Registered grid e

/-- All entities are registered rightly. -/
def GridsRight (conf : SceneConf) (s : Stage E I) : Prop := ∀ e, EntityRight conf s e

/-- Who is in the scene after an operation. -/
def SceneOp.inScene (op : SceneOp E) (b : E → Bool) : E → Bool :=
  match op with
  | .enterScene e _ _ _ => Function.update b e true
  | .moveTo _ _ _ _ => b
  | .leaveScene e _ => Function.update b e false

/-- A step of a run: the operation returns or raises. -/
def stageStep (names : Names E I) (conf : SceneConf) (s : Stage E I) (op : SceneOp E) :
    Option (Stage E I) :=
  some ⟨after (op.run names conf) s.world, op.inScene s.inScene⟩

/-- An entity enters when it is not in the scene, and moves and leaves when it is; it stays inside
the scene. -/
def Allowed (conf : SceneConf) (s : Stage E I) : SceneOp E → Prop
  | .enterScene e x y _ => s.inScene e = false ∧ x < conf.width ∧ y < conf.height
  | .moveTo e x y _ => s.inScene e = true ∧ x < conf.width ∧ y < conf.height
  | .leaveScene e _ => s.inScene e = true

/-- The grid of a point, if the scene has one there. -/
def gridOf (conf : SceneConf) (x y : Nat) : Option GridRef :=
  let ij := xyToij conf x y
  if ij.1 < conf.nI ∧ ij.2 < conf.nJ then some ⟨ij.1, ij.2⟩ else none

/-- The condition on an operation. -/
def KeepsGrids (names : Names E I) (conf : SceneConf) (s : Stage E I) : SceneOp E → Prop
  | .enterScene _ x y _ => names.getId ≠ none ∧ gridOf conf x y ≠ none
  | .moveTo e x y _ => gridOf conf x y = none ∨ gridOf conf x y = s.world.ownerGrid e
  | .leaveScene _ _ => False

instance (s : Stage E I) : ∀ op, Decidable (Allowed conf s op)
  | .enterScene _ _ _ _ => inferInstanceAs (Decidable (_ ∧ _))
  | .moveTo _ _ _ _ => inferInstanceAs (Decidable (_ ∧ _))
  | .leaveScene _ _ => inferInstanceAs (Decidable (_ = _))

instance (s : Stage E I) : ∀ op, Decidable (KeepsGrids names conf s op)
  | .enterScene _ _ _ _ => inferInstanceAs (Decidable (_ ∧ _))
  | .moveTo _ _ _ _ => inferInstanceAs (Decidable (_ ∨ _))
  | .leaveScene _ _ => inferInstanceAs (Decidable False)

/-! ## The pieces of the program -/

/-- The grid of a point contains it. -/
theorem gridOf_contains {x y : Nat} {grid : GridRef} (h : gridOf conf x y = some grid) :
    grid.Contains conf x y := by
  unfold gridOf xyToij at h
  by_cases hin : y / conf.gridHeight < conf.nI ∧ x / conf.gridWidth < conf.nJ
  case neg => simp [hin] at h
  rw [if_pos hin] at h
  cases h
  refine ⟨hin.1, hin.2, ?_, ?_, ?_, ?_⟩
  · exact_mod_cast Nat.div_mul_le_self y conf.gridHeight
  · exact_mod_cast Nat.lt_mul_of_div_lt (Nat.lt_succ_self _) conf.gridHeight_pos
  · exact_mod_cast Nat.div_mul_le_self x conf.gridWidth
  · exact_mod_cast Nat.lt_mul_of_div_lt (Nat.lt_succ_self _) conf.gridWidth_pos

/-- The list of visible entities is all that `__updateAOI` changes. -/
def World.places (w : World E I) : World E I := { w with visibleEntitys := fun _ _ => none }

omit [DecidableEq E] [DecidableEq I] in
theorem keeps_getId (entity : Option E) : Keeps World.places (getId names entity) := by
  unfold getId
  split
  · exact keeps_pure _
  · exact keeps_throw _

theorem keeps_addVisibleEntity (e : E) (entity : Option E) :
    Keeps World.places (addVisibleEntity names e entity) :=
  (keeps_getId entity).bind fun _ => keeps_modify fun _ => rfl

theorem keeps_removeVisibleEntity (e : E) (entity : Option E) :
    Keeps World.places (removeVisibleEntity names e entity) :=
  (keeps_getId entity).bind fun _ => keeps_modify fun _ => rfl

omit [DecidableEq E] [DecidableEq I] in
theorem keeps_getEntitys : Keeps World.places (getEntitys names) := by
  unfold getEntitys
  split
  · exact keeps_pure _
  · exact keeps_throw _

omit [DecidableEq E] [DecidableEq I] in
theorem keeps_broadcast : Keeps World.places (broadcastSelf2Neighbors names) := by
  unfold broadcastSelf2Neighbors
  split
  · exact keeps_pure _
  · exact keeps_throw _

/-- `__updateAOI` does not touch the grids. -/
theorem keeps_updateAOI (stubs : Stubs) (e : E) (oldGrid newGrid : Option GridRef)
    (oldScene newScene : Bool) :
    Keeps World.places (updateAOI names stubs e oldGrid newGrid oldScene newScene) := by
  unfold updateAOI
  refine keeps_get.bind fun w => ?_
  split
  case isFalse => exact keeps_throw _
  case isTrue =>
  refine Keeps.bind (keeps_forM fun _ _ => ?_) fun _ => keeps_forM fun _ _ => ?_
  · refine keeps_getEntitys.bind fun all => keeps_forM fun entry _ => ?_
    split
    · refine (keeps_addVisibleEntity _ _).bind fun _ => ?_
      split
      · exact keeps_throw _
      · exact keeps_addVisibleEntity _ _
    · exact keeps_pure _
  · refine keeps_getEntitys.bind fun all => keeps_forM fun entry _ => ?_
    split
    · split
      · exact keeps_throw _
      · exact (keeps_removeVisibleEntity _ _).bind fun _ => keeps_removeVisibleEntity _ _
    · exact keeps_pure _

/-! ## The operations -/

variable {w : World E I} {e : E} {x y : Nat} {stubs : Stubs}

omit [DecidableEq E] [DecidableEq I] in
/-- `self.grids[i][j]`. -/
theorem gridAt_eq (x y : Nat) (w : World E I) : gridAt conf (xyToij conf x y) w =
    match gridOf conf x y with
    | some grid => .ok grid w
    | none => .error .indexError w := by
  unfold gridAt gridOf
  by_cases h : (xyToij conf x y).1 < conf.nI ∧ (xyToij conf x y).2 < conf.nJ
  · simp only [h]
    rfl
  · simp only [h]
    rfl

/-- `leaveScene` raises before it changes anything. -/
theorem after_leaveScene : after (leaveScene names conf stubs e) w = w := by
  unfold leaveScene
  rw [after_bind_get]
  split
  · exact after_bind_throw _ _ _
  · rfl

/-- Without a grid at the point, or without `getId`, `enterScene` raises before it changes
anything. -/
theorem after_enterScene_fails (h : names.getId = none ∨ gridOf conf x y = none) :
    after (enterScene names conf stubs e x y) w = w := by
  unfold enterScene onEntityEnter
  cases hgrid : gridOf conf x y with
  | none => exact after_bind_error (by rw [gridAt_eq, hgrid])
  | some grid =>
    have hid : names.getId = none := h.resolve_right (by simp [hgrid])
    refine (after_bind_ok (by rw [gridAt_eq, hgrid])).trans ?_
    refine after_bind_error (e := .attributeError) ?_
    have hraise : getId names e = throw .attributeError := by simp only [getId, hid]
    rw [addEntity, hraise]
    rfl

/-- The places after an entity has entered. -/
def World.entered (w : World E I) (f : E → I) (e : E) (grid : GridRef) (x y : Nat) : World E I :=
  { w with
    grids := Function.update w.grids grid (Function.update (w.grids grid) (f e) (some (some e)))
    entitys := Function.update w.entitys (f e) (some (some e))
    ownerScene := Function.update w.ownerScene e true
    ownerGrid := Function.update w.ownerGrid e (some grid)
    x := Function.update w.x e x
    y := Function.update w.y e y }

/-- With a grid and `getId`, `enterScene` puts the entity into the grid. -/
theorem after_enterScene {f : E → I} {grid : GridRef} (hid : names.getId = some f)
    (hgrid : gridOf conf x y = some grid) :
    (after (enterScene names conf stubs e x y) w).places = (w.entered f e grid x y).places := by
  unfold enterScene onEntityEnter
  have hget : getId names (some e) = pure (f e) := by simp only [getId, hid]
  have hadd : addEntity names grid e w = .ok () { w with
      grids := Function.update w.grids grid
        (Function.update (w.grids grid) (f e) (some (some e))) } := by
    rw [addEntity, hget]
    rfl
  have hat : gridAt conf (xyToij conf x y) w = .ok grid w := by rw [gridAt_eq, hgrid]
  rw [after_bind_ok hat, after_bind_ok hadd, hget, pure_bind, after_bind_modify,
    Entity.onEnterScene, after_bind_get, after_bind_modify]
  rw [((keeps_updateAOI _ _ _ _ _ _).bind fun _ => keeps_broadcast) _]
  rfl

/-- Without a grid at the point `moveTo` raises before it changes anything. -/
theorem after_moveTo_fails (hscene : w.ownerScene e = true) (h : gridOf conf x y = none) :
    after (moveTo names conf stubs e x y) w = w := by
  have hat : getGrid conf x y w = .error .indexError w := by rw [getGrid, gridAt_eq, h]
  rw [moveTo, after_bind_get, if_pos hscene, after_bind_error hat]

/-- The places after an entity has moved. -/
def World.moved (w : World E I) (e : E) (grid : GridRef) (x y : Nat) : World E I :=
  { w with
    x := Function.update w.x e x
    y := Function.update w.y e y
    ownerGrid := Function.update w.ownerGrid e (some grid) }

/-- `moveTo` moves the entity and leaves the grids. -/
theorem after_moveTo {grid : GridRef} (hscene : w.ownerScene e = true)
    (hgrid : gridOf conf x y = some grid) :
    (after (moveTo names conf stubs e x y) w).places = (w.moved e grid x y).places := by
  have hat : getGrid conf x y w = .ok grid w := by rw [getGrid, gridAt_eq, hgrid]
  rw [moveTo, after_bind_get, if_pos hscene, after_bind_ok hat, after_bind_modify]
  split
  · rw [((keeps_updateAOI _ _ _ _ _ _).bind fun _ => keeps_broadcast) _]
    rfl
  · rw [keeps_broadcast _]
    rfl

/-! ## One step -/

/-- The tables are right, the entities in the scene know it, and entries are under the id of the
entity. -/
structure Placed (names : Names E I) (conf : SceneConf) (s : Stage E I) : Prop where
  right : GridsRight conf s
  scene : ∀ e, s.inScene e = true → s.world.ownerScene e = true
  keyed : ∀ f, names.getId = some f →
    ∀ grid id e, s.world.grids grid id = some (some e) → id = f e

variable {w' : World E I} {b : E → Bool}

omit [DecidableEq E] [DecidableEq I] in
/-- The invariant is about the places only. -/
theorem Placed.congr (hw : w.places = w'.places) (h : Placed names conf ⟨w', b⟩) :
    Placed names conf ⟨w, b⟩ := by
  have hp : Placed names conf ⟨w'.places, b⟩ := ⟨h.right, h.scene, h.keyed⟩
  rw [← hw] at hp
  exact ⟨hp.right, hp.scene, hp.keyed⟩

omit [DecidableEq E] [DecidableEq I] in
theorem GridsRight.congr (hw : w.places = w'.places) (h : GridsRight conf ⟨w', b⟩) :
    GridsRight conf ⟨w, b⟩ := by
  have hp : GridsRight conf ⟨w'.places, b⟩ := h
  rw [← hw] at hp
  exact hp

omit [DecidableEq E] [DecidableEq I] in
/-- Who is not in the scene is not registered. -/
theorem GridsRight.out (h : GridsRight conf ⟨w, b⟩) (hb : b e = false) (grid : GridRef) :
    ¬ w.Registered grid e := by
  have he := h e
  rw [EntityRight, if_neg (by simp [hb])] at he
  exact he grid

omit [DecidableEq E] [DecidableEq I] in
/-- Who is in the scene is registered where it is. -/
theorem GridsRight.inside (h : GridsRight conf ⟨w, b⟩) (hb : b e = true) :
    ∃ grid, w.ownerGrid e = some grid ∧ grid.Contains conf (w.x e) (w.y e) ∧
      ∀ grid', w.Registered grid' e ↔ grid' = grid := by
  have he := h e
  rw [EntityRight, if_pos hb] at he
  exact he

omit [DecidableEq E] [DecidableEq I] in
/-- An entity whose places do not change stays right. -/
theorem EntityRight.frame {b' : E → Bool} (h : EntityRight conf ⟨w, b⟩ e) (hb : b' e = b e)
    (hgrid : w'.ownerGrid e = w.ownerGrid e) (hx : w'.x e = w.x e) (hy : w'.y e = w.y e)
    (hreg : ∀ grid, w'.Registered grid e ↔ w.Registered grid e) :
    EntityRight conf ⟨w', b'⟩ e := by
  simp only [EntityRight, hb, hgrid, hx, hy, hreg]
  exact h

/-- Who is registered when an entity has entered a grid. -/
theorem registered_entered {f : E → I} {grid : GridRef} (hf : Function.Injective f)
    (hkeyed : ∀ grid id e, w.grids grid id = some (some e) → id = f e) (grid' : GridRef) (e' : E) :
    (w.entered f e grid x y).Registered grid' e' ↔
      w.Registered grid' e' ∨ e' = e ∧ grid' = grid := by
  have hslot : ∀ id, (w.entered f e grid x y).grids grid' id =
      if grid' = grid ∧ id = f e then some (some e) else w.grids grid' id := by
    intro id
    by_cases hg : grid' = grid
    · subst hg
      by_cases hid : id = f e
      · simp [World.entered, hid]
      · simp [World.entered, hid]
    · simp [World.entered, hg]
  simp only [World.Registered, hslot]
  constructor
  · rintro ⟨id, hid⟩
    split at hid
    · rename_i hnew
      cases hid
      exact Or.inr ⟨rfl, hnew.1⟩
    · exact Or.inl ⟨id, hid⟩
  · rintro (⟨id, hid⟩ | ⟨rfl, rfl⟩)
    · by_cases hnew : grid' = grid ∧ id = f e
      · -- what was there under the id is the entity itself
        have he : e' = e := hf ((hkeyed grid' id e' hid).symm.trans hnew.2)
        exact ⟨id, by rw [if_pos hnew, he]⟩
      · exact ⟨id, by rw [if_neg hnew, hid]⟩
    · exact ⟨f e', by simp⟩

/-- Entering a grid. -/
theorem Placed.entered {f : E → I} {grid : GridRef} (h : Placed names conf ⟨w, b⟩)
    (hid : names.getId = some f) (hf : Function.Injective f) (hb : b e = false)
    (hgrid : gridOf conf x y = some grid) :
    Placed names conf ⟨w.entered f e grid x y, Function.update b e true⟩ := by
  have hreg : ∀ grid' e', (w.entered f e grid x y).Registered grid' e' ↔
      w.Registered grid' e' ∨ e' = e ∧ grid' = grid := registered_entered hf (h.keyed f hid)
  constructor
  case right =>
    intro e'
    by_cases he : e' = e
    · subst he
      rw [EntityRight, if_pos (by simp)]
      refine ⟨grid, by simp [World.entered], ?_, fun grid' => ?_⟩
      · simpa [World.entered] using gridOf_contains hgrid
      · simp [hreg, h.right.out hb grid']
    · refine (h.right e').frame ?_ ?_ ?_ ?_ fun grid' => by simp [hreg, he]
      all_goals simp [World.entered, he]
  case scene =>
    intro e' hb'
    by_cases he : e' = e
    · subst he
      simp [World.entered]
    · have hb'' : b e' = true := by simpa [he] using hb'
      simpa [World.entered, he] using h.scene e' hb''
  case keyed =>
    intro f' hid' grid' id e' hslot
    rw [hid] at hid'
    cases hid'
    by_cases hnew : grid' = grid ∧ id = f e
    · obtain ⟨rfl, rfl⟩ := hnew
      have he : e' = e := by simpa [World.entered, eq_comm] using hslot
      rw [he]
    · refine h.keyed f hid grid' id e' ?_
      rw [← hslot]
      by_cases hg : grid' = grid
      · have hk : id ≠ f e := fun hk => hnew ⟨hg, hk⟩
        simp [World.entered, hg, hk]
      · simp [World.entered, hg]

omit [DecidableEq I] in
/-- Moving within a grid. -/
theorem Placed.moved {grid : GridRef} (h : Placed names conf ⟨w, b⟩) (hb : b e = true)
    (hgrid : gridOf conf x y = some grid) (hold : w.ownerGrid e = some grid) :
    Placed names conf ⟨w.moved e grid x y, b⟩ := by
  refine ⟨fun e' => ?_, h.scene, h.keyed⟩
  by_cases he : e' = e
  · subst he
    obtain ⟨grid', howner, -, hreg⟩ := h.right.inside hb
    rw [hold] at howner
    cases howner
    rw [EntityRight, if_pos hb]
    refine ⟨grid, by simp [World.moved], ?_, hreg⟩
    simpa [World.moved] using gridOf_contains hgrid
  · refine (h.right e').frame rfl ?_ ?_ ?_ fun _ => Iff.rfl
    all_goals simp [World.moved, he]

/-- An operation under the condition keeps the invariant. -/
theorem Placed.step {s s' : Stage E I} {op : SceneOp E} (h : Placed names conf s)
    (hids : ∀ f, names.getId = some f → Function.Injective f) (hop : Allowed conf s op)
    (hkeeps : KeepsGrids names conf s op) (hstep : stageStep names conf s op = some s') :
    Placed names conf s' := by
  obtain ⟨w, b⟩ := s
  cases hstep
  cases op with
  | enterScene e x y stubs =>
    obtain ⟨f, hid⟩ := Option.ne_none_iff_exists'.mp hkeeps.1
    obtain ⟨grid, hgrid⟩ := Option.ne_none_iff_exists'.mp hkeeps.2
    exact (h.entered hid (hids f hid) hop.1 hgrid).congr (after_enterScene hid hgrid)
  | moveTo e x y stubs =>
    have hscene := h.scene e hop.1
    cases hgrid : gridOf conf x y with
    | none =>
      have hafter : after (moveTo names conf stubs e x y) w = w :=
        after_moveTo_fails hscene hgrid
      exact h.congr (congrArg World.places hafter)
    | some grid =>
      have hold : w.ownerGrid e = some grid := by
        rcases hkeeps with hnone | hsame
        · rw [hgrid] at hnone
          cases hnone
        · rw [← hgrid]
          exact hsame.symm
      exact (h.moved hop.1 hgrid hold).congr (after_moveTo hscene hgrid)
  | leaveScene e stubs => exact hkeeps.elim

/-- An operation that breaks the condition breaks the tables. -/
theorem not_gridsRight_step {s : Stage E I} {op : SceneOp E} (h : Placed names conf s)
    (hop : Allowed conf s op) (hnot : ¬ KeepsGrids names conf s op) :
    ∃ s', stageStep names conf s op = some s' ∧ ¬ GridsRight conf s' := by
  obtain ⟨w, b⟩ := s
  refine ⟨_, rfl, fun hr => ?_⟩
  cases op with
  | enterScene e x y stubs =>
    have hfails : names.getId = none ∨ gridOf conf x y = none := by
      by_contra hno
      exact hnot ⟨fun h => hno (Or.inl h), fun h => hno (Or.inr h)⟩
    have hafter : after (enterScene names conf stubs e x y) w = w :=
      after_enterScene_fails hfails
    have hr' : GridsRight conf ⟨w, Function.update b e true⟩ :=
      GridsRight.congr (congrArg World.places hafter.symm) hr
    obtain ⟨grid, -, -, hreg⟩ := hr'.inside (e := e) (by simp)
    exact h.right.out hop.1 grid ((hreg grid).mpr rfl)
  | moveTo e x y stubs =>
    have hscene := h.scene e hop.1
    obtain ⟨old, howner, -, hreg⟩ := h.right.inside hop.1
    cases hgrid : gridOf conf x y with
    | none => exact hnot (Or.inl hgrid)
    | some grid =>
      have hr' : GridsRight conf ⟨w.moved e grid x y, b⟩ :=
        GridsRight.congr (after_moveTo hscene hgrid).symm hr
      obtain ⟨grid', howner', -, hreg'⟩ := hr'.inside hop.1
      have hnew : grid' = grid := by simpa [World.moved, eq_comm] using howner'
      -- the entity is still in the table of the old grid
      have hsame : old = grid' := (hreg' old).mp ((hreg old).mpr rfl)
      exact hnot (Or.inr (by rw [hgrid, howner, hsame, hnew]))
  | leaveScene e stubs =>
    have hr' : GridsRight conf ⟨w, Function.update b e false⟩ :=
      GridsRight.congr (congrArg World.places after_leaveScene.symm) hr
    obtain ⟨grid, -, -, hreg⟩ := h.right.inside hop
    exact hr'.out (by simp) grid ((hreg grid).mpr rfl)

/-- An empty scene. -/
def Stage.new (E I : Type) : Stage E I := ⟨World.new E I, fun _ => false⟩

omit [DecidableEq E] [DecidableEq I] in
theorem placed_new : Placed names conf (Stage.new E I) where
  right e := by
    rw [EntityRight, if_neg (by simp [Stage.new])]
    rintro grid ⟨id, hid⟩
    cases hid
  scene e hb := by simp [Stage.new] at hb
  keyed f _ grid id e hid := by cases hid

/-- **The grids of a scene.** After every operation of a run every entity is registered rightly
exactly if every operation meets the condition. -/
theorem gridsRight_iff (names : Names E I) (conf : SceneConf)
    (hids : ∀ f, names.getId = some f → Function.Injective f) {ops : List (SceneOp E)}
    (hops : AllSteps (stageStep names conf) (Allowed conf) (Stage.new E I) ops) :
    AllStates (stageStep names conf) (GridsRight conf) (Stage.new E I) ops ↔
      AllSteps (stageStep names conf) (KeepsGrids names conf) (Stage.new E I) ops := by
  refine allStates_iff_allSteps (Placed names conf) (Allowed conf) ?_ (fun _ h => h.right) ?_
    placed_new hops
  · exact fun s op s' h hop hkeeps hstep => h.step hids hop hkeeps hstep
  · exact fun s op h hop hnot => not_gridsRight_step h hop hnot

/-- Twenty-five grids. -/
def smallScene : SceneConf := ⟨100, 100, 20, 20, 5, 5, by decide, by decide⟩

/-- Stubs that find the grid itself. -/
def selfOnly : Stubs := ⟨fun grid => grid.toList, fun _ _ => [], fun _ _ => []⟩

/-- The file with a `getId`. -/
def namesWithId : Names Nat Nat := { Names.file Nat Nat with getId := some id }

/-- With a `getId`, two entities enter the same grid and one walks about in it. -/
theorem gridsRight_walk : AllStates (stageStep namesWithId smallScene) (GridsRight smallScene)
    (Stage.new Nat Nat)
    [.enterScene 1 10 20 selfOnly, .enterScene 2 10 20 selfOnly, .moveTo 1 19 39 selfOnly] := by
  refine (gridsRight_iff namesWithId smallScene ?_ (by decide +kernel)).mpr (by decide +kernel)
  intro f hf
  cases hf
  exact Function.injective_id

/-- With the file alone an entity that has entered is in no grid. With a `getId` a move to another
grid and a departure leave the entity in the table of the old one. -/
theorem not_gridsRight :
    ¬ AllStates (stageStep (Names.file Nat Nat) smallScene) (GridsRight smallScene)
        (Stage.new Nat Nat) [.enterScene 1 10 20 selfOnly] ∧
      ¬ AllStates (stageStep namesWithId smallScene) (GridsRight smallScene)
        (Stage.new Nat Nat) [.enterScene 1 10 20 selfOnly, .moveTo 1 21 31 selfOnly] ∧
      ¬ AllStates (stageStep namesWithId smallScene) (GridsRight smallScene)
        (Stage.new Nat Nat) [.enterScene 1 10 20 selfOnly, .leaveScene 1 selfOnly] := by
  have hids : ∀ f, namesWithId.getId = some f → Function.Injective f := by
    intro f hf
    cases hf
    exact Function.injective_id
  have hstart : Allowed smallScene (Stage.new Nat Nat) (.enterScene 1 10 20 selfOnly) := by decide
  have hin := placed_new.step hids hstart (by decide) rfl
  refine ⟨fun h => ?_, fun h => ?_, fun h => ?_⟩
  · have hnot : ¬ KeepsGrids (Names.file Nat Nat) smallScene (Stage.new Nat Nat)
        (.enterScene 1 10 20 selfOnly) := by decide
    obtain ⟨s', hs, hwrong⟩ := not_gridsRight_step placed_new hstart hnot
    exact hwrong (h.2 s' hs).head
  · obtain ⟨s', hs, hwrong⟩ := not_gridsRight_step hin
      (show Allowed smallScene _ (.moveTo 1 21 31 selfOnly) by decide) (by decide +kernel)
    exact hwrong ((h.2 _ rfl).2 s' hs).head
  · obtain ⟨s', hs, hwrong⟩ := not_gridsRight_step hin
      (show Allowed smallScene _ (.leaveScene 1 selfOnly) by decide) (by decide +kernel)
    exact hwrong ((h.2 _ rfl).2 s' hs).head

end Donkeyji.Aoi
