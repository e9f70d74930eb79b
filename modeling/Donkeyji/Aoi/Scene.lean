/-
Donkeyji.Aoi.Scene — entities, the grids of a scene, and who is in which grid
(src/aoi/scene.py).

The program is Python: what an operation has changed before it raises stays
changed. Entities are objects; their attributes are functions of the entity,
and a dictionary is a function from ids to entries, where an entry may be
None. There is one scene, so an `ownerScene` is the scene or -1.

Some names that the file uses are defined nowhere in it: the methods `getId`
and `broadcastSelf2Neighbors` of an entity, the method `onLeaveScene` of a
scene and the globals `entitys` and `grid`. What they mean is a parameter, and
with the file alone they mean nothing. The stubs of the neighbour grids return
any lists. `self` is read as present where it is missing.
-/
import Mathlib.Logic.Function.Basic

namespace Donkeyji.Aoi

/-- The exceptions that occur. -/
inductive PyError where
  | attributeError
  | nameError
  | typeError
  | indexError
deriving DecidableEq, Repr

/-- A grid of the scene. -/
structure GridRef where
  i : Nat
  j : Nat
deriving DecidableEq, Repr

/-- The sizes of a scene; `loadScene` is a stub. -/
structure SceneConf where
  width : Nat
  height : Nat
  gridWidth : Nat
  gridHeight : Nat
  nI : Nat
  nJ : Nat
  gridWidth_pos : 0 < gridWidth
  gridHeight_pos : 0 < gridHeight

/-- The attributes of the entities, the `entitys` of the grids and those of the scene. -/
structure World (E I : Type) where
  x : E → Int
  y : E → Int
  ownerGrid : E → Option GridRef
  ownerScene : E → Bool
  visibleEntitys : E → I → Option (Option E)
  grids : GridRef → I → Option (Option E)
  entitys : I → Option (Option E)

/-- What the names mean that the file does not define: `onLeaveScene` says that the scene has the
method and that it is `onEntityLeave`. -/
structure Names (E I : Type) where
  getId : Option (E → I)
  broadcastSelf2Neighbors : Bool
  onLeaveScene : Bool
  entitys : Option (List (I × Option E))
  grid : Option (Option GridRef)

/-- The names with the file alone. -/
def Names.file (E I : Type) : Names E I := ⟨none, false, false, none, none⟩

/-- What the stubs return: `__getNeighborGrid`, `__getNewVisibleGrids` and `__getNewHideGrids`. -/
structure Stubs where
  neighborGrid : Option GridRef → List GridRef
  newVisibleGrids : List GridRef → List GridRef → List GridRef
  newHideGrids : List GridRef → List GridRef → List GridRef

/-- A piece of the program. -/
abbrev Py (E I : Type) := EStateM PyError (World E I)

variable {E I : Type} [DecidableEq E] [DecidableEq I] (names : Names E I) (conf : SceneConf)

/-- `entity.getId()`. -/
def getId (entity : Option E) : Py E I I :=
  match entity, names.getId with
  | some e, some f => pure (f e)
  | _, _ => throw .attributeError

/-- `Entity.addVisibleEntity`. -/
def addVisibleEntity (e : E) (entity : Option E) : Py E I Unit := do
  let id ← getId names entity
  modify fun w => { w with
    visibleEntitys := Function.update w.visibleEntitys e
      (Function.update (w.visibleEntitys e) id (some entity)) }

/-- `Entity.removeVisibleEntity`. -/
def removeVisibleEntity (e : E) (entity : Option E) : Py E I Unit := do
  let id ← getId names entity
  modify fun w => { w with
    visibleEntitys := Function.update w.visibleEntitys e
      (Function.update (w.visibleEntitys e) id (some none)) }

/-- `entity.broadcastSelf2Neighbors()`, which sends messages if it exists. -/
def broadcastSelf2Neighbors : Py E I Unit :=
  if names.broadcastSelf2Neighbors then pure () else throw .attributeError

/-- `Grid.getEntitys`: it returns a global. -/
def getEntitys : Py E I (List (I × Option E)) :=
  match names.entitys with
  | some entitys => pure entitys
  | none => throw .nameError

/-- `Grid.addEntity`. -/
def addEntity (grid : GridRef) (e : E) : Py E I Unit := do
  let id ← getId names (some e)
  modify fun w => { w with
    grids := Function.update w.grids grid (Function.update (w.grids grid) id (some (some e))) }

/-- `Grid.removeEntity`. -/
def removeEntity (grid : GridRef) (e : E) : Py E I Unit := do
  let id ← getId names (some e)
  modify fun w => { w with
    grids := Function.update w.grids grid (Function.update (w.grids grid) id (some none)) }

/-- `Scene.getVisibleAndHideGrids`; a scene is the one scene or -1. -/
def getVisibleAndHideGrids (stubs : Stubs) (oldGrid newGrid : Option GridRef)
    (oldScene newScene : Bool) : List GridRef × List GridRef :=
  if oldScene ≠ newScene then
    if oldScene = false then
      (stubs.neighborGrid newGrid, [])
    else
      ([], stubs.neighborGrid oldGrid)
  else
    let oldNeighborGrids := stubs.neighborGrid oldGrid
    let newNeighborGrids := stubs.neighborGrid newGrid
    (stubs.newVisibleGrids oldNeighborGrids newNeighborGrids,
      stubs.newHideGrids oldNeighborGrids newNeighborGrids)

/-- `Entity.__updateAOI`; the messages of the callbacks are stubs that do nothing. -/
def updateAOI (stubs : Stubs) (e : E) (oldGrid newGrid : Option GridRef)
    (oldScene newScene : Bool) : Py E I Unit := do
  let w ← get
  if w.ownerScene e then
    let lists := getVisibleAndHideGrids stubs oldGrid newGrid oldScene newScene
    lists.1.forM fun _ => do
      let allGridEntitys ← getEntitys names
      allGridEntitys.forM fun entry =>
        if entry.2 ≠ some e then do
          addVisibleEntity names e entry.2
          match entry.2 with
          | none => throw .attributeError
          | some other => addVisibleEntity names other (some e)
        else
          pure ()
    lists.2.forM fun _ => do
      let allGridEntitys ← getEntitys names
      allGridEntitys.forM fun entry =>
        if entry.2 ≠ some e then
          match entry.2 with
          | none => throw .attributeError
          | some other => do
            removeVisibleEntity names other (some e)
            removeVisibleEntity names e entry.2
        else
          pure ()
  else
    throw .attributeError

/-- `Scene.__xyToij`. -/
def xyToij (x y : Nat) : Nat × Nat := (y / conf.gridHeight, x / conf.gridWidth)

/-- `self.grids[i][j]`. -/
def gridAt (ij : Nat × Nat) : Py E I GridRef :=
  if ij.1 < conf.nI ∧ ij.2 < conf.nJ then pure ⟨ij.1, ij.2⟩ else throw .indexError

/-- `Scene.getGrid`. -/
def getGrid (x y : Nat) : Py E I GridRef := gridAt conf (xyToij conf x y)

/-- `Entity.onEnterScene`. -/
def Entity.onEnterScene (stubs : Stubs) (e : E) (grid : GridRef) (x y : Nat) : Py E I Unit := do
  let w ← get
  let oldGrid := w.ownerGrid e
  modify fun w => { w with
    ownerScene := Function.update w.ownerScene e true
    ownerGrid := Function.update w.ownerGrid e (some grid)
    x := Function.update w.x e x
    y := Function.update w.y e y }
  updateAOI names stubs e oldGrid (some grid) false true
  broadcastSelf2Neighbors names

/-- `Entity.onLeaveScene`; `grid` is a global. -/
def Entity.onLeaveScene (stubs : Stubs) (e : E) : Py E I Unit := do
  let w ← get
  let oldGrid := w.ownerGrid e
  let newGrid ← match names.grid with
    | some grid => pure grid
    | none => throw .nameError
  let oldScene := w.ownerScene e
  modify fun w => { w with
    ownerScene := Function.update w.ownerScene e false
    ownerGrid := Function.update w.ownerGrid e none
    x := Function.update w.x e (-1)
    y := Function.update w.y e (-1) }
  updateAOI names stubs e oldGrid newGrid oldScene false

/-- `Scene.onEntityEnter`. -/
def onEntityEnter (stubs : Stubs) (e : E) (x y : Nat) : Py E I Unit := do
  let grid ← gridAt conf (xyToij conf x y)
  addEntity names grid e
  let id ← getId names (some e)
  modify fun w => { w with entitys := Function.update w.entitys id (some (some e)) }
  Entity.onEnterScene names stubs e grid x y

/-- `self.__xyToij(entity.getXY())`: one argument where two are needed. -/
def xyToijOfPair : Py E I (Nat × Nat) := throw .typeError

/-- `Scene.onEntityLeave`. -/
def onEntityLeave (stubs : Stubs) (e : E) : Py E I Unit := do
  let ij ← xyToijOfPair
  let grid ← gridAt conf ij
  removeEntity names grid e
  let id ← getId names (some e)
  modify fun w => { w with entitys := Function.update w.entitys id (some none) }
  Entity.onLeaveScene names stubs e

/-- `Entity.enterScene`. -/
def enterScene (stubs : Stubs) (e : E) (x y : Nat) : Py E I Unit :=
  onEntityEnter names conf stubs e x y

/-- `Entity.leaveScene`. -/
def leaveScene (stubs : Stubs) (e : E) : Py E I Unit := do
  let w ← get
  if w.ownerScene e = true ∧ names.onLeaveScene = true then
    onEntityLeave names conf stubs e
  else
    throw .attributeError

/-- `Entity.moveTo`. -/
def moveTo (stubs : Stubs) (e : E) (x y : Nat) : Py E I Unit := do
  let w ← get
  let oldGrid := w.ownerGrid e
  if w.ownerScene e then
    let newGrid ← getGrid conf x y
    modify fun w => { w with
      x := Function.update w.x e x
      y := Function.update w.y e y
      ownerGrid := Function.update w.ownerGrid e (some newGrid) }
    if oldGrid ≠ some newGrid then
      updateAOI names stubs e oldGrid (some newGrid) true true
    broadcastSelf2Neighbors names
  else
    throw .attributeError

/-- New entities and an empty scene. -/
def World.new (E I : Type) : World E I where
  x _ := -1
  y _ := -1
  ownerGrid _ := none
  ownerScene _ := false
  visibleEntitys _ _ := none
  grids _ _ := none
  entitys _ := none

/-- What entities do, and what the stubs return then. -/
inductive SceneOp (E : Type) where
  | enterScene (e : E) (x y : Nat) (stubs : Stubs)
  | moveTo (e : E) (x y : Nat) (stubs : Stubs)
  | leaveScene (e : E) (stubs : Stubs)

/-- The program of an operation. -/
def SceneOp.run : SceneOp E → Py E I Unit
  | .enterScene e x y stubs => Aoi.enterScene names conf stubs e x y
  | .moveTo e x y stubs => Aoi.moveTo names conf stubs e x y
  | .leaveScene e stubs => Aoi.leaveScene names conf stubs e

end Donkeyji.Aoi
