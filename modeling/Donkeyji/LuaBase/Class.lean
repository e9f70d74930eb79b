/-
Donkeyji.LuaBase.Class — the classes of the Lua scripts
(src/lua_framework/script/base/class.lua).

A heap holds tables and the arrays of subclasses that `__SubClass` leads to;
both are called by a reference. A table has its members and, when it has a
metatable, the table that `__index` of the metatable leads to. Only `New` sets
a metatable: the line of `Inherit` that would set one is commented out, so a
class finds its members in its own table.

Values are compared as `==` does on strings, booleans, functions and tables,
and on numbers other than NaN; `data` stands for numbers and strings. A key is
one that the source names or any other value. The weak references of
`__SubClass` are taken to be alive.

`ClassOp` are the operations of a program on its classes: `Inherit` and `New`
of a class that has not replaced them, and the assignment of a member. What
`__init__` does is in the operations that follow `New`.
-/
import Donkeyji.Lib.PairTable

namespace Donkeyji.LuaBase

/-- A reference to a table or an array. -/
abbrev Ref := Nat

/-- A key of a table: `__ClassType`, the names of the functions of `clsObject`, `__SubClass`,
`__SuperClass`, and the rest. -/
inductive Key where
  | classType | inherit | attachToClass | new | init | isClass | destroy | update
  | subClass | superClass
  | other (k : Nat)
deriving DecidableEq, Repr

/-- A function: one of `clsObject`, or one of the program. -/
inductive Func where
  | inherit | attachToClass | new | init | isClass | destroy | update
  | user (f : Nat)
deriving DecidableEq, Repr

/-- A value other than `nil`. -/
inductive Value where
  | bool (b : Bool)
  | data (d : Nat)
  | func (f : Func)
  | table (r : Ref)
  | array (r : Ref)
deriving DecidableEq, Repr

/-- Whether a value counts as true. -/
def truthy : Option Value → Bool
  | none => false
  | some (.bool b) => b
  | some _ => true

/-- The members of a table. -/
abbrev Members := PairTable Key Value

/-- The tables, where their metatables lead to, the arrays of subclasses, and the first
reference that is free. -/
structure Heap where
  tables : Ref → Members
  index : Ref → Option Ref
  arrays : Ref → List Ref
  next : Ref

/-- `r[k]`, in the table itself. -/
def Heap.get (h : Heap) (r : Ref) (k : Key) : Option Value := (h.tables r).get k

/-- The members of a table are replaced. -/
def Heap.setTable (h : Heap) (r : Ref) (t : Members) : Heap :=
  { h with tables := Function.update h.tables r t }

/-- `r[k] = v`. -/
def Heap.set (h : Heap) (r : Ref) (k : Key) (v : Option Value) : Heap :=
  h.setTable r ((h.tables r).set k v)

/-- A new table. -/
def Heap.alloc (h : Heap) (t : Members) : Heap :=
  { h with
    tables := Function.update h.tables h.next t
    index := Function.update h.index h.next none
    next := h.next + 1 }

/-- `Super`. -/
def superOf (h : Heap) (tmpClass : Ref) : Option Value := h.get tmpClass .superClass

/-- `IsSub`; `none` when the loop is not done after so many turns. -/
def isSub (h : Heap) (ancestor : Ref) : Nat → Ref → Option Bool
  | 0, _ => none
  | fuel + 1, temp =>
    match h.index temp with
    | some temp => if temp = ancestor then some true else isSub h ancestor fuel temp
    | none => some false

/-- `self.__SubClass = {}` when there is none yet. -/
def ensureSubClass (h : Heap) (self : Ref) : Heap :=
  if truthy (h.get self .subClass) then h
  else
    { h.set self .subClass (some (.array h.next)) with
      arrays := Function.update h.arrays h.next []
      next := h.next + 1 }

/-- `table.insert(self.__SubClass, o)`; no result when it is no array. -/
def insertSubClass (h : Heap) (self o : Ref) : Option Heap :=
  match h.get self .subClass with
  | some (.array r) => some { h with arrays := Function.update h.arrays r (h.arrays r ++ [o]) }
  | _ => none

/-- The loop of `clsObject:Inherit`: members that `o` does not have are copied. -/
def copyMembers (self o : Members) : Members :=
  self.keys.foldl (PairTable.storeIf (fun _ v => !truthy v) self.get) o

/-- `clsObject:Inherit`. -/
def inherit (h : Heap) (self o : Ref) : Option Heap :=
  (insertSubClass (ensureSubClass h self) self o).map fun h =>
    let h := h.setTable o (copyMembers (h.tables self) (h.tables o))
    let h := h.set o .subClass none
    h.set o .superClass (some (.table self))

/-- `clsObject:AttachToClass`. -/
def attachToClass (h : Heap) (self obj : Ref) : Heap :=
  { h with index := Function.update h.index obj (some self) }

/-- `clsObject:New` up to the call of `__init__`; no result when `__init__` cannot be called.
The new object has no member of its own, so that `o.__init__` is that of the class. -/
def new (h : Heap) (self : Ref) : Option Heap :=
  let o := h.next
  let h := attachToClass (h.alloc .empty) self o
  match h.get self .init with
  | some (.func _) => some h
  | v => if truthy v then none else some h

/-- `for k, v in pairs(self) do if Sub[k] == OldSelf[k] then Sub[k] = self[k] end end`. -/
def replaceMembers (self oldSelf sub : Members) : Members :=
  self.keys.foldl (PairTable.storeIf (fun k v => v == oldSelf.get k) self.get) sub

/-- `clsObject:Update`. `user` is what the functions of the program do when they are called as
`Sub:Update(OldSub)`; no result when `Update` cannot be called, or after so many nested calls. -/
def updateFrom (user : Nat → Heap → Ref → Members → Option Heap) :
    Nat → Heap → Ref → Members → Option Heap
  | 0, _, _, _ => none
  | fuel + 1, h, self, oldSelf =>
    match h.get self .subClass with
    | some (.array r) =>
      (h.arrays r).foldlM (fun h sub =>
        let oldSub := h.tables sub
        let h := h.setTable sub (replaceMembers (h.tables self) oldSelf oldSub)
        match h.get sub .update with
        | some (.func .update) => updateFrom user fuel h sub oldSub
        | some (.func (.user f)) => user f h sub oldSub
        | _ => none) h
    | v => if truthy v then none else some h

/-- A call `self:Update(OldSelf)`. -/
def callUpdate (user : Nat → Heap → Ref → Members → Option Heap) (fuel : Nat) (h : Heap)
    (self : Ref) (oldSelf : Members) : Option Heap :=
  match h.get self .update with
  | some (.func .update) => updateFrom user fuel h self oldSelf
  | some (.func (.user f)) => user f h self oldSelf
  | _ => none

/-! ## Programs -/

/-- What a reference was made for. -/
inductive Kind where
  | free
  | cls (parent : Option Ref)
  | object (cls : Ref)
deriving DecidableEq, Repr

/-- The heap of a program, and what the tables in it are. -/
structure World where
  heap : Heap
  kind : Ref → Kind

/-- An operation of a program. -/
inductive ClassOp where
  | inherit (self : Ref) (o : List (Key × Value))
  | new (self : Ref)
  | assign (r : Ref) (k : Key) (v : Option Value)
deriving DecidableEq, Repr

/-- The members of `clsObject`. -/
def clsObjectMembers : List (Key × Value) :=
  [(.classType, .data 0), (.inherit, .func .inherit), (.attachToClass, .func .attachToClass),
    (.new, .func .new), (.init, .func .init), (.isClass, .func .isClass),
    (.destroy, .func .destroy), (.update, .func .update)]

/-- The reference of `clsObject`. -/
def clsObject : Ref := 0

/-- After class.lua was run. -/
def World.start : World where
  heap :=
    { tables := Function.update (fun _ => .empty) clsObject (.ofList clsObjectMembers)
      index := fun _ => none
      arrays := fun _ => []
      next := 1 }
  kind := Function.update (fun _ => .free) clsObject (.cls none)

/-- The keys that only the functions of `clsObject` store under. -/
def bookkeeping (k : Key) : Bool := k = .subClass || k = .superClass

/-- One operation; no result when the program does something else. -/
def classStep (w : World) : ClassOp → Option World
  | .inherit self o =>
    match w.kind self, w.heap.get self .inherit with
    | .cls _, some (.func .inherit) =>
      (inherit (w.heap.alloc (.ofList o)) self w.heap.next).map fun h =>
        { heap := h, kind := Function.update w.kind w.heap.next (.cls (some self)) }
    | _, _ => none
  | .new self =>
    match w.kind self, w.heap.get self .new, w.heap.get self .attachToClass with
    | .cls _, some (.func .new), some (.func .attachToClass) =>
      (new w.heap self).map fun h =>
        { heap := h, kind := Function.update w.kind w.heap.next (.object self) }
    | _, _, _ => none
  | .assign r k v =>
    if w.kind r = .free ∨ bookkeeping k then none else some { w with heap := w.heap.set r k v }

/-- The class that a class was made from by `Inherit`. -/
def World.parent (w : World) (c : Ref) : Option Ref :=
  match w.kind c with
  | .cls p => p
  | _ => none

end Donkeyji.LuaBase
