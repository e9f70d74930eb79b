/-
Donkeyji.Mydb.Layout — wire layouts: what a type tree says about the wire.

Two type trees can have the same wire format without being the same tree: the
names and hash strings of the types are not sent, nor is it visible whether a
table is written in place or has a name of its own, and a table with no
values at all takes no bytes. A `Layout` keeps what is visible: a skeleton,
which says where a value must have tables and where its leaves are, and the
list of the leaves in the order of their bytes. A leaf is a basic type or an
array of variable length.

An array of variable length whose elements take no bytes can only be empty,
because the code takes an element of no bytes for a failure; its one byte is
always zero, and it is no leaf but a skeleton of its own kind with a zero
before the next leaf. A type that no value can be packed with has no layout.

Nothing here is executable on purpose: a skeleton is a function of the keys.
-/
import Donkeyji.Mydb.ArgTree

namespace Donkeyji.Mydb

open Memory

/-! ## Layouts -/

/-- The basic types. -/
inductive Prim where
  | number
  | byte
  | word
  | dword
  | string
deriving DecidableEq

/-- What a value must be like: anything, a leaf, an empty array, or a table. -/
inductive Skel where
  | free
  | leaf
  | emptyArr
  | tab (sub : LuaKey → Skel)

mutual

/-- The layout of a type: the skeleton and the leaves. -/
inductive Layout where
  | mk (skel : Skel) (leaves : Leaves)

/-- A leaf. -/
inductive Leaf where
  | prim (p : Prim)
  | arr (base : Layout)

/-- Leaves in the order of their bytes, each after a number of zero bytes. -/
inductive Leaves where
  | done (zeros : Nat)
  | cons (zeros : Nat) (path : Path) (leaf : Leaf) (rest : Leaves)

end

/-- The skeleton of a layout. -/
def Layout.skel : Layout → Skel
  | .mk skel _ => skel

/-- The leaves of a layout. -/
def Layout.leaves : Layout → Leaves
  | .mk _ leaves => leaves

/-- A layout of no bytes. -/
def Layout.void (l : Layout) : Bool :=
  match l.leaves with
  | .done 0 => true
  | _ => false

/-! ## Building layouts -/

namespace Leaves

/-- Zero bytes in front. -/
def pad (m : Nat) : Leaves → Leaves
  | .done n => .done (m + n)
  | .cons n path leaf rest => .cons (m + n) path leaf rest

/-- The leaves of `a`, then those of `b`. -/
def append : Leaves → Leaves → Leaves
  | .done m, b => b.pad m
  | .cons m path leaf rest, b => .cons m path leaf (rest.append b)

/-- The leaves of a field's value are below the field's key. -/
def under (key : LuaKey) : Leaves → Leaves
  | .done m => .done m
  | .cons m path leaf rest => .cons m (key :: path) leaf (rest.under key)

end Leaves

/-- The skeletons of a table's fields, and their leaves. -/
abbrev Fields := (LuaKey → Skel) × Leaves

/-- No fields. -/
def Fields.none : Fields := (fun _ => .free, .done 0)

/-- A field before other fields. -/
noncomputable def Fields.entry (key : LuaKey) (l : Layout) (t : Fields) : Fields :=
  (Function.update t.1 key l.skel, (l.leaves.under key).append t.2)

/-- The layout of a table with these fields. -/
def Fields.table (t : Fields) : Layout := .mk (.tab t.1) t.2

/-- The elements of an array as fields: `todo` of them from index `i`. -/
noncomputable def indexFields (base : Layout) : Nat → Nat → Fields
  | 0, _ => .none
  | todo + 1, i => .entry (.index i) base (indexFields base todo (i + 1))

/-- The layout that consists of one leaf. -/
def Leaf.layout (leaf : Leaf) : Layout := .mk .leaf (.cons 0 [] leaf (.done 0))

/-- The layout of an array, from its element's. -/
noncomputable def arrayLayout (base : Option Layout) (size : Nat) : Option Layout :=
  match base.filter fun l => !l.void with
  | some l => some (if size = 0 then (Leaf.arr l).layout else (indexFields l size 1).table)
  | none => if size = 0 then some (.mk .emptyArr (.done 1)) else none

mutual

/-- The layout of a type, if any value can be packed with it. -/
noncomputable def ArgTree.layout : ArgTree → Option Layout
  | .number => some (Leaf.prim .number).layout
  | .byte => some (Leaf.prim .byte).layout
  | .word => some (Leaf.prim .word).layout
  | .dword => some (Leaf.prim .dword).layout
  | .string => some (Leaf.prim .string).layout
  | .array b size => arrayLayout b.layout size
  | .table _ _ fs => fs.layout.map Fields.table

/-- The layout of the fields of a table. -/
noncomputable def FieldTree.layout : FieldTree → Option Fields
  | .nil => some .none
  | .leaf key a rest =>
    (a.layout.filter fun l => !l.void).bind fun l => rest.layout.map (Fields.entry key l)
  | .sub key fs rest =>
    fs.layout.bind fun t => rest.layout.map (Fields.entry key t.table)

end

/-! ## What a layout accepts -/

/-- The value has the skeleton. -/
def Skel.Ok : Skel → LuaValue → Prop
  | .free, _ => True
  | .leaf, _ => True
  | .emptyArr, v => ∃ get, v = .table get ∧ objlen get = 0
  | .tab sub, v => ∃ get, v = .table get ∧ ∀ key, (sub key).Ok (get key)

/-- The value of the skeleton with the given leaves, and `z` where nothing is asked. -/
def Skel.build (z : LuaValue) : Skel → (Path → LuaValue) → LuaValue
  | .free, _ => z
  | .leaf, ρ => ρ []
  | .emptyArr, _ => .newtable
  | .tab sub, ρ => .table fun key => (sub key).build z fun path => ρ (key :: path)

/-! ## Encoding -/

/-- Two byte strings one after the other, if both are there. -/
def cat (x y : Option (List UInt8)) : Option (List UInt8) :=
  x.bind fun b => y.map (b ++ ·)

/-- The bytes of a value of a basic type. -/
def Prim.encode (lua : Lua) (p : Prim) (v : LuaValue) : Option (List UInt8) :=
  match p with
  | .number => (lua.checkInt v).map fun num =>
      let data : Nat := ((if num < 0 then -num else num) % 4294967296).toNat
      leBytes 1 ((if num < 0 then 1 else 0) + 2 * numberLen data) ++ leBytes (numberLen data) data
  | .byte => (lua.checkInt v).map fun num => leBytes 1 (num % 4294967296).toNat
  | .word => (lua.checkInt v).map fun num => leBytes 2 (num % 4294967296).toNat
  | .dword => (lua.checkInt v).map fun num => leBytes 4 (num % 4294967296).toNat
  | .string => (lua.checklstring v).bind fun data =>
      if data.length + 1 ≤ 255 then some (leBytes 1 (data.length + 1) ++ data)
      else if data.length + 1 ≤ 65535 then some (0 :: leBytes 2 (data.length + 1) ++ data)
      else none

/-- The bytes of `todo` elements from index `i`. -/
def elements (base : LuaValue → Option (List UInt8)) (get : LuaKey → LuaValue) :
    Nat → Nat → Option (List UInt8)
  | 0, _ => some []
  | todo + 1, i => cat (base (get (.index i))) (elements base get todo (i + 1))

open Classical in
mutual

/-- The bytes of a value of the layout. -/
noncomputable def Layout.encode (lua : Lua) : Layout → LuaValue → Option (List UInt8)
  | .mk skel leaves, v => if skel.Ok v then leaves.encode lua v.atPath else none

/-- The bytes of a leaf. -/
noncomputable def Leaf.encode (lua : Lua) : Leaf → LuaValue → Option (List UInt8)
  | .prim p, v => p.encode lua v
  | .arr base, v =>
    match v with
    | .table get =>
      if objlen get > 255 then none
      else cat (some (leBytes 1 (objlen get))) (elements (base.encode lua) get (objlen get) 1)
    | _ => none

/-- The bytes of the leaves, with the value of each. -/
noncomputable def Leaves.encode (lua : Lua) : Leaves → (Path → LuaValue) → Option (List UInt8)
  | .done m, _ => some (List.replicate m 0)
  | .cons m path leaf rest, ρ =>
    cat (some (List.replicate m 0)) (cat (leaf.encode lua (ρ path)) (rest.encode lua ρ))

end

/-! ## Decoding -/

/-- The type tree of a basic type. -/
def Prim.tree : Prim → ArgTree
  | .number => .number
  | .byte => .byte
  | .word => .word
  | .dword => .dword
  | .string => .string

mutual

/-- The value at the front of the bytes. -/
noncomputable def Layout.decode : Layout → List UInt8 → Dec LuaValue
  | .mk skel leaves, buf => leaves.decode buf (skel.build .nil fun _ => .nil)

/-- The leaf at the front of the bytes. -/
noncomputable def Leaf.decode : Leaf → List UInt8 → Dec LuaValue
  | .prim p, buf => p.tree.decode buf
  | .arr base, buf =>
    match buf with
    | [] => none
    | n :: buf =>
      (arrayDecode base.decode n.toNat 1 buf fun _ => .nil).map fun r => (.table r.1, 1 + r.2)

/-- The leaves at the front of the bytes, put into `v`. -/
noncomputable def Leaves.decode : Leaves → List UInt8 → LuaValue → Dec LuaValue
  | .done m, buf, v => if buf.take m = List.replicate m 0 then some (v, m) else none
  | .cons m path leaf rest, buf, v =>
    if buf.take m = List.replicate m 0 then
      (leaf.decode (buf.drop m)).bind fun x =>
        (rest.decode (buf.drop (m + x.2)) (x.1.insertAt path v)).map fun r => (r.1, m + x.2 + r.2)
    else none

end

end Donkeyji.Mydb
