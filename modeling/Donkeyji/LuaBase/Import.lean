/-
Donkeyji.LuaBase.Import — modules and their registry
(src/lua_framework/script/base/import.lua and src/lua_import/import.lua, which
are the same).

A module file is what its body does about other modules: the files it imports,
in their order. It may set `__init__` to a function, which is the files that
this imports; a module that sets none finds the one of `_G`, if there is one. A
module table is a number. The log has the bodies and the `__init__`s in the
order in which they are started, and what every call of `import` returns.

The fuel bounds the depth of the nested calls.
-/
import Mathlib.Logic.Function.Basic

namespace Donkeyji.LuaBase

/-- A module file: what its body imports, and what its `__init__` imports. -/
structure ModuleFile (File : Type) where
  body : List File
  init : Option (List File)

/-- The module files and the `__init__` of `_G`. -/
structure Scripts (File : Type) where
  file : File → ModuleFile File
  globalInit : Option (List File)

/-- What happens in a run. -/
inductive Event (File : Type) where
  | body (f : File)
  | init (f : File)
  | returned (f : File) (m : Nat)
deriving DecidableEq

/-- `imported_module`, the next new table, and the log. -/
structure Registry (File : Type) where
  imported : File → Option Nat
  next : Nat
  log : List (Event File)

/-- Nothing is imported. -/
def Registry.start (File : Type) : Registry File where
  imported _ := none
  next := 0
  log := []

/-- An event is logged. -/
def Registry.add {File : Type} (s : Registry File) (e : Event File) : Registry File :=
  { s with log := s.log ++ [e] }

/-- `M.__init__`, looked up in the module and then in `_G`. -/
def Scripts.init {File : Type} (p : Scripts File) (f : File) : Option (List File) :=
  (p.file f).init.or p.globalInit

variable {File : Type} [DecidableEq File]

/-- `import`: the module table and the registry; no result when the calls are nested deeper than
the fuel. -/
def importFile (p : Scripts File) : Nat → Registry File → File → Option (Nat × Registry File)
  | 0, _, _ => none
  | fuel + 1, s, f =>
    match s.imported f with
    | some m => some (m, s.add (.returned f m))
    | none => do
      let m := s.next
      let s := { s with next := s.next + 1 }
      let s ← (p.file f).body.foldlM (fun s g => (importFile p fuel s g).map Prod.snd)
        (s.add (.body f))
      let s ← match p.init f with
        | none => some s
        | some gs =>
          gs.foldlM (fun s g => (importFile p fuel s g).map Prod.snd) (s.add (.init f))
      let s := { s with imported := Function.update s.imported f (some m) }
      return (m, s.add (.returned f m))

/-- Calls of `import` one after the other. -/
def importAll (p : Scripts File) (fuel : Nat) (s : Registry File) (fs : List File) :
    Option (Registry File) :=
  fs.foldlM (fun s g => (importFile p fuel s g).map Prod.snd) s

end Donkeyji.LuaBase
