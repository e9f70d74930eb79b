/-
Donkeyji.Mydb.ProtoManager — `proto_manager` of `mydb/protocol.c`: adding and
updating protocols.

The protocol objects live in a heap, and the closures in the Lua table
`for_caller` hold their addresses, so an object that is deleted while a
closure still has its address, or one that nobody owns, is visible as such.
A call's input is what it meets outside: the address `operator new` returns,
the path on the stack, what the file gives when it is read and run, and the
functions in `for_maker`.

A failure of `load` is either a Lua error, which leaves `add_protocol` or
`update_protocol` by a `longjmp`, or a return of `PROTO_ERROR`. The file runs
in an environment of its own, so it changes nothing here. Ids are counted
without the wrap of an `unsigned int` after 2^32 objects.
-/
import Donkeyji.Mydb.Protocol

namespace Donkeyji.Mydb

/-- The address of an object. -/
abbrev ObjAddr := Nat

/-! ## Inputs -/

/-- The table that a protocol file returns: its `func_name` if that is a string, and
its `arg_list` if that is a table. -/
structure ProtoDesc where
  funcName : Option (List UInt8)
  argList : Option (List (Option ArgDesc))

/-- What a protocol file gives: nothing can be read, it is no chunk, it raises an
error, or it returns a value, which may be a table. -/
inductive ProtoFile where
  | unread
  | noChunk
  | failed
  | returned (desc : Option ProtoDesc)

/-- What a call of `load` meets. -/
structure LoadInput where
  /-- The address of the new object. -/
  addr : ObjAddr
  /-- The value on top of the stack, if it is a string. -/
  path : Option (List UInt8)
  file : ProtoFile
  /-- The names of the functions in the global table `for_maker`, if there is one. -/
  forMaker : Option (List UInt8 → Bool)

/-! ## Loading -/

/-- `std::string::find_last_of`; `none` is `npos`. -/
def findLastOf (c : UInt8) (s : List UInt8) : Option Nat :=
  (s.reverse.findIdx? (· = c)).map fun i => s.length - 1 - i

/-- `net_protocol::process_type`: the name and `_is_maker`. The positions are
unsigned, so their tests for being negative never hold: a path without a slash is
refused, one without a dot is not. -/
def processType (curChar : List UInt8) (path : List UInt8) : Option (List UInt8 × Bool) := do
  let beginPos ← findLastOf 47 path
  let name ←
    match findLastOf 46 path with
    | none => some (path.drop (beginPos + 1))
    | some endPos =>
      if beginPos ≥ endPos then none
      else some ((path.drop (beginPos + 1)).take (endPos - (beginPos + 1)))
  if name.take 2 = cstr "c_" then some (name, curChar = cstr "client")
  else if name.take 2 = cstr "s_" then some (name, curChar = cstr "server")
  else none

/-- The table `for_caller`: the object that the closure of a name is bound to. -/
abbrev ForCaller := List UInt8 → Option ObjAddr

/-- What `load` works on: the object, the stubs and the packers. -/
structure Loading where
  proto : NetProtocol
  forCaller : ForCaller
  reg : Registry

/-- `net_protocol::func_proc`: a maker looks its function up, a caller binds the stub
to `this`. -/
def funcProc (inp : LoadInput) (l : Loading) : Loading × Option LoadFail :=
  if l.proto.isMaker then
    match inp.forMaker with
    | none => (l, some .raise)
    | some funcs => (l, if funcs l.proto.packFuncName then none else some .raise)
  else
    ({ l with forCaller := Function.update l.forCaller l.proto.packFuncName (some inp.addr) }, none)

/-- `net_protocol::arglist_proc` on the object. -/
def argsProc (argList : Option (List (Option ArgDesc))) (l : Loading) :
    Loading × Option LoadFail :=
  match argList with
  | none => (l, some .protoError)
  | some descs =>
    let (reg, args, fail) := arglistProc l.reg descs
    ({ l with proto := { l.proto with args := args }, reg := reg }, fail)

/-- `net_protocol::convert_protocol`. -/
def convertProtocol (inp : LoadInput) (desc : Option ProtoDesc) (l : Loading) :
    Loading × Option LoadFail :=
  match desc with
  | none => (l, some .protoError)
  | some desc =>
    let name := (desc.funcName.map untilNul).getD l.proto.packFuncName
    let l := { l with proto := { l.proto with packFuncName := name } }
    match funcProc inp l with
    | (l, some fail) => (l, some fail)
    | (l, none) => argsProc desc.argList l

/-- `net_protocol::load`. -/
def load (curChar : List UInt8) (inp : LoadInput) (l : Loading) : Loading × Option LoadFail :=
  match inp.path.bind (processType curChar) with
  | none => (l, some .raise)
  | some (name, isMaker) =>
    let l := { l with proto := { l.proto with packFuncName := name, isMaker := isMaker } }
    match inp.file with
    | .unread => (l, some .raise)
    | .noChunk => (l, some .raise)
    | .failed => (l, some .protoError)
    | .returned desc => convertProtocol inp desc l

/-! ## The manager -/

/-- The live objects, `_s_protos`, the stubs and the packers. -/
structure ProtoManager where
  heap : ObjAddr → Option NetProtocol
  protos : List ObjAddr
  forCaller : ForCaller
  reg : Registry

/-- `new net_protocol(id)`. -/
def NetProtocol.new (id : Nat) : NetProtocol where
  packFuncName := []
  args := []
  id := id
  isMaker := false

/-- `proto_manager::proto_manager`: the default protocol has the id 0. -/
def ProtoManager.init (addr : ObjAddr) : ProtoManager where
  heap := Function.update (fun _ => none) addr (some (.new 0))
  protos := [addr]
  forCaller := fun _ => none
  reg := Registry.init

/-- A call from a script. The id is the number below the path on the stack. -/
inductive ManagerCall where
  | add (inp : LoadInput)
  | update (id : Option Nat) (inp : LoadInput)

namespace ProtoManager

/-- What the load of a new object with this id starts from. -/
def loading (s : ProtoManager) (id : Nat) : Loading where
  proto := .new id
  forCaller := s.forCaller
  reg := s.reg

/-- `proto_manager::add_protocol`. The object of a failed load is not deleted. -/
def addProtocol (curChar : List UInt8) (s : ProtoManager) (inp : LoadInput) :
    Option ProtoManager :=
  match load curChar inp (s.loading s.protos.length) with
  | (_, some .crash) => none
  | (l, none) => some {
      heap := Function.update s.heap inp.addr (some l.proto)
      protos := s.protos ++ [inp.addr]
      forCaller := l.forCaller
      reg := l.reg }
  | (l, some _) => some {
      heap := Function.update s.heap inp.addr (some l.proto)
      protos := s.protos
      forCaller := l.forCaller
      reg := l.reg }

/-- `proto_manager::update_protocol`. A failed load deletes the new object, unless it
ended in a Lua error. -/
def updateProtocol (curChar : List UInt8) (s : ProtoManager) (id : Option Nat)
    (inp : LoadInput) : Option ProtoManager :=
  match id with
  | none => some s
  | some id =>
    match s.protos[id]? with
    | none => some s
    | some old =>
      match load curChar inp (s.loading id) with
      | (_, some .crash) => none
      | (l, none) => some {
          heap := Function.update (Function.update s.heap inp.addr (some l.proto)) old none
          protos := s.protos.set id inp.addr
          forCaller := l.forCaller
          reg := l.reg }
      | (l, some .protoError) => some {
          heap := Function.update s.heap inp.addr none
          protos := s.protos
          forCaller := l.forCaller
          reg := l.reg }
      | (l, some .raise) => some {
          heap := Function.update s.heap inp.addr (some l.proto)
          protos := s.protos
          forCaller := l.forCaller
          reg := l.reg }

/-- One call; `none` is a crash. -/
def step (curChar : List UInt8) (s : ProtoManager) : ManagerCall → Option ProtoManager
  | .add inp => addProtocol curChar s inp
  | .update id inp => updateProtocol curChar s id inp

/-- `operator new` returns no address of a live object. -/
def Fresh (s : ProtoManager) : ManagerCall → Prop
  | .add inp => s.heap inp.addr = none
  | .update _ inp => s.heap inp.addr = none

/-- Every stub is bound to a live object with an id that is not 0, and this object
is the one `_s_protos` holds at its id. -/
def Consistent (s : ProtoManager) : Prop :=
  ∀ name addr, s.forCaller name = some addr →
    ∃ P, s.heap addr = some P ∧ P.id ≠ 0 ∧ s.protos[P.id]? = some addr

end ProtoManager

end Donkeyji.Mydb
