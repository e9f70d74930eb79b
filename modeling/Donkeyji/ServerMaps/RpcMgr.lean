/-
Donkeyji.ServerMaps.RpcMgr — the table of remote methods in
`server_maps/src/common/rpc_mgr.cc`.

`mix` and `final` are macros that the repository does not have, and
`HASH_INITVAL` is a constant it does not have: they are parameters. Words are
read from a string as a little-endian machine reads them. A protocol buffer
message is of any type `Msg`; of a service the model has its methods and their
prototypes.
-/
import Donkeyji.Lib.Memory
import Donkeyji.Lib.KeyedMap

namespace Donkeyji.ServerMaps

open Memory

/-! ## Hashing -/

/-- The registers `a`, `b` and `c`. -/
abbrev Registers := UInt32 × UInt32 × UInt32

/-- The loop of `hashword` and the `switch` after it. -/
def hashwordLoop (mix final : Registers → Registers) : List UInt32 → Registers → Registers
  | k0 :: k1 :: k2 :: k3 :: k, (a, b, c) =>
    hashwordLoop mix final (k3 :: k) (mix (a + k0, b + k1, c + k2))
  | [k0, k1, k2], (a, b, c) => final (a + k0, b + k1, c + k2)
  | [k0, k1], (a, b, c) => final (a + k0, b + k1, c)
  | [k0], (a, b, c) => final (a + k0, b, c)
  | [], abc => abc

/-- `hashword` of the words `k`. -/
def hashword (mix final : Registers → Registers) (k : List UInt32) (initval : UInt32) : UInt32 :=
  let x := (0xdeadbeef : UInt32) + (UInt32.ofNat k.length <<< 2) + initval
  (hashwordLoop mix final k (x, x, x)).2.2

/-- The word that some bytes spell. -/
def wordOf (bytes : List UInt8) : UInt32 := UInt32.ofNat (leNat bytes)

/-- The `str.size() / 4` words from the start of a string. -/
def wholeWords : List UInt8 → List UInt32
  | b0 :: b1 :: b2 :: b3 :: bytes => wordOf [b0, b1, b2, b3] :: wholeWords bytes
  | _ => []

/-- `hash_string`. -/
def hashString (mix final : Registers → Registers) (initval : UInt32) (str : List UInt8) : UInt32 :=
  hashword mix final (wholeWords str) initval

/-! ## Registration -/

/-- `gpb::MethodDescriptor`. -/
structure MethodDescriptor where
  fullName : List UInt8

/-- `gpb::Service`. -/
structure Service (Msg : Type*) where
  methods : List MethodDescriptor
  requestProtoType : MethodDescriptor → Msg
  responseProtoType : MethodDescriptor → Msg

/-- `struct rpc_method`. -/
structure RpcMethod (Msg : Type*) where
  svc : Service Msg
  req : Msg
  rsp : Msg
  method : MethodDescriptor

variable {Msg : Type*}

/-- The entry of a method. -/
def Service.rpcMethod (svc : Service Msg) (method : MethodDescriptor) : RpcMethod Msg where
  svc := svc
  req := svc.requestProtoType method
  rsp := svc.responseProtoType method
  method := method

/-- `rpc_map`. -/
abbrev RpcMap (Msg : Type*) := UInt32 → Option (RpcMethod Msg)

/-- `register_service`. -/
def registerService (mix final : Registers → Registers) (initval : UInt32)
    (rpcMap : RpcMap Msg) (svc : Service Msg) : RpcMap Msg :=
  svc.methods.foldl (fun rpcMap method =>
    Function.update rpcMap (hashString mix final initval method.fullName)
      (some (svc.rpcMethod method))) rpcMap

/-- `rpc_map` after `register_service` has been called for each service. -/
def registerAll (mix final : Registers → Registers) (initval : UInt32)
    (services : List (Service Msg)) : RpcMap Msg :=
  services.foldl (registerService mix final initval) fun _ => none

/-- The full names of all methods. -/
def fullNames (services : List (Service Msg)) : List (List UInt8) :=
  services.flatMap fun svc => svc.methods.map fun method => method.fullName

end Donkeyji.ServerMaps
