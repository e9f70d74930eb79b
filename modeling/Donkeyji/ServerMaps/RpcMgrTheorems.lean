/-
Donkeyji.ServerMaps.RpcMgrTheorems — which methods can be reached.

`hash_string` hashes `size() / 4` words, so up to three bytes at the end of a
name do not count. `reachable_iff` says when every method is found under the
hash of its name, for any services and whatever `mix` and `final` are.
-/
import Donkeyji.ServerMaps.RpcMgr

namespace Donkeyji.ServerMaps

open Memory KeyedMap

/-! ## Words -/

/-- The bytes of a name that are hashed. -/
def wholeBytes (str : List UInt8) : List UInt8 := str.take (str.length / 4 * 4)

theorem wholeBytes_short {str : List UInt8} (h : str.length < 4) : wholeBytes str = [] := by
  have hzero : str.length / 4 = 0 := by omega
  rw [wholeBytes, hzero, Nat.zero_mul, List.take_zero]

/-- Without four bytes there is no word. -/
theorem wholeWords_short : ∀ {str : List UInt8}, str.length < 4 → wholeWords str = []
  | [], _ | [_], _ | [_, _], _ | [_, _, _], _ => rfl
  | _ :: _ :: _ :: _ :: _, h => absurd h (by simp)

/-- A string without a first word is shorter than one. -/
theorem length_lt_of_no_word {str : List UInt8}
    (h : ∀ b0 b1 b2 b3 bytes, str = b0 :: b1 :: b2 :: b3 :: bytes → False) : str.length < 4 := by
  match str, h with
  | [], _ | [_], _ | [_, _], _ | [_, _, _], _ => simp
  | _ :: _ :: _ :: _ :: _, h => exact absurd rfl (h _ _ _ _ _)

theorem wholeBytes_cons (b0 b1 b2 b3 : UInt8) (str : List UInt8) :
    wholeBytes (b0 :: b1 :: b2 :: b3 :: str) = b0 :: b1 :: b2 :: b3 :: wholeBytes str := by
  have hlen : (b0 :: b1 :: b2 :: b3 :: str).length / 4 * 4 = str.length / 4 * 4 + 4 := by
    simp only [List.length_cons]
    omega
  rw [wholeBytes, hlen]
  rfl

/-- A word spells its four bytes. -/
theorem leBytes_wordOf (b0 b1 b2 b3 : UInt8) :
    leBytes 4 (wordOf [b0, b1, b2, b3]).toNat = [b0, b1, b2, b3] := by
  have hlt : leNat [b0, b1, b2, b3] < 4294967296 := by
    calc leNat [b0, b1, b2, b3] < 256 ^ 4 := leNat_lt _
      _ = 4294967296 := by norm_num
  have hword : (wordOf [b0, b1, b2, b3]).toNat = leNat [b0, b1, b2, b3] := by
    rw [wordOf, UInt32.toNat_ofNat', Nat.mod_eq_of_lt hlt]
  rw [hword]
  exact leBytes_leNat [b0, b1, b2, b3]

/-- The words spell the bytes that are hashed. -/
theorem flatMap_wholeWords (str : List UInt8) :
    ((wholeWords str).flatMap fun w => leBytes 4 w.toNat) = wholeBytes str := by
  induction str using wholeWords.induct with
  | case1 b0 b1 b2 b3 str ih =>
    rw [wholeWords, List.flatMap_cons, ih, leBytes_wordOf, wholeBytes_cons]
    rfl
  | case2 str h =>
    have hshort := length_lt_of_no_word h
    rw [wholeWords_short hshort, wholeBytes_short hshort]
    rfl

/-- Only the bytes that are hashed count for the words. -/
theorem wholeWords_wholeBytes (str : List UInt8) : wholeWords (wholeBytes str) = wholeWords str := by
  induction str using wholeWords.induct with
  | case1 b0 b1 b2 b3 str ih =>
    rw [wholeBytes_cons, wholeWords, wholeWords, ih]
  | case2 str h =>
    have hshort := length_lt_of_no_word h
    rw [wholeBytes_short hshort, wholeWords_short hshort]
    rfl

/-- **Two strings give `hashword` the same input exactly if they have the same hashed
bytes.** -/
theorem wholeWords_eq_iff {s t : List UInt8} :
    wholeWords s = wholeWords t ↔ wholeBytes s = wholeBytes t := by
  constructor
  · intro h
    rw [← flatMap_wholeWords s, h, flatMap_wholeWords]
  · intro h
    rw [← wholeWords_wholeBytes s, h, wholeWords_wholeBytes]

/-! ## The table -/

variable {Msg : Type*} (mix final : Registers → Registers) (initval : UInt32)

/-- The entries of all methods, in the order of their registration. -/
def entries (services : List (Service Msg)) : List (RpcMethod Msg) :=
  services.flatMap fun svc => svc.methods.map svc.rpcMethod

/-- The key of an entry. -/
def entryKey (rm : RpcMethod Msg) : UInt32 := hashString mix final initval rm.method.fullName

theorem registerService_eq (rpcMap : RpcMap Msg) (svc : Service Msg) :
    registerService mix final initval rpcMap svc =
      putAll (entryKey mix final initval) rpcMap (svc.methods.map svc.rpcMethod) := by
  rw [putAll, List.foldl_map]
  rfl

/-- Registration stores the entries one after the other. -/
theorem registerAll_eq (services : List (Service Msg)) : registerAll mix final initval services =
    putAll (entryKey mix final initval) (fun _ => none) (entries services) := by
  have hfrom : ∀ rpcMap : RpcMap Msg, services.foldl (registerService mix final initval) rpcMap =
      putAll (entryKey mix final initval) rpcMap (entries services) := by
    induction services with
    | nil => exact fun _ => rfl
    | cons svc services ih =>
      intro rpcMap
      have hentries : entries (svc :: services) =
          svc.methods.map svc.rpcMethod ++ entries services := List.flatMap_cons
      rw [List.foldl_cons, ih, registerService_eq, hentries, putAll_append]
  exact hfrom _

theorem map_fullName_entries (services : List (Service Msg)) :
    (entries services).map (fun rm => rm.method.fullName) = fullNames services := by
  rw [entries, fullNames, List.map_flatMap]
  simp only [List.map_map]
  rfl

/-- Every method is found under the hash of its full name. -/
def AllReachable (services : List (Service Msg)) : Prop :=
  ∀ svc ∈ services, ∀ method ∈ svc.methods,
    registerAll mix final initval services (hashString mix final initval method.fullName) =
      some (svc.rpcMethod method)

theorem allReachable_iff_entries (services : List (Service Msg)) :
    AllReachable mix final initval services ↔ ∀ rm ∈ entries services,
      registerAll mix final initval services (entryKey mix final initval rm) = some rm := by
  constructor
  · intro h rm hrm
    obtain ⟨svc, hsvc, hmem⟩ := List.mem_flatMap.mp hrm
    obtain ⟨method, hmethod, rfl⟩ := List.mem_map.mp hmem
    exact h svc hsvc method hmethod
  · intro h svc hsvc method hmethod
    exact h (svc.rpcMethod method)
      (List.mem_flatMap.mpr ⟨svc, hsvc, List.mem_map.mpr ⟨method, hmethod, rfl⟩⟩)

/-- Different names give `hashword` different inputs. -/
def InputsDiffer (services : List (Service Msg)) : Prop :=
  ∀ s ∈ fullNames services, ∀ t ∈ fullNames services, s ≠ t → wholeWords s ≠ wholeWords t

/-- **When registration keeps every method reachable.** For services whose methods have
different names: exactly if two names never agree in all bytes but the last
`size() % 4`, and `hashword` does not collide on the names' words. -/
theorem reachable_iff (services : List (Service Msg)) (hnames : (fullNames services).Nodup) :
    (AllReachable mix final initval services ∧ InputsDiffer services) ↔
      ∀ s ∈ fullNames services, ∀ t ∈ fullNames services, s ≠ t →
        wholeBytes s ≠ wholeBytes t ∧
        hashword mix final (wholeWords s) initval ≠ hashword mix final (wholeWords t) initval := by
  rw [allReachable_iff_entries, registerAll_eq, putAll_found_iff]
  rw [← map_fullName_entries] at hnames
  have hmem : ∀ s, s ∈ fullNames services ↔ ∃ rm ∈ entries services, rm.method.fullName = s := by
    intro s
    rw [← map_fullName_entries, List.mem_map]
  constructor
  · rintro ⟨hinj, hdiffer⟩ s hs t ht hne
    refine ⟨fun h => hdiffer s hs t ht hne (wholeWords_eq_iff.mpr h), fun hhash => hne ?_⟩
    obtain ⟨rm, hrm, rfl⟩ := (hmem s).mp hs
    obtain ⟨rm', hrm', rfl⟩ := (hmem t).mp ht
    rw [hinj hrm hrm' hhash]
  · intro h
    refine ⟨fun rm hrm rm' hrm' hkey => ?_, fun s hs t ht hne hwords => ?_⟩
    · have hname : rm.method.fullName = rm'.method.fullName := by
        by_contra hne
        exact (h _ ((hmem _).mpr ⟨rm, hrm, rfl⟩) _ ((hmem _).mpr ⟨rm', hrm', rfl⟩) hne).2 hkey
      exact List.inj_on_of_nodup_map hnames hrm hrm' hname
    · exact (h s hs t ht hne).1 (wholeWords_eq_iff.mp hwords)

/-! ## Two services -/

/-- The bytes of an ASCII name. -/
def nameBytes (name : String) : List UInt8 := name.toList.map fun c => UInt8.ofNat c.toNat

/-- A service with methods of the given names. -/
def echoService (names : List String) : Service Unit where
  methods := names.map fun name => ⟨nameBytes name⟩
  requestProtoType _ := ()
  responseProtoType _ := ()

/-- All bytes of a string as words, the last one filled up with zeros. -/
def completeWords : List UInt8 → List UInt32
  | b0 :: b1 :: b2 :: b3 :: bytes => wordOf [b0, b1, b2, b3] :: completeWords bytes
  | [] => []
  | bytes => [wordOf bytes]

/-- A `mix` or `final` that adds the registers up. -/
def addUp : Registers → Registers
  | (a, b, c) => (a + b, b + c, 3 * a + 5 * b + c)

/-- Two names of the same length that differ in an early byte. -/
theorem reachable_iff_echo : AllReachable addUp addUp 0 [echoService ["echo.ping", "Echo.ping"]] ∧
    InputsDiffer [echoService ["echo.ping", "Echo.ping"]] :=
  (reachable_iff addUp addUp 0 [echoService ["echo.ping", "Echo.ping"]] (by decide)).mpr (by decide)

/-- Two names that differ in the last byte only have the same hash, although the hash of
their complete bytes is different. -/
theorem reachable_loses_method : ¬ ∀ (mix final : Registers → Registers) (initval : UInt32)
    (services : List (Service Unit)), (fullNames services).Nodup →
    (∀ s ∈ fullNames services, ∀ t ∈ fullNames services, s ≠ t →
      hashword mix final (completeWords s) initval ≠ hashword mix final (completeWords t) initval) →
    AllReachable mix final initval services ∧ InputsDiffer services := by
  intro h
  obtain ⟨-, hdiffer⟩ := h addUp addUp 0 [echoService ["echo.get1", "echo.get2"]] (by decide)
    (by decide)
  exact hdiffer (nameBytes "echo.get1") (by decide) (nameBytes "echo.get2") (by decide)
    (by decide) (by decide)

end Donkeyji.ServerMaps
