/-
Donkeyji.Mydb.ProtoManagerTheorems — when the stubs and `_s_protos` agree.

`load_spec` says once what a load does to the stubs and how it ends, in terms
of the input: the name it binds (`LoadInput.stub`) and the verdict on its
argument list (`LoadInput.verdict`), which depends on the names of the types
known so far. From it come the two halves of `consistent_iff`: a call that is
`Safe` keeps the invariant, and one that is not breaks `Consistent` at once.

A call is safe if it does not bind a stub and then fail, does not bind a
stub to id 0, and does not delete an object to which a name stays bound.
-/
import Donkeyji.Lib.Runs
import Donkeyji.Mydb.ProtoManager

namespace Donkeyji.Mydb

/-! ## The condition -/

/-- How an argument list is taken: accepted, refused, or with a crash. -/
inductive Verdict where
  | accepted
  | refused
  | crash
deriving DecidableEq

/-- What becomes of an argument list when the names in `known` are those of types. -/
def argsVerdict (known : List (List UInt8)) : List (Option ArgDesc) → Verdict
  | [] => .accepted
  | none :: _ => .refused
  | some desc :: descs =>
    match desc.arrayLen with
    | some arrayLen =>
      if arrayLen < 0 ∨ arrayLen > 255 then .refused
      else if untilNul desc.type ∈ known then argsVerdict (known ++ [cstr "array"]) descs
      else .crash
    | none => if untilNul desc.type ∈ known then argsVerdict known descs else .refused

namespace LoadInput

/-- The name to which `func_proc` binds a stub, if the load gets so far and the
protocol is a caller's. -/
def stub (curChar : List UInt8) (inp : LoadInput) : Option (List UInt8) :=
  match inp.path.bind (processType curChar), inp.file with
  | some (name, false), .returned (some desc) => some ((desc.funcName.map untilNul).getD name)
  | _, _ => none

/-- The verdict on the argument list of the file. -/
def verdict (known : List (List UInt8)) (inp : LoadInput) : Verdict :=
  match inp.file with
  | .returned (some desc) => (desc.argList.map (argsVerdict known)).getD .refused
  | _ => .refused

end LoadInput

/-- The names of the types that are known. -/
def ProtoManager.known (s : ProtoManager) : List (List UInt8) := s.reg.map FcallArg.type

/-- The whole load is accepted: a maker's function exists, and so do the types of the
arguments. -/
def LoadInput.Accepted (curChar : List UInt8) (known : List (List UInt8)) (inp : LoadInput) :
    Prop :=
  match inp.path.bind (processType curChar), inp.file with
  | some (name, isMaker), .returned (some desc) =>
    (isMaker = true → ∃ funcs, inp.forMaker = some funcs ∧
      funcs ((desc.funcName.map untilNul).getD name) = true) ∧
    inp.verdict known = .accepted
  | _, _ => False

/-- A call that keeps stubs and protocols together: it binds no stub whose argument
list is refused, none to the id 0, and deletes no object with another stub. -/
def ProtoManager.Safe (curChar : List UInt8) (s : ProtoManager) : ManagerCall → Prop
  | .add inp => inp.stub curChar ≠ none → inp.verdict s.known ≠ .refused
  | .update none _ => True
  | .update (some id) inp => ∀ old, s.protos[id]? = some old →
      (inp.stub curChar ≠ none →
        inp.verdict s.known ≠ .refused ∧ (id = 0 → inp.verdict s.known = .crash)) ∧
      (inp.Accepted curChar s.known →
        ∀ name, s.forCaller name = some old → inp.stub curChar = some name)

/-! ## What a load does -/

/-- The failure that a verdict stands for. -/
def Verdict.fail : Verdict → Option LoadFail
  | .accepted => none
  | .refused => some .raise
  | .crash => some .crash

theorem getArg_eq_none_iff {reg : Registry} {ty : List UInt8} :
    reg.getArg ty = none ↔ ty ∉ reg.map FcallArg.type := by
  simp [Registry.getArg, List.find?_eq_none]

/-- `arglist_proc` fails as the verdict says. -/
theorem arglistProc_fail : ∀ (descs : List (Option ArgDesc)) (reg : Registry),
    (arglistProc reg descs).2.2 = (argsVerdict (reg.map FcallArg.type) descs).fail
  | [], reg => rfl
  | none :: descs, reg => rfl
  | some ⟨ty, none⟩ :: descs, reg => by
      simp only [arglistProc, arglistEntry, argsVerdict]
      cases harg : reg.getArg (untilNul ty) with
      | none => simp [getArg_eq_none_iff.mp harg, Verdict.fail]
      | some arg =>
        have hknown : untilNul ty ∈ reg.map FcallArg.type := by
          by_contra h
          rw [getArg_eq_none_iff.mpr h] at harg
          cases harg
        simp only [if_pos hknown]
        exact arglistProc_fail descs reg
  | some ⟨ty, some arrayLen⟩ :: descs, reg => by
      simp only [arglistProc, arglistEntry, argsVerdict]
      by_cases hrange : arrayLen < 0 ∨ arrayLen > 255
      · simp [hrange, Verdict.fail]
      · simp only [if_neg hrange, fcallArrayArg]
        cases harg : reg.getArg (untilNul ty) with
        | none => simp [getArg_eq_none_iff.mp harg, Verdict.fail]
        | some arg =>
          have hknown : untilNul ty ∈ reg.map FcallArg.type := by
            by_contra h
            rw [getArg_eq_none_iff.mpr h] at harg
            cases harg
          have hrest := arglistProc_fail descs (reg ++ [.array arg arrayLen.toNat])
          rw [List.map_append] at hrest
          simp only [if_pos hknown, Option.map_some]
          exact hrest

/-- **What a load does**: to the object's id, to the stubs, and how it ends. -/
theorem load_spec (curChar : List UInt8) (inp : LoadInput) (l : Loading) :
    (load curChar inp l).1.proto.id = l.proto.id ∧
    (load curChar inp l).1.forCaller =
      (match inp.stub curChar with
        | some name => Function.update l.forCaller name (some inp.addr)
        | none => l.forCaller) ∧
    ((load curChar inp l).2 = none ↔ inp.Accepted curChar (l.reg.map FcallArg.type)) ∧
    (inp.stub curChar ≠ none →
      ((load curChar inp l).2 = none ↔ inp.verdict (l.reg.map FcallArg.type) = .accepted) ∧
      ((load curChar inp l).2 = some .crash ↔
        inp.verdict (l.reg.map FcallArg.type) = .crash)) := by
  obtain ⟨addr, path, file, forMaker⟩ := inp
  simp only [load, LoadInput.stub, LoadInput.Accepted, LoadInput.verdict]
  cases path.bind (processType curChar) with
  | none => simp
  | some nm =>
    obtain ⟨name, isMaker⟩ := nm
    match file with
    | .unread | .noChunk | .failed | .returned none => cases isMaker <;> simp [convertProtocol]
    | .returned (some ⟨funcName, argList⟩) =>
      have hargs : ∀ l : Loading, (argsProc argList l).1.proto.id = l.proto.id ∧
          (argsProc argList l).1.forCaller = l.forCaller ∧
          ((argsProc argList l).2 = none ↔
            (argList.map (argsVerdict (l.reg.map FcallArg.type))).getD .refused = .accepted) ∧
          ((argsProc argList l).2 = some .crash ↔
            (argList.map (argsVerdict (l.reg.map FcallArg.type))).getD .refused = .crash) := by
        intro l
        cases argList with
        | none => simp [argsProc]
        | some descs =>
          have hfail := arglistProc_fail descs l.reg
          simp only [argsProc, hfail, Option.map_some, Option.getD_some, true_and]
          cases argsVerdict (l.reg.map FcallArg.type) descs <;> simp [Verdict.fail]
      cases isMaker with
      | false =>
        simp only [convertProtocol, funcProc, Bool.false_eq_true, if_false]
        have h := hargs { l with
          proto := { l.proto with
            packFuncName := (funcName.map untilNul).getD name
            isMaker := false }
          forCaller := Function.update l.forCaller ((funcName.map untilNul).getD name) (some addr) }
        exact ⟨h.1, h.2.1, by rw [h.2.2.1]; simp, fun _ => ⟨h.2.2.1, h.2.2.2⟩⟩
      | true =>
        simp only [convertProtocol, funcProc, if_true]
        cases forMaker with
        | none => simp
        | some funcs =>
          by_cases hfunc : funcs ((funcName.map untilNul).getD name) = true
          · simp only [hfunc, if_true]
            have h := hargs { l with
              proto := { l.proto with
                packFuncName := (funcName.map untilNul).getD name
                isMaker := true } }
            refine ⟨h.1, h.2.1, ?_, by simp⟩
            rw [h.2.2.1]
            simp [hfunc]
          · simp [hfunc]

namespace ProtoManager

variable {curChar : List UInt8} {s s' : ProtoManager} {inp : LoadInput}

/-- A load that fails without a crash after it has bound a stub has refused the
argument list. -/
theorem refused_of_fail {l : Loading} {fail : LoadFail} (hfail : (load curChar inp l).2 = some fail)
    (hcrash : fail ≠ .crash) (hstub : inp.stub curChar ≠ none) :
    inp.verdict (l.reg.map FcallArg.type) = .refused := by
  obtain ⟨hok, hcr⟩ := (load_spec curChar inp l).2.2.2 hstub
  rw [hfail] at hok hcr
  cases hv : inp.verdict (l.reg.map FcallArg.type) with
  | refused => rfl
  | accepted => cases hok.mpr hv
  | crash => exact absurd (Option.some.inj (hcr.mpr hv)) hcrash

/-- The stubs after a load that binds none. -/
theorem forCaller_of_no_stub (l : Loading) (h : inp.stub curChar = none) :
    (load curChar inp l).1.forCaller = l.forCaller := by
  rw [(load_spec curChar inp l).2.1, h]

/-- The stubs after a load that binds one. -/
theorem forCaller_of_stub (l : Loading) {name : List UInt8} (h : inp.stub curChar = some name) :
    (load curChar inp l).1.forCaller = Function.update l.forCaller name (some inp.addr) := by
  rw [(load_spec curChar inp l).2.1, h]

/-- A stub after a load is the new one or was there before. -/
theorem stub_after {l : Loading} {name : List UInt8} {a : ObjAddr}
    (h : (load curChar inp l).1.forCaller name = some a) :
    inp.stub curChar = some name ∧ a = inp.addr ∨
      inp.stub curChar ≠ some name ∧ l.forCaller name = some a := by
  cases hstub : inp.stub curChar with
  | none =>
    rw [forCaller_of_no_stub l hstub] at h
    exact .inr ⟨nofun, h⟩
  | some name' =>
    rw [forCaller_of_stub l hstub] at h
    by_cases hn : name = name'
    · rw [hn, Function.update_self] at h
      exact .inl ⟨by rw [hn], (Option.some.inj h).symm⟩
    · rw [Function.update_of_ne hn] at h
      exact .inr ⟨fun heq => hn (Option.some.inj heq).symm, h⟩

/-- The object keeps its id. -/
theorem load_id (curChar : List UInt8) (inp : LoadInput) (s : ProtoManager) (id : Nat) :
    (load curChar inp (s.loading id)).1.proto.id = id :=
  (load_spec curChar inp (s.loading id)).1

/-! ## Ids -/

/-- `_s_protos` holds live objects with their ids. -/
def Ids (s : ProtoManager) : Prop :=
  ∀ i addr, s.protos[i]? = some addr → ∃ P, s.heap addr = some P ∧ P.id = i

theorem ids_init (addr : ObjAddr) : (init addr).Ids := by
  intro i a h
  cases i with
  | zero =>
    cases h
    exact ⟨.new 0, by simp [init], rfl⟩
  | succ i => cases h

/-- An object of `_s_protos` is not the new one. -/
theorem Ids.ne_of_proto (hids : s.Ids) {addr a : ObjAddr} {i : Nat}
    (hfresh : s.heap addr = none) (h : s.protos[i]? = some a) : a ≠ addr := by
  rintro rfl
  obtain ⟨P, hP, -⟩ := hids i a h
  rw [hfresh] at hP
  cases hP

/-- A failure leaves the ids alone. -/
theorem Ids.of_failed (hids : s.Ids) (hfresh : s.heap inp.addr = none)
    (hheap : ∀ a, a ≠ inp.addr → s'.heap a = s.heap a) (hprotos : s'.protos = s.protos) :
    s'.Ids := by
  intro i a h
  rw [hprotos] at h
  obtain ⟨P, hP, hid⟩ := hids i a h
  exact ⟨P, by rw [hheap a (hids.ne_of_proto hfresh h), hP], hid⟩

/-- A new object at the end has the next id. -/
theorem Ids.of_added (hids : s.Ids) {addr : ObjAddr} (hfresh : s.heap addr = none)
    {P : NetProtocol} (hid : P.id = s.protos.length)
    (hheap : s'.heap = Function.update s.heap addr (some P))
    (hprotos : s'.protos = s.protos ++ [addr]) : s'.Ids := by
  intro i a h
  rw [hprotos] at h
  by_cases hi : i < s.protos.length
  · rw [List.getElem?_append_left hi] at h
    obtain ⟨P', hP', hid'⟩ := hids i a h
    exact ⟨P', by rw [hheap, Function.update_of_ne (hids.ne_of_proto hfresh h), hP'], hid'⟩
  · have hlen := (List.getElem?_eq_some_iff.mp h).1
    rw [List.length_append, List.length_singleton] at hlen
    have hieq : i = s.protos.length := by omega
    subst hieq
    rw [List.getElem?_concat_length] at h
    cases h
    exact ⟨P, by rw [hheap, Function.update_self], hid⟩

/-- A new object in the place of an old one has its id. -/
theorem Ids.of_replaced (hids : s.Ids) {addr old : ObjAddr} (hfresh : s.heap addr = none)
    {id : Nat} (hold : s.protos[id]? = some old) {P : NetProtocol} (hid : P.id = id)
    (hheap : s'.heap = Function.update (Function.update s.heap addr (some P)) old none)
    (hprotos : s'.protos = s.protos.set id addr) : s'.Ids := by
  intro i a h
  have hlen : id < s.protos.length := (List.getElem?_eq_some_iff.mp hold).1
  have hne : addr ≠ old := (hids.ne_of_proto hfresh hold).symm
  rw [hprotos] at h
  by_cases hi : id = i
  · subst hi
    rw [List.getElem?_set_self hlen] at h
    cases h
    exact ⟨P, by rw [hheap, Function.update_of_ne hne, Function.update_self], hid⟩
  · rw [List.getElem?_set_ne hi] at h
    obtain ⟨P', hP', hid'⟩ := hids i a h
    have haold : a ≠ old := by
      rintro rfl
      obtain ⟨P'', hP'', hid''⟩ := hids id a hold
      rw [hP'] at hP''
      cases hP''
      exact hi (hid''.symm.trans hid')
    refine ⟨P', ?_, hid'⟩
    rw [hheap, Function.update_of_ne haold, Function.update_of_ne (hids.ne_of_proto hfresh h), hP']

/-- **Every call keeps the ids**, whether it succeeds or not. -/
theorem step_ids {call : ManagerCall} (hids : s.Ids) (hfresh : s.Fresh call)
    (hstep : step curChar s call = some s') : s'.Ids := by
  cases call with
  | add inp =>
    have hid := load_id curChar inp s s.protos.length
    simp only [step, addProtocol] at hstep
    match hload : load curChar inp (s.loading s.protos.length) with
    | (l, none) =>
      rw [hload] at hstep hid
      cases hstep
      exact hids.of_added hfresh hid rfl rfl
    | (l, some .crash) =>
      rw [hload] at hstep
      cases hstep
    | (l, some .raise) | (l, some .protoError) =>
      rw [hload] at hstep
      cases hstep
      exact hids.of_failed hfresh (fun a ha => Function.update_of_ne ha _ _) rfl
  | update id inp =>
    simp only [step, updateProtocol] at hstep
    cases id with
    | none =>
      cases hstep
      exact hids
    | some id =>
      cases hold : s.protos[id]? with
      | none =>
        simp only [hold] at hstep
        cases hstep
        exact hids
      | some old =>
        have hid := load_id curChar inp s id
        match hload : load curChar inp (s.loading id) with
        | (l, none) =>
          simp only [hold, hload] at hstep hid
          cases hstep
          exact hids.of_replaced hfresh hold hid rfl rfl
        | (l, some .crash) =>
          simp only [hold, hload] at hstep
          cases hstep
        | (l, some .raise) | (l, some .protoError) =>
          simp only [hold, hload] at hstep
          cases hstep
          exact hids.of_failed hfresh (fun a ha => Function.update_of_ne ha _ _) rfl

/-! ## The invariant -/

/-- Stubs and protocols agree, and `_s_protos` holds live objects with their ids. -/
structure Inv (s : ProtoManager) : Prop where
  consistent : s.Consistent
  ids : ∀ i addr, s.protos[i]? = some addr → ∃ P, s.heap addr = some P ∧ P.id = i
  nonempty : s.protos ≠ []

theorem inv_init (addr : ObjAddr) : (init addr).Inv where
  consistent := nofun
  ids := ids_init addr
  nonempty := nofun

/-- The object of a stub is not the new one. -/
theorem Inv.ne_of_stub (hinv : s.Inv) {addr a : ObjAddr} {name : List UInt8}
    (hfresh : s.heap addr = none) (h : s.forCaller name = some a) : a ≠ addr := by
  rintro rfl
  obtain ⟨P, hP, -⟩ := hinv.consistent name a h
  rw [hfresh] at hP
  cases hP

/-- A failure that changes neither stubs nor protocols keeps the invariant, whether
or not the new object is left behind. -/
theorem Inv.of_failed (hinv : s.Inv) (hfresh : s.heap inp.addr = none)
    (hheap : ∀ a, a ≠ inp.addr → s'.heap a = s.heap a) (hprotos : s'.protos = s.protos)
    (hstubs : s'.forCaller = s.forCaller) : s'.Inv where
  consistent name a h := by
    rw [hstubs] at h
    obtain ⟨P, hP, hid, hat⟩ := hinv.consistent name a h
    exact ⟨P, by rw [hheap a (hinv.ne_of_stub hfresh h), hP], hid, by rw [hprotos, hat]⟩
  ids := Ids.of_failed hinv.ids hfresh hheap hprotos
  nonempty := by
    rw [hprotos]
    exact hinv.nonempty

/-- An added protocol keeps the invariant. -/
theorem Inv.of_added (hinv : s.Inv) {addr : ObjAddr} (hfresh : s.heap addr = none)
    {P : NetProtocol} (hid : P.id = s.protos.length)
    (hheap : s'.heap = Function.update s.heap addr (some P))
    (hprotos : s'.protos = s.protos ++ [addr])
    (hstubs : ∀ name a, s'.forCaller name = some a → a = addr ∨ s.forCaller name = some a) :
    s'.Inv where
  consistent name a h := by
    obtain rfl | hold := hstubs name a h
    · refine ⟨P, by rw [hheap, Function.update_self], ?_, ?_⟩
      · rw [hid]
        exact (List.length_pos_iff.mpr hinv.nonempty).ne'
      · rw [hprotos, hid, List.getElem?_concat_length]
    · obtain ⟨P', hP', hid', hat⟩ := hinv.consistent name a hold
      refine ⟨P', ?_, hid', ?_⟩
      · rw [hheap, Function.update_of_ne (hinv.ne_of_stub hfresh hold), hP']
      · rw [hprotos, List.getElem?_append_left (List.getElem?_eq_some_iff.mp hat).1, hat]
  ids := Ids.of_added hinv.ids hfresh hid hheap hprotos
  nonempty := by
    rw [hprotos]
    simp

/-- A replaced protocol keeps the invariant, if no stub stays bound to the old object. -/
theorem Inv.of_replaced (hinv : s.Inv) {addr old : ObjAddr} (hfresh : s.heap addr = none)
    {id : Nat} (hold : s.protos[id]? = some old) {P : NetProtocol} (hid : P.id = id)
    (hheap : s'.heap = Function.update (Function.update s.heap addr (some P)) old none)
    (hprotos : s'.protos = s.protos.set id addr)
    (hstubs : ∀ name a, s'.forCaller name = some a →
      a = addr ∧ id ≠ 0 ∨ s.forCaller name = some a ∧ a ≠ old) : s'.Inv where
  consistent name a h := by
    have hlen : id < s.protos.length := (List.getElem?_eq_some_iff.mp hold).1
    have hne : addr ≠ old := (Ids.ne_of_proto hinv.ids hfresh hold).symm
    obtain ⟨rfl, hid0⟩ | ⟨hcall, haold⟩ := hstubs name a h
    · refine ⟨P, ?_, by rw [hid]; exact hid0, ?_⟩
      · rw [hheap, Function.update_of_ne hne, Function.update_self]
      · rw [hprotos, hid, List.getElem?_set_self hlen]
    · obtain ⟨P', hP', hid', hat⟩ := hinv.consistent name a hcall
      refine ⟨P', ?_, hid', ?_⟩
      · rw [hheap, Function.update_of_ne haold,
          Function.update_of_ne (hinv.ne_of_stub hfresh hcall), hP']
      · have hne' : id ≠ P'.id := by
          rintro rfl
          rw [hold] at hat
          exact haold (Option.some.inj hat).symm
        rw [hprotos, List.getElem?_set_ne hne', hat]
  ids := Ids.of_replaced hinv.ids hfresh hold hid hheap hprotos
  nonempty := by
    rw [hprotos]
    intro hnil
    rw [List.set_eq_nil_iff] at hnil
    exact hinv.nonempty hnil

/-! ## Safe calls -/

/-- A load that fails without a crash has bound no stub, if refused argument lists
do not. -/
theorem no_stub_of_fail {id : Nat} {l : Loading} {fail : LoadFail}
    (hload : load curChar inp (s.loading id) = (l, some fail)) (hcrash : fail ≠ .crash)
    (hsafe : inp.stub curChar ≠ none → inp.verdict s.known ≠ .refused) :
    inp.stub curChar = none ∧ l.forCaller = s.forCaller := by
  have hno : inp.stub curChar = none := by
    by_contra hstub
    exact hsafe hstub (refused_of_fail (l := s.loading id) (by rw [hload]) hcrash hstub)
  have hcall := forCaller_of_no_stub (s.loading id) hno
  rw [hload] at hcall
  exact ⟨hno, hcall⟩

/-- A safe `add_protocol` keeps the invariant. -/
theorem addProtocol_inv (hinv : s.Inv) (hfresh : s.heap inp.addr = none)
    (hsafe : s.Safe curChar (.add inp)) (hstep : addProtocol curChar s inp = some s') : s'.Inv := by
  unfold addProtocol at hstep
  have hid := load_id curChar inp s s.protos.length
  match hload : load curChar inp (s.loading s.protos.length) with
  | (l, none) =>
    rw [hload] at hstep hid
    cases hstep
    refine hinv.of_added hfresh hid rfl rfl fun name a h => ?_
    obtain ⟨-, ha⟩ | ⟨-, hold⟩ := stub_after (l := s.loading s.protos.length)
      (by rw [hload]; exact h)
    · exact .inl ha
    · exact .inr hold
  | (l, some .crash) =>
    rw [hload] at hstep
    cases hstep
  | (l, some .raise) | (l, some .protoError) =>
    rw [hload] at hstep
    cases hstep
    exact hinv.of_failed hfresh (fun a ha => Function.update_of_ne ha _ _) rfl
      (no_stub_of_fail hload nofun hsafe).2

/-- A safe `update_protocol` keeps the invariant. -/
theorem updateProtocol_inv {id : Option Nat} (hinv : s.Inv) (hfresh : s.heap inp.addr = none)
    (hsafe : s.Safe curChar (.update id inp))
    (hstep : updateProtocol curChar s id inp = some s') : s'.Inv := by
  unfold updateProtocol at hstep
  cases id with
  | none =>
    cases hstep
    exact hinv
  | some id =>
    cases hold : s.protos[id]? with
    | none =>
      simp only [hold] at hstep
      cases hstep
      exact hinv
    | some old =>
      obtain ⟨hbind, hother⟩ := hsafe old hold
      have hrefused := fun h => (hbind h).1
      have hid := load_id curChar inp s id
      match hload : load curChar inp (s.loading id) with
      | (l, none) =>
        obtain ⟨-, -, haccept, hverdict⟩ := load_spec curChar inp (s.loading id)
        have hacc : inp.Accepted curChar s.known := haccept.mp (by rw [hload])
        simp only [hold, hload] at hstep hid
        cases hstep
        refine hinv.of_replaced hfresh hold hid rfl rfl fun name a h => ?_
        obtain ⟨hstub, ha⟩ | ⟨hstub, hcall⟩ := stub_after (l := s.loading id)
          (by rw [hload]; exact h)
        · have hne : inp.stub curChar ≠ none := by rw [hstub]; exact nofun
          refine .inl ⟨ha, fun h0 => ?_⟩
          have hcrash := (hverdict hne).1.mp (by rw [hload])
          have hv : inp.verdict s.known = .crash := (hbind hne).2 h0
          cases hcrash.symm.trans hv
        · exact .inr ⟨hcall, fun ha => hstub (hother hacc name (ha ▸ hcall))⟩
      | (l, some .crash) =>
        simp only [hold, hload] at hstep
        cases hstep
      | (l, some .raise) | (l, some .protoError) =>
        simp only [hold, hload] at hstep
        cases hstep
        exact hinv.of_failed hfresh (fun a ha => Function.update_of_ne ha _ _) rfl
          (no_stub_of_fail hload nofun hrefused).2

/-- **Safe calls keep the invariant.** -/
theorem step_inv {call : ManagerCall} (hinv : s.Inv) (hfresh : s.Fresh call)
    (hsafe : s.Safe curChar call) (hstep : step curChar s call = some s') : s'.Inv := by
  cases call with
  | add inp => exact addProtocol_inv hinv hfresh hsafe hstep
  | update id inp => exact updateProtocol_inv hinv hfresh hsafe hstep

/-! ## Calls that are not safe -/

/-- A load that binds a stub and refuses the argument list fails without a crash. -/
theorem fail_of_refused (id : Nat) (hstub : inp.stub curChar ≠ none)
    (hrefused : inp.verdict s.known = .refused) :
    ∃ l fail, load curChar inp (s.loading id) = (l, some fail) ∧ fail ≠ .crash := by
  obtain ⟨-, -, -, h⟩ := load_spec curChar inp (s.loading id)
  obtain ⟨hok, hcr⟩ := h hstub
  replace hrefused : inp.verdict ((s.loading id).reg.map FcallArg.type) = .refused := hrefused
  rw [hrefused] at hok hcr
  match hload : load curChar inp (s.loading id) with
  | (l, none) =>
    rw [hload] at hok
    cases hok.mp rfl
  | (l, some fail) =>
    refine ⟨l, fail, rfl, ?_⟩
    rintro rfl
    rw [hload] at hcr
    cases hcr.mp rfl

/-- An `add_protocol` that is not safe leaves a stub bound to an object that
`_s_protos` does not hold. -/
theorem addProtocol_breaks (hrisky : ¬ s.Safe curChar (.add inp)) :
    ∃ s', addProtocol curChar s inp = some s' ∧ ¬ s'.Consistent := by
  simp only [Safe, Classical.not_imp, not_not] at hrisky
  obtain ⟨hstub, hrefused⟩ := hrisky
  obtain ⟨name, hname⟩ := Option.ne_none_iff_exists'.mp hstub
  obtain ⟨l, fail, hload, hcrash⟩ := fail_of_refused s.protos.length hstub hrefused
  have hcall := forCaller_of_stub (s.loading s.protos.length) hname
  have hid := load_id curChar inp s s.protos.length
  rw [hload] at hcall hid
  refine ⟨⟨Function.update s.heap inp.addr (some l.proto), s.protos, l.forCaller, l.reg⟩, ?_, ?_⟩
  · cases fail with
    | crash => exact absurd rfl hcrash
    | raise | protoError => simp only [addProtocol, hload]
  · intro hcons
    obtain ⟨P, hP, -, hat⟩ := hcons name inp.addr (by
      show l.forCaller name = some inp.addr
      rw [hcall, Function.update_self])
    simp only [Function.update_self, Option.some.injEq] at hP
    subst hP
    have hnone : s.protos[s.protos.length]? = none := List.getElem?_eq_none le_rfl
    rw [hid, hnone] at hat
    cases hat

/-- An `update_protocol` that binds a stub and fails leaves it bound to the new object. -/
theorem updateProtocol_breaks_refused (hinv : s.Inv) (hfresh : s.heap inp.addr = none) {id : Nat}
    {old : ObjAddr} (hold : s.protos[id]? = some old) (hstub : inp.stub curChar ≠ none)
    (hrefused : inp.verdict s.known = .refused) :
    ∃ s', updateProtocol curChar s (some id) inp = some s' ∧ ¬ s'.Consistent := by
  obtain ⟨name, hname⟩ := Option.ne_none_iff_exists'.mp hstub
  obtain ⟨l, fail, hload, hcrash⟩ := fail_of_refused id hstub hrefused
  have hcall := forCaller_of_stub (s.loading id) hname
  have hid := load_id curChar inp s id
  rw [hload] at hcall hid
  replace hcall : l.forCaller name = some inp.addr := by rw [hcall, Function.update_self]
  cases fail with
  | crash => exact absurd rfl hcrash
  | raise =>
    refine ⟨⟨Function.update s.heap inp.addr (some l.proto), s.protos, l.forCaller, l.reg⟩,
      by simp only [updateProtocol, hold, hload], fun hcons => ?_⟩
    obtain ⟨P, hP, -, hat⟩ := hcons name inp.addr hcall
    simp only [Function.update_self, Option.some.injEq] at hP
    subst hP
    replace hid : l.proto.id = id := hid
    rw [hid, hold] at hat
    exact Ids.ne_of_proto hinv.ids hfresh hold (Option.some.inj hat)
  | protoError =>
    refine ⟨⟨Function.update s.heap inp.addr none, s.protos, l.forCaller, l.reg⟩,
      by simp only [updateProtocol, hold, hload], fun hcons => ?_⟩
    obtain ⟨P, hP, -⟩ := hcons name inp.addr hcall
    simp only [Function.update_self] at hP
    cases hP

/-- The state after an update that is accepted. -/
def replaced (s : ProtoManager) (inp : LoadInput) (l : Loading) (id : Nat) (old : ObjAddr) :
    ProtoManager where
  heap := Function.update (Function.update s.heap inp.addr (some l.proto)) old none
  protos := s.protos.set id inp.addr
  forCaller := l.forCaller
  reg := l.reg

/-- An accepted update arrives in the replaced state. -/
theorem updateProtocol_accepted {id : Nat} {old : ObjAddr} (hold : s.protos[id]? = some old)
    (haccept : inp.Accepted curChar s.known) :
    ∃ l, load curChar inp (s.loading id) = (l, none) ∧
      updateProtocol curChar s (some id) inp = some (replaced s inp l id old) := by
  obtain ⟨-, -, hacc, -⟩ := load_spec curChar inp (s.loading id)
  match hload : load curChar inp (s.loading id) with
  | (l, none) => exact ⟨l, rfl, by simp only [updateProtocol, hold, hload, replaced]⟩
  | (l, some fail) =>
    rw [hload] at hacc
    cases hacc.mpr haccept

/-- An `update_protocol` that is not safe breaks consistency. -/
theorem updateProtocol_breaks {id : Option Nat} (hinv : s.Inv) (hfresh : s.heap inp.addr = none)
    (hrisky : ¬ s.Safe curChar (.update id inp)) :
    ∃ s', updateProtocol curChar s id inp = some s' ∧ ¬ s'.Consistent := by
  cases id with
  | none => exact absurd trivial hrisky
  | some id =>
    obtain ⟨old, hrisky⟩ := not_forall.mp hrisky
    obtain ⟨hold, hrisky⟩ := Classical.not_imp.mp hrisky
    have hne : inp.addr ≠ old := (Ids.ne_of_proto hinv.ids hfresh hold).symm
    by_cases hbind : inp.stub curChar ≠ none →
        inp.verdict s.known ≠ .refused ∧ (id = 0 → inp.verdict s.known = .crash)
    · -- a stub of another name keeps the address of the deleted object
      obtain ⟨haccept, hother⟩ := Classical.not_imp.mp fun h => hrisky ⟨hbind, h⟩
      obtain ⟨name, hother⟩ := not_forall.mp hother
      obtain ⟨hcall, hname⟩ := Classical.not_imp.mp hother
      obtain ⟨l, hload, hstep⟩ := updateProtocol_accepted hold haccept
      refine ⟨_, hstep, fun hcons => ?_⟩
      have hkept : l.forCaller name = some old := by
        have hl : l = (load curChar inp (s.loading id)).1 := by rw [hload]
        rw [hl]
        cases hstub : inp.stub curChar with
        | none =>
          rw [forCaller_of_no_stub _ hstub]
          exact hcall
        | some name' =>
          have hn : name ≠ name' := fun h => hname (by rw [hstub, h])
          rw [forCaller_of_stub _ hstub, Function.update_of_ne hn]
          exact hcall
      obtain ⟨P, hP, -⟩ := hcons name old hkept
      simp only [replaced, Function.update_self] at hP
      cases hP
    · obtain ⟨hstub, hbad⟩ := Classical.not_imp.mp hbind
      cases hv : inp.verdict s.known with
      | refused => exact updateProtocol_breaks_refused hinv hfresh hold hstub hv
      | crash => exact absurd ⟨by rw [hv]; exact nofun, fun _ => hv⟩ hbad
      | accepted =>
        -- the stub is bound to an object with the id 0
        have hid0 : id = 0 := by
          by_contra h
          exact hbad ⟨by rw [hv]; exact nofun, fun h0 => absurd h0 h⟩
        obtain ⟨name, hname⟩ := Option.ne_none_iff_exists'.mp hstub
        obtain ⟨-, -, hacc, hverdict⟩ := load_spec curChar inp (s.loading id)
        have haccept := hacc.mp ((hverdict hstub).1.mpr hv)
        obtain ⟨l, hload, hstep⟩ := updateProtocol_accepted hold haccept
        have hid := load_id curChar inp s id
        have hcall := forCaller_of_stub (s.loading id) hname
        rw [hload] at hid hcall
        refine ⟨_, hstep, fun hcons => ?_⟩
        obtain ⟨P, hP, hne0, -⟩ := hcons name inp.addr (by
          show l.forCaller name = some inp.addr
          rw [hcall, Function.update_self])
        simp only [replaced, Function.update_of_ne hne, Function.update_self,
          Option.some.injEq] at hP
        subst hP
        exact hne0 (hid.trans hid0)

/-- **A call that is not safe breaks consistency.** -/
theorem step_breaks {call : ManagerCall} (hinv : s.Inv) (hfresh : s.Fresh call)
    (hrisky : ¬ s.Safe curChar call) :
    ∃ s', step curChar s call = some s' ∧ ¬ s'.Consistent := by
  cases call with
  | add inp => exact addProtocol_breaks hrisky
  | update id inp => exact updateProtocol_breaks hinv hfresh hrisky

/-! ## Runs -/

/-- The call's load fails. -/
def Fails (curChar : List UInt8) (s : ProtoManager) : ManagerCall → Prop
  | .add inp => (load curChar inp (s.loading s.protos.length)).2 ≠ none
  | .update none _ => False
  | .update (some id) inp =>
    id < s.protos.length ∧ (load curChar inp (s.loading id)).2 ≠ none

/-- If the call fails, it leaves the stubs and `_s_protos` as they were. -/
def FailureKeeps (curChar : List UInt8) (s : ProtoManager) (call : ManagerCall) : Prop :=
  s.Fails curChar call → ∀ s', step curChar s call = some s' →
    s'.forCaller = s.forCaller ∧ s'.protos = s.protos

/-- A safe call that fails leaves the stubs and `_s_protos` as they were. -/
theorem failureKeeps_of_safe {call : ManagerCall} (hsafe : s.Safe curChar call) :
    s.FailureKeeps curChar call := by
  intro hfails s' hstep
  cases call with
  | add inp =>
    simp only [step, addProtocol] at hstep
    match hload : load curChar inp (s.loading s.protos.length) with
    | (l, none) => exact absurd (by rw [hload]) hfails
    | (l, some .crash) =>
      rw [hload] at hstep
      cases hstep
    | (l, some .raise) | (l, some .protoError) =>
      rw [hload] at hstep
      cases hstep
      exact ⟨(no_stub_of_fail hload nofun hsafe).2, rfl⟩
  | update id inp =>
    cases id with
    | none => exact absurd hfails id
    | some id =>
      obtain ⟨hlt, hfail⟩ := hfails
      have hold : s.protos[id]? = some s.protos[id] := List.getElem?_eq_getElem hlt
      have hrefused := fun h => ((hsafe _ hold).1 h).1
      simp only [step, updateProtocol, hold] at hstep
      match hload : load curChar inp (s.loading id) with
      | (l, none) => exact absurd (by rw [hload]) hfail
      | (l, some .crash) =>
        rw [hload] at hstep
        cases hstep
      | (l, some .raise) | (l, some .protoError) =>
        rw [hload] at hstep
        cases hstep
        exact ⟨(no_stub_of_fail hload nofun hrefused).2, rfl⟩

/-- **When stubs and protocols stay together.** In a run of calls from the start, every
stub of every state is bound to a live object with an id that is not 0, the one
`_s_protos` holds at this id, and every failure leaves both as they were, exactly
if every call is safe. -/
theorem consistent_iff (curChar : List UInt8) (addr : ObjAddr) (calls : List ManagerCall)
    (hfresh : Runs.AllSteps (step curChar) Fresh (init addr) calls) :
    (Runs.AllStates (step curChar) Consistent (init addr) calls ∧
        Runs.AllSteps (step curChar) (FailureKeeps curChar) (init addr) calls) ↔
      Runs.AllSteps (step curChar) (Safe curChar) (init addr) calls := by
  have hstates : Runs.AllStates (step curChar) Consistent (init addr) calls ↔
      Runs.AllSteps (step curChar) (Safe curChar) (init addr) calls :=
    Runs.allStates_iff_allSteps _ _
      (fun s call s' hinv hfresh hsafe hstep => step_inv hinv hfresh hsafe hstep)
      (fun s hinv => hinv.consistent)
      (fun s call hinv hfresh hrisky => step_breaks hinv hfresh hrisky) (inv_init addr) hfresh
  rw [hstates]
  constructor
  · exact And.left
  · intro h
    exact ⟨h, h.mono fun s call hsafe => failureKeeps_of_safe hsafe⟩

/-! ## Two runs on a server -/

/-- The file of a protocol of the clients' side with one argument of a type. -/
def callerInput (addr : ObjAddr) (type : String) : LoadInput where
  addr := addr
  path := some (cstr "proto/c_login.lua")
  file := .returned (some ⟨none, some [some ⟨cstr type, none⟩]⟩)
  forMaker := none

/-- The file of a protocol of the server's side, whose function is missing. -/
def makerInput (addr : ObjAddr) : LoadInput where
  addr := addr
  path := some (cstr "proto/s_buy_item.lua")
  file := .returned (some ⟨none, some []⟩)
  forMaker := some fun _ => false

/-- A protocol is added, then one whose function is missing: both calls are safe. -/
theorem consistent_iff_twoAdds :
    Runs.AllStates (step (cstr "server")) Consistent (init 0)
        [.add (callerInput 1 "number"), .add (makerInput 2)] ∧
      Runs.AllSteps (step (cstr "server")) (FailureKeeps (cstr "server")) (init 0)
        [.add (callerInput 1 "number"), .add (makerInput 2)] := by
  have hfresh : Runs.AllSteps (step (cstr "server")) Fresh (init 0)
      [.add (callerInput 1 "number"), .add (makerInput 2)] := by
    refine ⟨rfl, fun s' hs => ⟨?_, fun _ _ => trivial⟩⟩
    obtain rfl := Option.some.inj hs
    rfl
  refine (consistent_iff _ 0 _ hfresh).mpr ⟨fun _ => by decide, fun s' hs => ⟨fun h => ?_, fun _ _ => trivial⟩⟩
  exact absurd rfl h

/-- A protocol of an unknown argument type leaves its stub bound to an object that is
in no list. -/
theorem addProtocol_leaves_stub : ¬ ∀ (curChar : List UInt8) (addr : ObjAddr)
    (calls : List ManagerCall), Runs.AllSteps (step curChar) Fresh (init addr) calls →
    Runs.AllStates (step curChar) Consistent (init addr) calls := by
  intro h
  have hrisky : ¬ (init 0).Safe (cstr "server") (.add (callerInput 1 "nosuch")) := by
    intro hsafe
    exact hsafe nofun rfl
  obtain ⟨s', hstep, hnot⟩ := addProtocol_breaks hrisky
  exact hnot ((h (cstr "server") 0 [.add (callerInput 1 "nosuch")]
    ⟨rfl, fun _ _ => trivial⟩).2 s' hstep)

end ProtoManager

end Donkeyji.Mydb
