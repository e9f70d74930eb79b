/-
Donkeyji.Mydb.TwoEndsTheorems — a client and a server that load the same
protocol files.

Both ends count the ids themselves and keep their own packers, so that a message
of one end means the same at the other is nowhere checked when it is read. It
follows from the two scripts: if they load the same files and table types in the
same order and nothing fails, the tables agree (`Paired`), of every protocol one
end is the maker and the other the caller, and what one end marshals the other
unpacks.
-/
import Donkeyji.Mydb.ProgressTheorems
import Donkeyji.Mydb.Send
import Donkeyji.Mydb.SendTheorems

namespace Donkeyji.Mydb

open Memory Runs

/-- The ends are given the same file. Their objects and the functions of their scripts differ. -/
def SameFile (a b : LoadInput) : Prop := a.path = b.path ∧ a.file = b.file

/-- The scripts make the same call. -/
def SameCall : ProtoManager.ScriptCall → ProtoManager.ScriptCall → Prop
  | .protocol (.add a), .protocol (.add b) => SameFile a b
  | .protocol (.update id a), .protocol (.update id' b) => id = id' ∧ SameFile a b
  | .tableArgs desc, .tableArgs desc' => desc = desc'
  | _, _ => False

/-- A file that the call loads is loaded without a failure. -/
def ProtoManager.Loads (curChar : List UInt8) (s : ProtoManager) : ScriptCall → Prop
  | .protocol (.add inp) => (load curChar inp (s.loading s.protos.length)).2 = none
  | .protocol (.update id inp) =>
    ∀ i ∈ id, i < s.protos.length → (load curChar inp (s.loading i)).2 = none
  | .tableArgs _ => True

/-- Two protocol objects for the same messages: one end makes what the other calls. -/
structure NetProtocol.Pairs (P Q : NetProtocol) : Prop where
  args : P.args = Q.args
  name : P.packFuncName = Q.packFuncName
  maker : Q.isMaker = !P.isMaker

/-! ## One file -/

/-- The name is taken from the path in the same way at both ends. -/
theorem processType_name (path : List UInt8) : ∃ o : Option (List UInt8), ∀ curChar,
    processType curChar path = o.bind fun name =>
      if name.take 2 = cstr "c_" then some (name, decide (curChar = cstr "client"))
      else if name.take 2 = cstr "s_" then some (name, decide (curChar = cstr "server"))
      else none := by
  unfold processType
  cases findLastOf 47 path with
  | none => exact ⟨none, fun _ => rfl⟩
  | some beginPos =>
    cases findLastOf 46 path with
    | none => exact ⟨some _, fun _ => rfl⟩
    | some endPos =>
      by_cases hle : beginPos ≥ endPos
      · exact ⟨none, fun _ => by simp [hle]⟩
      · exact ⟨some ((path.drop (beginPos + 1)).take (endPos - (beginPos + 1))), fun _ => by
          simp [hle]⟩

/-- Only one of the ends is the maker. -/
theorem processType_pairs {path name name' : List UInt8} {maker maker' : Bool}
    (h : processType (cstr "client") path = some (name, maker))
    (h' : processType (cstr "server") path = some (name', maker')) :
    name = name' ∧ maker' = !maker := by
  obtain ⟨o, ho⟩ := processType_name path
  rw [ho] at h h'
  obtain ⟨n, hn, h⟩ := Option.bind_eq_some_iff.mp h
  obtain ⟨n', hn', h'⟩ := Option.bind_eq_some_iff.mp h'
  cases hn.symm.trans hn'
  by_cases hc : n.take 2 = cstr "c_"
  · rw [if_pos hc] at h h'
    cases h
    cases h'
    exact ⟨rfl, by decide⟩
  · rw [if_neg hc] at h h'
    by_cases hs : n.take 2 = cstr "s_"
    · rw [if_pos hs] at h h'
      cases h
      cases h'
      exact ⟨rfl, by decide⟩
    · rw [if_neg hs] at h
      cases h

/-- What is left of a load after the function has been looked up or the stub bound. -/
theorem argsProc_ok {argList : Option (List (Option ArgDesc))} {l : Loading}
    (h : (argsProc argList l).2 = none) :
    ∃ descs, argList = some descs ∧ (argsProc argList l).1.reg = (arglistProc l.reg descs).1 ∧
      (argsProc argList l).1.proto =
        { l.proto with args := (arglistProc l.reg descs).2.1 } := by
  cases argList with
  | none => cases h
  | some descs => exact ⟨descs, rfl, rfl, rfl⟩

/-- **What a load without a failure does.** -/
theorem load_ok {curChar : List UInt8} {inp : LoadInput} {l : Loading}
    (h : (load curChar inp l).2 = none) :
    ∃ name maker funcName argList, inp.path.bind (processType curChar) = some (name, maker) ∧
      inp.file = .returned (some ⟨funcName, some argList⟩) ∧
      (load curChar inp l).1.reg = (arglistProc l.reg argList).1 ∧
      (load curChar inp l).1.proto = { l.proto with
        packFuncName := (funcName.map untilNul).getD name
        isMaker := maker
        args := (arglistProc l.reg argList).2.1 } := by
  obtain ⟨addr, path, file, forMaker⟩ := inp
  unfold load at h ⊢
  dsimp only at h ⊢
  cases hname : path.bind (processType curChar) with
  | none =>
    rw [hname] at h
    cases h
  | some nm =>
    obtain ⟨name, maker⟩ := nm
    simp only [hname] at h ⊢
    match file with
    | .unread | .noChunk | .failed | .returned none => cases h
    | .returned (some ⟨funcName, argList⟩) =>
      simp only [convertProtocol, funcProc] at h ⊢
      cases maker with
      | false =>
        simp only [Bool.false_eq_true, if_false] at h ⊢
        obtain ⟨descs, rfl, hreg, hproto⟩ := argsProc_ok h
        exact ⟨name, false, funcName, descs, rfl, rfl, hreg, hproto⟩
      | true =>
        simp only [if_true] at h ⊢
        cases forMaker with
        | none => cases h
        | some funcs =>
          by_cases hfunc : funcs ((funcName.map untilNul).getD name) = true
          · simp only [hfunc, if_true] at h ⊢
            obtain ⟨descs, rfl, hreg, hproto⟩ := argsProc_ok h
            exact ⟨name, true, funcName, descs, rfl, rfl, hreg, hproto⟩
          · simp [hfunc] at h

/-- Loads of the same file over the same packers make a pair, and keep the packers the same. -/
theorem load_pairs {a b : LoadInput} (hsame : SameFile a b) {l l' : Loading} (hreg : l.reg = l'.reg)
    (h : (load (cstr "client") a l).2 = none) (h' : (load (cstr "server") b l').2 = none) :
    (load (cstr "client") a l).1.reg = (load (cstr "server") b l').1.reg ∧
      (load (cstr "client") a l).1.proto.Pairs (load (cstr "server") b l').1.proto := by
  obtain ⟨name, maker, funcName, argList, hname, hfile, hr, hp⟩ := load_ok h
  obtain ⟨name', maker', funcName', argList', hname', hfile', hr', hp'⟩ := load_ok h'
  rw [← hsame.1] at hname'
  rw [← hsame.2, hfile] at hfile'
  cases hfile'
  obtain ⟨path, hpath, hname⟩ := Option.bind_eq_some_iff.mp hname
  obtain ⟨path', hpath', hname'⟩ := Option.bind_eq_some_iff.mp hname'
  cases hpath.symm.trans hpath'
  obtain ⟨rfl, rfl⟩ := processType_pairs hname hname'
  rw [hr, hr', hp, hp', hreg]
  exact ⟨rfl, rfl, rfl, rfl⟩

namespace ProtoManager

/-! ## The tables -/

variable {s s' t t' : ProtoManager}

/-- The table after a successful `add_protocol`. -/
theorem Ids.protoAt_added (hids : s.Ids) {addr : ObjAddr} (hfresh : s.heap addr = none)
    {P : NetProtocol} (hheap : s'.heap = Function.update s.heap addr (some P))
    (hprotos : s'.protos = s.protos ++ [addr]) (i : Nat) :
    s'.protoAt i = if i = s.protos.length then some P else s.protoAt i := by
  rw [protoAt, protoAt, hheap, hprotos]
  by_cases hi : i = s.protos.length
  · rw [if_pos hi, hi, List.getElem?_concat_length, Option.bind_some, Function.update_self]
  · rw [if_neg hi]
    by_cases hlt : i < s.protos.length
    · rw [List.getElem?_append_left hlt, List.getElem?_eq_getElem hlt]
      refine Function.update_of_ne ?_ _ _
      exact hids.ne_of_proto hfresh (List.getElem?_eq_getElem hlt)
    · rw [List.getElem?_eq_none (by rw [List.length_append, List.length_singleton]; omega),
        List.getElem?_eq_none (by omega)]
      rfl

/-- The table after a successful `update_protocol`. -/
theorem Ids.protoAt_replaced (hids : s.Ids) {addr old : ObjAddr} (hfresh : s.heap addr = none)
    {id : Nat} (hold : s.protos[id]? = some old) {P : NetProtocol}
    (hheap : s'.heap = Function.update (Function.update s.heap addr (some P)) old none)
    (hprotos : s'.protos = s.protos.set id addr) (i : Nat) :
    s'.protoAt i = if i = id then some P else s.protoAt i := by
  have hne : addr ≠ old := (hids.ne_of_proto hfresh hold).symm
  rw [protoAt, protoAt, hheap, hprotos]
  by_cases hi : i = id
  · rw [if_pos hi, hi, List.getElem?_set_self (List.getElem?_eq_some_iff.mp hold).1, Option.bind_some,
      Function.update_of_ne hne, Function.update_self]
  · rw [if_neg hi, List.getElem?_set_ne (Ne.symm hi)]
    cases ha : s.protos[i]? with
    | none => rfl
    | some a =>
      -- the object at another id is another one
      have haold : a ≠ old := by
        rintro rfl
        obtain ⟨P', hP', hid'⟩ := hids i a ha
        obtain ⟨P'', hP'', hid''⟩ := hids id a hold
        cases hP'.symm.trans hP''
        exact hi (hid'.symm.trans hid'')
      rw [Option.bind_some, Option.bind_some, Function.update_of_ne haold,
        Function.update_of_ne (hids.ne_of_proto hfresh ha)]

/-- **The tables agree**: the packers are the same, and behind the default protocol every id has a
pair of protocols. -/
structure Paired (lua : Lua) (s t : ProtoManager) : Prop where
  typed : Typed lua s
  typed' : Typed lua t
  reg : s.reg = t.reg
  length : s.protos.length = t.protos.length
  pairs : ∀ id P Q, 1 ≤ id → s.protoAt id = some P → t.protoAt id = some Q → P.Pairs Q

theorem paired_init (lua : Lua) (a b : ObjAddr) : Paired lua (init a) (init b) where
  typed := typed_init lua a
  typed' := typed_init lua b
  reg := rfl
  length := rfl
  pairs := by
    intro id P Q hid hP
    have hnone : (init a).protos[id]? = none := by
      rw [List.getElem?_eq_none]
      exact hid
    rw [protoAt, hnone] at hP
    cases hP

/-- What a call that loads its file does to the table. -/
theorem add_ok {curChar : List UInt8} {inp : LoadInput}
    (h : (load curChar inp (s.loading s.protos.length)).2 = none) :
    step curChar s (.add inp) = some {
      heap := Function.update s.heap inp.addr
        (some (load curChar inp (s.loading s.protos.length)).1.proto)
      protos := s.protos ++ [inp.addr]
      forCaller := (load curChar inp (s.loading s.protos.length)).1.forCaller
      reg := (load curChar inp (s.loading s.protos.length)).1.reg } := by
  simp only [step, addProtocol]
  cases hl : load curChar inp (s.loading s.protos.length) with
  | mk l fail =>
    rw [hl] at h
    cases h
    rfl

theorem update_ok {curChar : List UInt8} {inp : LoadInput} {id : Nat} {old : ObjAddr}
    (hold : s.protos[id]? = some old) (h : (load curChar inp (s.loading id)).2 = none) :
    step curChar s (.update (some id) inp) =
      some (replaced s inp (load curChar inp (s.loading id)).1 id old) := by
  simp only [step, updateProtocol, hold]
  cases hl : load curChar inp (s.loading id) with
  | mk l fail =>
    rw [hl] at h
    cases h
    rfl

/-- Both tables get a protocol at the same id. -/
theorem Paired.put {lua : Lua} (h : Paired lua s t) (htyped : Typed lua s')
    (htyped' : Typed lua t') (hreg : s'.reg = t'.reg)
    (hlength : s'.protos.length = t'.protos.length) {k : Nat}
    {P Q : NetProtocol} (hP : ∀ id, s'.protoAt id = if id = k then some P else s.protoAt id)
    (hQ : ∀ id, t'.protoAt id = if id = k then some Q else t.protoAt id) (hpairs : P.Pairs Q) :
    Paired lua s' t' := by
  refine ⟨htyped, htyped', hreg, hlength, fun id P' Q' hid hP' hQ' => ?_⟩
  rw [hP] at hP'
  rw [hQ] at hQ'
  by_cases hk : id = k
  · rw [if_pos hk] at hP' hQ'
    cases hP'
    cases hQ'
    exact hpairs
  · rw [if_neg hk] at hP' hQ'
    exact h.pairs id P' Q' hid hP' hQ'

/-- **One call** that succeeds at both ends keeps the tables in agreement. -/
theorem Paired.step {lua : Lua} (h : Paired lua s t) {a b : ScriptCall} (hsame : SameCall a b)
    (hs : s.ScriptFresh a ∧ s.Loads (cstr "client") a)
    (ht : t.ScriptFresh b ∧ t.Loads (cstr "server") b)
    (hstep : scriptStep lua (cstr "client") s a = some s')
    (hstep' : scriptStep lua (cstr "server") t b = some t') : Paired lua s' t' := by
  have htyped := h.typed.scriptStep lua hs.1 hstep
  have htyped' := h.typed'.scriptStep lua ht.1 hstep'
  match a, b with
  | .protocol (.add a), .protocol (.add b) =>
    obtain ⟨hfresh, hload⟩ := hs
    obtain ⟨hfresh', hload'⟩ := ht
    have hreg : (s.loading s.protos.length).reg = (t.loading t.protos.length).reg := h.reg
    obtain ⟨hreg', hpairs⟩ := load_pairs hsame hreg hload hload'
    cases (add_ok hload).symm.trans hstep
    cases (add_ok hload').symm.trans hstep'
    refine h.put htyped htyped' hreg' (by simp [h.length])
      (h.typed.ids.protoAt_added hfresh rfl rfl) (fun id => ?_) hpairs
    rw [h.length]
    exact h.typed'.ids.protoAt_added hfresh' rfl rfl id
  | .protocol (.update id a), .protocol (.update id' b) =>
    obtain ⟨rfl, hfile⟩ := hsame
    obtain ⟨hfresh, hload⟩ := hs
    obtain ⟨hfresh', hload'⟩ := ht
    cases id with
    | none =>
      cases hstep
      cases hstep'
      exact h
    | some i =>
      by_cases hi : i < s.protos.length
      · have hi' : i < t.protos.length := h.length ▸ hi
        have hold := List.getElem?_eq_getElem hi
        have hold' := List.getElem?_eq_getElem hi'
        have hreg : (s.loading i).reg = (t.loading i).reg := h.reg
        obtain ⟨hreg', hpairs⟩ := load_pairs hfile hreg (hload i rfl hi) (hload' i rfl hi')
        cases (update_ok hold (hload i rfl hi)).symm.trans hstep
        cases (update_ok hold' (hload' i rfl hi')).symm.trans hstep'
        exact h.put htyped htyped' hreg' (by simp [replaced, h.length])
          (h.typed.ids.protoAt_replaced hfresh hold rfl rfl)
          (h.typed'.ids.protoAt_replaced hfresh' hold' rfl rfl) hpairs
      · -- neither end has the id
        have hnone := List.getElem?_eq_none (Nat.le_of_not_lt hi)
        have hnone' := List.getElem?_eq_none (Nat.le_of_not_lt (h.length ▸ hi))
        simp only [scriptStep, ProtoManager.step, updateProtocol, hnone] at hstep
        simp only [scriptStep, ProtoManager.step, updateProtocol, hnone'] at hstep'
        cases hstep
        cases hstep'
        exact h
  | .tableArgs desc, .tableArgs desc' =>
    cases hsame
    cases hstep
    cases hstep'
    exact ⟨htyped, htyped', by rw [h.reg], h.length, h.pairs⟩

/-- Both scripts make the same calls, and none of them fails. -/
structure SameScripts (lua : Lua) (a b : ObjAddr) (as bs : List ScriptCall) (s t : ProtoManager) :
    Prop where
  same : List.Forall₂ SameCall as bs
  ok : AllSteps (scriptStep lua (cstr "client"))
    (fun s call => s.ScriptFresh call ∧ s.Loads (cstr "client") call) (init a) as
  ok' : AllSteps (scriptStep lua (cstr "server"))
    (fun t call => t.ScriptFresh call ∧ t.Loads (cstr "server") call) (init b) bs
  client : run (scriptStep lua (cstr "client")) (init a) as = some s
  server : run (scriptStep lua (cstr "server")) (init b) bs = some t

theorem SameScripts.paired {lua : Lua} {a b : ObjAddr} {as bs : List ScriptCall}
    (h : SameScripts lua a b as bs s t) : Paired lua s t :=
  related_of_runs (fun _ _ _ _ _ _ h hsame hs ht hstep hstep' => h.step hsame hs ht hstep hstep')
    h.same (paired_init lua a b) h.ok h.ok' h.client h.server

/-- **The same files give the same tables.** After any two scripts that make the same calls without
a failure, the tables are equally long, and every protocol of the client stands at the same id in
the server's table, with the same id, name, packers and check id, and exactly one end is its
maker. -/
theorem same_files_same_tables (lua : Lua) (a b : ObjAddr) (as bs : List ScriptCall)
    (s t : ProtoManager) (h : SameScripts lua a b as bs s t) :
    s.protos.length = t.protos.length ∧ ∀ id P, 1 ≤ id → s.protoAt id = some P →
      ∃ Q, t.protoAt id = some Q ∧ Q.id = P.id ∧ P.Pairs Q ∧ Q.getCheckId = P.getCheckId := by
  have hpaired := h.paired
  refine ⟨hpaired.length, fun id P hid hP => ?_⟩
  obtain ⟨addr, haddr, -⟩ := Option.bind_eq_some_iff.mp hP
  have hlt := (List.getElem?_eq_some_iff.mp haddr).1
  obtain ⟨Q, hQ⟩ := hpaired.typed'.ids.protoAt_lt (hpaired.length ▸ hlt)
  have hpairs := hpaired.pairs id P Q hid hP hQ
  refine ⟨Q, hQ, ?_, hpairs, ?_⟩
  · rw [hpaired.typed.ids.protoAt_id hP, hpaired.typed'.ids.protoAt_id hQ]
  · rw [NetProtocol.getCheckId, NetProtocol.getCheckId, NetProtocol.checkIdString,
      NetProtocol.checkIdString, hpairs.args, hpairs.name]

/-- The client's side of `callerInput`: its script has the function. -/
def clientInput (addr : ObjAddr) (type : String) : LoadInput :=
  { callerInput addr type with forMaker := some fun _ => true }

/-- Both ends load a protocol with one number. -/
theorem sameScripts_login : ∃ s t,
    SameScripts .x86 0 0 [.protocol (.add (clientInput 1 "number"))]
      [.protocol (.add (callerInput 1 "number"))] s t ∧
      s.protoAt 1 = some ⟨cstr "c_login", [ArgTree.number.arg], 1, true⟩ := by
  refine ⟨_, _, ⟨.cons ⟨rfl, rfl⟩ .nil, ⟨⟨rfl, rfl⟩, fun _ _ => trivial⟩,
    ⟨⟨rfl, rfl⟩, fun _ _ => trivial⟩, rfl, rfl⟩, rfl⟩

theorem same_files_same_tables_login : ∃ s t : ProtoManager, s.protos.length = t.protos.length := by
  obtain ⟨s, t, h, -⟩ := sameScripts_login
  exact ⟨s, t, (same_files_same_tables .x86 0 0 _ _ s t h).1⟩

/-! ## Messages -/

/-- Every argument takes at least a byte. -/
theorem args_eq_nil_of_encode {lua : Lua} {ds : List ArgTree} {get : LuaKey → LuaValue}
    {bufLen : Int} (h : (argFields ds 1).encode lua get bufLen = .ok []) : ds = [] := by
  cases ds with
  | nil => rfl
  | cons d ds =>
    obtain ⟨b1, b2, h1, -, happend⟩ := Enc.seq_ok h
    obtain ⟨-, n, hn⟩ := Enc.nonempty_ok h1
    have hlen := congrArg List.length happend
    rw [List.length_append, hn, List.length_nil] at hlen
    omega

/-- **What `unpack_data` does with a message.** It reads all of it and no more, and calls the
function of the script with what the encoder was given. -/
theorem unpackData_message {lua : Lua} {P Q : NetProtocol} {ds : List ArgTree} (hds : P.ArgTypes ds)
    (hargs : P.args = Q.args) (hid : 1 ≤ P.id) (hlt : P.id < 65536) (hQ : t.protoAt P.id = some Q)
    {L L' : LuaStack} (hdom : (argFields ds 1).InDomain (stackArgs L)) {n : Int} {out : List UInt8}
    (hmarshal : P.marshal lua L maxToNetd = .ret n out L') (extra : List UInt8)
    (callee : NetProtocol → Option LuaValue) {f : LuaValue} (hf : callee Q = some f)
    (callOk : LuaStack → Bool) (M : LuaStack) (ext : Int) :
    ∃ v, (argFields ds 1).Agrees (stackArgs L) v ∧
      t.unpackData callee callOk M (out ++ extra) ext =
        some (if callOk (argValues v ds.length 1 ++ .ofInt ext :: f :: M) then (out.length : Int)
          else xynetErrorUnpackScript, M) := by
  have hQds : Q.ArgTypes ds := ⟨hargs ▸ hds.1, hds.2⟩
  obtain ⟨addr, haddr, -⟩ := Option.bind_eq_some_iff.mp hQ
  have hin : ¬ P.id ≥ t.protos.length := Nat.not_le.mpr (List.getElem?_eq_some_iff.mp haddr).1
  -- the bytes behind the header
  obtain ⟨bytes, henc, rfl⟩ : ∃ bytes, (argFields ds 1).encode lua (stackArgs L)
      (maxToNetd - P.header.length) = .ok bytes ∧ out = P.header ++ bytes := by
    rw [marshal_eq lua hds (by omega)] at hmarshal
    split at hmarshal
    · rename_i bytes henc
      cases hmarshal
      exact ⟨bytes, henc, rfl⟩
    · cases hmarshal
    · cases hmarshal
  obtain ⟨v, hdec, hagree, -⟩ := (argFields ds 1).decode_encode lua (argFields_wf hds.2) (stackArgs L)
    _ bytes extra (fun _ => .nil) (by unfold maxToNetd; omega) hdom henc
  have hheader := (NetProtocol.headerSurvives_iff (P := P) (by omega)).mpr hlt (bytes ++ extra)
  have hcall : Q.unpackCall (some f) callOk M (bytes ++ extra) ext =
      some (if callOk (argValues v ds.length 1 ++ .ofInt ext :: f :: M) then (bytes.length : Int)
        else xynetErrorUnpackScript, M) := by
    have hsettop : settop M.length (argValues v ds.length 1 ++ .ofInt ext :: f :: M) = M :=
      settop_of_suffix ⟨argValues v ds.length 1 ++ [.ofInt ext, f], by simp⟩
    have hnot : ¬ ((bytes.length : Int) < 0) := by omega
    simp only [NetProtocol.unpackCall, unpack_eq hQds, hdec, Option.bind_eq_bind, Option.bind_some,
      if_neg hnot, hsettop, Option.pure_def]
  refine ⟨v, hagree, ?_⟩
  rw [List.append_assoc, unpackData, hheader]
  simp only [if_neg hin, hQ, hf, Option.bind_eq_bind, Option.bind_some, List.drop_left, hcall,
    Option.pure_def]
  by_cases hok : callOk (argValues v ds.length 1 ++ .ofInt ext :: f :: M) = true
  · have hnot : ¬ ((bytes.length : Int) < 0) := by omega
    have hsome : bytes = [] → Q.args = [] := by
      rintro rfl
      rw [hQds.1, args_eq_nil_of_encode henc]
      rfl
    simp only [hok, if_true, if_neg hnot, Int.natCast_eq_zero, List.length_eq_zero_iff]
    rw [if_neg fun hand => hand.2 (hsome hand.1), List.length_append, Int.natCast_add]
  · simp [hok, xynetErrorUnpackScript]

/-- What the end `s` marshals, the end `t` unpacks: all of it and no more, whatever follows, with a
call of the function of the script with equal arguments behind the connection. -/
def MessagesArrive (lua : Lua) (s t : ProtoManager) : Prop :=
  ∀ id P, 1 ≤ id → id < 65536 → s.protoAt id = some P → ∃ Q, t.protoAt id = some Q ∧
    (∃ ds, P.ArgTypes ds) ∧ ∀ ds, P.ArgTypes ds → ∀ L n out L',
      (argFields ds 1).InDomain (stackArgs L) → P.marshal lua L maxToNetd = .ret n out L' →
        n = out.length ∧ ∀ extra callee f callOk M ext, callee Q = some f →
          ∃ v, (argFields ds 1).Agrees (stackArgs L) v ∧
            t.unpackData callee callOk M (out ++ extra) ext =
              some (if callOk (argValues v ds.length 1 ++ .ofInt ext :: f :: M)
                then (out.length : Int) else xynetErrorUnpackScript, M)

/-- Messages arrive at an end that has the same packers at every id. -/
theorem messagesArrive_of_args {lua : Lua} (hs : Typed lua s)
    (h : ∀ id P, 1 ≤ id → s.protoAt id = some P → ∃ Q, t.protoAt id = some Q ∧ P.args = Q.args) :
    MessagesArrive lua s t := by
  intro id P hid hlt hP
  obtain ⟨Q, hQ, hargs⟩ := h id P hid hP
  obtain ⟨addr, -, haddr⟩ := Option.bind_eq_some_iff.mp hP
  have hPid := hs.ids.protoAt_id hP
  subst hPid
  refine ⟨Q, hQ, argTypes_of_trees (hs.args addr P haddr), fun ds hds L n out L' hdom hmarshal =>
    ⟨(marshal_ret hds hmarshal).1, ?_⟩⟩
  intro extra callee f callOk M ext hf
  exact unpackData_message hds hargs hid hlt hQ hdom hmarshal extra callee hf callOk M ext

end ProtoManager

end Donkeyji.Mydb
