/-
Donkeyji.Mydb.ProgressTheorems — `unpack_data` makes progress.

Every protocol of the table has packers of argument types (`Typed`), so its
`unpack` takes no more bytes than there are. What is left is the header: a
buffer that ends in it gives 0.
-/
import Donkeyji.Lib.Runs
import Donkeyji.Mydb.BoundTheorems
import Donkeyji.Mydb.CheckIdTheorems
import Donkeyji.Mydb.HeaderTheorems

namespace Donkeyji.Mydb

variable (lua : Lua)

/-! ## The packers of the protocols -/

/-- `arglist_proc` finds packers of argument types only, also if it fails. -/
theorem arglistProc_trees : ∀ (descs : List (Option ArgDesc)) {reg : Registry},
    Registered lua reg → Registered lua (arglistProc reg descs).1 ∧
      ∀ a ∈ (arglistProc reg descs).2.1, IsTree a
  | [], reg, hreg => ⟨hreg, by simp [arglistProc]⟩
  | none :: _, reg, hreg => ⟨hreg, by simp [arglistProc]⟩
  | some desc :: descs, reg, hreg => by
      rw [arglistProc]
      cases hentry : arglistEntry reg desc with
      | error e => exact ⟨hreg, by simp⟩
      | ok r =>
        obtain ⟨reg1, arg⟩ := r
        obtain ⟨hreg1, harg⟩ := arglistEntry_type lua hreg hentry
        obtain ⟨hrest, hargs⟩ := arglistProc_trees descs hreg1
        refine ⟨hrest, ?_⟩
        intro a ha
        cases List.mem_cons.mp ha with
        | inl heq => exact heq ▸ harg
        | inr hmem => exact hargs a hmem

theorem argTypes_of_trees {P : NetProtocol} (h : ∀ a ∈ P.args, IsTree a) :
    ∃ ds, P.ArgTypes ds := by
  have hlist : ∀ args : List FcallArg, (∀ a ∈ args, IsTree a) →
      ∃ ds : List ArgTree, args = ds.map ArgTree.arg ∧ ∀ d ∈ ds, d.WF := by
    intro args
    induction args with
    | nil => exact fun _ => ⟨[], rfl, nofun⟩
    | cons a args ih =>
      intro hargs
      obtain ⟨d, hd, rfl⟩ := hargs a List.mem_cons_self
      obtain ⟨ds, rfl, hds⟩ := ih fun b hb => hargs b (List.mem_cons_of_mem _ hb)
      exact ⟨d :: ds, rfl, by simpa using ⟨hd, hds⟩⟩
  exact hlist P.args h

theorem load_trees (curChar : List UInt8) (inp : LoadInput) {l : Loading}
    (hreg : Registered lua l.reg) (hargs : ∀ a ∈ l.proto.args, IsTree a) :
    Registered lua (load curChar inp l).1.reg ∧
      ∀ a ∈ (load curChar inp l).1.proto.args, IsTree a := by
  have hargsProc : ∀ argList (l : Loading), Registered lua l.reg →
      (∀ a ∈ l.proto.args, IsTree a) →
      Registered lua (argsProc argList l).1.reg ∧
        ∀ a ∈ (argsProc argList l).1.proto.args, IsTree a := by
    intro argList l hreg hargs
    cases argList with
    | none => exact ⟨hreg, hargs⟩
    | some descs => exact arglistProc_trees lua descs hreg
  unfold load
  cases inp.path.bind (processType curChar) with
  | none => exact ⟨hreg, hargs⟩
  | some nm =>
    obtain ⟨name, isMaker⟩ := nm
    match inp.file with
    | .unread | .noChunk | .failed | .returned none => exact ⟨hreg, hargs⟩
    | .returned (some desc) =>
      simp only [convertProtocol, funcProc]
      cases isMaker with
      | false => exact hargsProc _ _ hreg hargs
      | true =>
        cases inp.forMaker with
        | none => exact ⟨hreg, hargs⟩
        | some funcs =>
          by_cases hfunc : funcs ((desc.funcName.map untilNul).getD name) = true
          · simp only [hfunc, if_true]
            exact hargsProc _ _ hreg hargs
          · simp only [hfunc]
            exact ⟨hreg, hargs⟩

namespace ProtoManager

variable {curChar : List UInt8} {s s' : ProtoManager}

/-- The packers are registered, and the protocols have packers of argument types. -/
structure Typed (s : ProtoManager) : Prop where
  ids : s.Ids
  reg : Registered lua s.reg
  args : ∀ addr P, s.heap addr = some P → ∀ a ∈ P.args, IsTree a

/-- The objects after a call are old ones or hold what was loaded. -/
theorem args_update {P : NetProtocol} {heap : ObjAddr → Option NetProtocol}
    (hheap : ∀ addr P, heap addr = some P → ∀ a ∈ P.args, IsTree a) {addr : ObjAddr}
    {o : Option NetProtocol}
    (ho : ∀ P, o = some P → ∀ a ∈ P.args, IsTree a) {b : ObjAddr}
    (h : Function.update heap addr o b = some P) : ∀ a ∈ P.args, IsTree a := by
  by_cases hb : b = addr
  · subst hb
    rw [Function.update_self] at h
    exact ho P h
  · rw [Function.update_of_ne hb] at h
    exact hheap b P h

theorem typed_init (addr : ObjAddr) : Typed lua (init addr) where
  ids := ids_init addr
  reg := .init
  args := by
    intro b P h
    have hnone : ∀ (addr : ObjAddr) (P : NetProtocol), (none : Option NetProtocol) = some P →
        ∀ a ∈ P.args, IsTree a := nofun
    refine args_update hnone ?_ h
    intro Q hQ
    cases hQ
    exact nofun

theorem Typed.step {call : ManagerCall} (h : Typed lua s) (hfresh : s.Fresh call)
    (hstep : step curChar s call = some s') : Typed lua s' := by
  have hids := step_ids h.ids hfresh hstep
  have hload := fun inp id =>
    load_trees lua curChar inp (l := s.loading id) h.reg (fun a ha => by cases ha)
  have hsome : ∀ {Q : NetProtocol}, (∀ a ∈ Q.args, IsTree a) →
      ∀ P, some Q = some P → ∀ a ∈ P.args, IsTree a := by
    intro Q hQ P hP
    cases hP
    exact hQ
  cases call with
  | add inp =>
    obtain ⟨hreg, hargs⟩ := hload inp s.protos.length
    simp only [ProtoManager.step, addProtocol] at hstep
    cases hl : load curChar inp (s.loading s.protos.length) with
    | mk l raised =>
      rw [hl] at hstep hreg hargs
      cases raised with
      | none =>
        cases hstep
        exact ⟨hids, hreg, fun b P => args_update h.args (hsome hargs)⟩
      | some r =>
        cases r with
        | crash => cases hstep
        | raise | protoError =>
          cases hstep
          exact ⟨hids, hreg, fun b P => args_update h.args (hsome hargs)⟩
  | update id inp =>
    simp only [ProtoManager.step, updateProtocol] at hstep
    cases id with
    | none =>
      cases hstep
      exact h
    | some id =>
      cases hold : s.protos[id]? with
      | none =>
        simp only [hold] at hstep
        cases hstep
        exact h
      | some old =>
        obtain ⟨hreg, hargs⟩ := hload inp id
        cases hl : load curChar inp (s.loading id) with
        | mk l raised =>
          rw [hl] at hreg hargs
          cases raised with
          | none =>
            simp only [hold, hl] at hstep
            cases hstep
            exact ⟨hids, hreg, fun b P =>
              args_update (fun b P => args_update h.args (hsome hargs)) (fun P hP => by cases hP)⟩
          | some r =>
            simp only [hold, hl] at hstep
            cases r with
            | crash => cases hstep
            | protoError =>
              cases hstep
              exact ⟨hids, hreg, fun b P => args_update h.args (fun P hP => by cases hP)⟩
            | raise =>
              cases hstep
              exact ⟨hids, hreg, fun b P => args_update h.args (hsome hargs)⟩

theorem Typed.scriptStep {call : ScriptCall} (h : Typed lua s) (hfresh : s.ScriptFresh call)
    (hstep : scriptStep lua curChar s call = some s') : Typed lua s' := by
  cases call with
  | protocol call => exact h.step lua hfresh hstep
  | tableArgs desc =>
    cases hstep
    refine ⟨h.ids, ?_, h.args⟩
    cases htable : fcallTableArg lua s.reg desc with
    | none => simpa using h.reg
    | some a => exact .addTable h.reg htable

/-! ## Progress -/

/-- The result is an error, or some bytes of the buffer have been taken. -/
def Progress (s : ProtoManager) (callee : NetProtocol → Option LuaValue)
    (callOk : LuaStack → Bool) (L : LuaStack) (buf : List UInt8) (ext : Int) : Prop :=
  ∃ n L', s.unpackData callee callOk L buf ext = some (n, L') ∧
    (n < 0 ∨ (1 ≤ n ∧ n ≤ buf.length))

theorem unpackCall_bounds {P : NetProtocol} (hargs : ∀ a ∈ P.args, IsTree a)
    (callee : Option LuaValue) (callOk : LuaStack → Bool) (L : LuaStack) (buf : List UInt8)
    (ext : Int) : ∃ n L', P.unpackCall callee callOk L buf ext = some (n, L') ∧ n ≤ buf.length := by
  have herror : (-1 : Int) ≤ buf.length := by omega
  unfold NetProtocol.unpackCall
  cases callee with
  | none => exact ⟨_, _, rfl, herror⟩
  | some callee =>
    obtain ⟨ds, hds⟩ := argTypes_of_trees hargs
    simp only [unpack_eq hds, Option.bind_eq_bind, Option.pure_def]
    cases hdec : (argFields ds 1).decode buf fun _ => .nil with
    | none => exact ⟨_, _, rfl, herror⟩
    | some r =>
      obtain ⟨t, n⟩ := r
      have hle := ((argFields ds 1).local_decode fun _ => .nil).le hdec
      have hneg : ¬ ((n : Int) < 0) := by omega
      simp only [Option.bind_some, if_neg hneg]
      refine ⟨_, _, rfl, ?_⟩
      split
      · omega
      · exact Int.le_trans (by decide) herror

theorem readHeader_bounds {buf : List UInt8} {id k : Nat} (h : readHeader buf = some (id, k)) :
    1 ≤ k ∧ k ≤ buf.length := by
  cases buf with
  | nil => cases h
  | cons b rest =>
    simp only [readHeader] at h
    split at h
    · split at h
      · cases h
      · cases h
        omega
    · cases h
      simp

/-- The header is read exactly if it is there. -/
theorem readHeader_eq_none {buf : List UInt8} :
    readHeader buf = none ↔ ¬ (buf ≠ [] ∧ (buf.head? = some 0 → 3 ≤ buf.length)) := by
  cases buf with
  | nil => simp [readHeader]
  | cons b rest =>
    by_cases hb : b = 0
    · subst hb
      by_cases hlen : (0 :: rest).length < 3
      · rw [readHeader, if_pos rfl, if_pos hlen]
        simp at hlen ⊢
        omega
      · rw [readHeader, if_pos rfl, if_neg hlen]
        simp at hlen ⊢
        omega
    · simp [readHeader, hb]

/-- Behind a header at least one byte is taken, or there is an error. -/
theorem Typed.progress_of_header {lua : Lua} (h : Typed lua s) {buf : List UInt8} {id k : Nat}
    (hheader : readHeader buf = some (id, k)) (callee : NetProtocol → Option LuaValue)
    (callOk : LuaStack → Bool) (L : LuaStack) (ext : Int) :
    s.Progress callee callOk L buf ext := by
  obtain ⟨hpos, hle⟩ := readHeader_bounds hheader
  simp only [Progress, unpackData, hheader]
  by_cases hid : id ≥ s.protos.length
  · rw [if_pos hid]
    exact ⟨_, _, rfl, .inl (by decide)⟩
  · rw [if_neg hid]
    obtain ⟨P, hP⟩ := h.ids.protoAt_lt (Nat.lt_of_not_le hid)
    obtain ⟨addr, -, haddr⟩ := Option.bind_eq_some_iff.mp hP
    obtain ⟨n, L', hcall, hn⟩ := unpackCall_bounds (h.args addr P haddr) (callee P) callOk L
      (buf.drop k) ext
    rw [List.length_drop] at hn
    simp only [hP, Option.bind_eq_bind, Option.bind_some, hcall, Option.pure_def]
    by_cases hneg : n < 0
    · rw [if_pos hneg]
      exact ⟨_, _, rfl, .inl hneg⟩
    · rw [if_neg hneg]
      split
      · exact ⟨_, _, rfl, .inl (by decide)⟩
      · exact ⟨_, _, rfl, .inr (by omega)⟩

/-- **When `unpack_data` makes progress.** In the table after any run, for every buffer and
whatever the script function does, the result is an error or a number of bytes from 1 to the
length of the buffer exactly if the buffer holds the whole header. -/
theorem unpackData_progress_iff (curChar : List UInt8) (addr : ObjAddr) (calls : List ScriptCall)
    (hfresh : Runs.AllSteps (ProtoManager.scriptStep lua curChar) ScriptFresh (init addr) calls)
    (s : ProtoManager) (hrun : Runs.run (ProtoManager.scriptStep lua curChar) (init addr) calls = some s)
    (callee : NetProtocol → Option LuaValue) (callOk : LuaStack → Bool) (L : LuaStack)
    (buf : List UInt8) (ext : Int) :
    s.Progress callee callOk L buf ext ↔ buf ≠ [] ∧ (buf.head? = some 0 → 3 ≤ buf.length) := by
  have htyped : Typed lua s :=
    (Runs.allStates_of_allSteps (fun _ _ _ h hfresh hstep => h.scriptStep lua hfresh hstep)
      (typed_init lua addr) hfresh).last hrun
  cases hheader : readHeader buf with
  | none =>
    have hzero : s.unpackData callee callOk L buf ext = some (0, L) := by
      rw [unpackData, hheader]
    refine iff_of_false ?_ (readHeader_eq_none.mp hheader)
    intro h
    obtain ⟨n, L', hn, hbounds⟩ := h
    cases hzero.symm.trans hn
    omega
  | some r =>
    obtain ⟨id, k⟩ := r
    refine iff_of_true ?_ ?_
    · exact htyped.progress_of_header hheader callee callOk L ext
    · by_contra hcond
      cases (readHeader_eq_none.mpr hcond).symm.trans hheader

/-- One protocol without arguments, and a message that is its id. -/
theorem unpackData_progress_iff_ping : ∃ s,
    Runs.run (ProtoManager.scriptStep Lua.x86 (cstr "server")) (init 0)
      [.protocol (.add (pingInput 1))] = some s ∧
    s.Progress (fun _ => some .nil) (fun _ => true) [] [1] 0 := by
  refine ⟨_, rfl, ?_⟩
  refine (unpackData_progress_iff Lua.x86 (cstr "server") 0 [.protocol (.add (pingInput 1))] ?_ _ rfl
    (fun _ => some .nil) (fun _ => true) [] [1] 0).mpr (by decide)
  exact ⟨init_free 1 (by decide), fun _ _ => trivial⟩

/-- **A cut header reads as nothing.** Two bytes of a header of three give 0. -/
theorem cut_header_gives_zero :
    (init 0).unpackData (fun _ => some .nil) (fun _ => true) [] [0, 1] 0 = some (0, []) ∧
      ¬ (init 0).Progress (fun _ => some .nil) (fun _ => true) [] [0, 1] 0 := by
  have hzero : (init 0).unpackData (fun _ => some .nil) (fun _ => true) [] [0, 1] 0 =
      some (0, []) := rfl
  refine ⟨hzero, ?_⟩
  intro h
  obtain ⟨n, L', hn, hbounds⟩ := h
  cases hzero.symm.trans hn
  omega

end ProtoManager

end Donkeyji.Mydb
