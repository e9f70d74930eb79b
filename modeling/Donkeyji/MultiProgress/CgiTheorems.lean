/-
Donkeyji.MultiProgress.CgiTheorems — whose response a CGI process writes.

A `conn` object is given to the next connection while the bufferevents of CGI
processes still point at it: `conn_reset` does not know of them. `Owned` says
that every process writes to the connection it was forked for. Only a deletion
can break it, and it does exactly if a process of the connection is still
registered (`owned_iff`).
-/
import Donkeyji.MultiProgress.Cgi
import Donkeyji.MultiProgress.ConnMgrTheorems

namespace Donkeyji.MultiProgress

open Runs SwapPool

variable {w w' : Worker} {s s' : Conns} {p : ConnPtr} {junk : Nat → UInt8} {bev : Bev}
  {buf : List UInt8}

/-- Every CGI process writes to the connection it was forked for. -/
def Owned (w : Worker) : Prop := ∀ cgi ∈ w.cgis, w.client cgi.arg = some cgi.conn

/-- The pool is in order, and the objects in use stand for connections. -/
structure Serves (w : Worker) : Prop where
  tidy : Tidy w.conns
  client : ∀ p, (w.client p).isSome ↔ w.conns.Active p

/-- The events are for bufferevents that are registered: those of connections in use, and those of
CGI processes. `bufferevent_new` returns no other one's address. -/
def EventOk (w : Worker) : WorkerAct → Prop
  | .accept _ _ => True
  | .request p _ answer _ _ => w.conns.Active p ∧ ∀ bev ∈ answer.bev, w.cgi bev = none
  | .cgiOutput bev _ => (w.cgi bev).isSome
  | .cgiExit bev => (w.cgi bev).isSome
  | .disconnect p => w.conns.Active p

/-- What a CGI process writes comes to the connection it was forked for, or nowhere. -/
def OutputRight (junk : Nat → UInt8) (w : Worker) : WorkerAct → Prop
  | .cgiOutput bev buf => ∀ cgi ∈ w.cgi bev, ∀ w' ∈ workerStep junk w (.cgiOutput bev buf),
      w'.written cgi.arg = w.written cgi.arg ∨ w.client cgi.arg = some cgi.conn
  | _ => True

/-- No connection is deleted while a CGI process that was forked for it is registered. -/
def NoneLeft (w : Worker) : WorkerAct → Prop
  | .disconnect p => ∀ cgi ∈ w.cgis, cgi.arg ≠ p
  | _ => True

instance (s : Conns) (p : ConnPtr) : Decidable (s.Active p) := by
  unfold Conns.Active SwapPool.Active
  infer_instance

instance (w : Worker) (a : WorkerAct) : Decidable (EventOk w a) := by
  unfold EventOk
  split <;> infer_instance

instance (junk : Nat → UInt8) (w : Worker) (a : WorkerAct) : Decidable (OutputRight junk w a) := by
  unfold OutputRight
  split <;> infer_instance

instance (w : Worker) (a : WorkerAct) : Decidable (NoneLeft w a) := by
  unfold NoneLeft
  split <;> infer_instance

/-! ## The pool -/

/-- Writing an object that keeps its index changes nothing in the pool. -/
theorem pool_set {c c' : Conn} (hc : s.heap p = some c) (hndx : c'.ndx = c.ndx) :
    (s.set p c').pool = s.pool := by
  have hsame : Function.update s.ndx p c'.ndx = s.ndx := by
    refine Function.update_eq_self_iff.mpr ?_
    simp [Conns.ndx, hc, hndx]
  simp only [Conns.pool, ndx_set, hsame, cm_set]

theorem Tidy.set (h : Tidy s) {c c' : Conn} (hc : s.heap p = some c) (hndx : c'.ndx = c.ndx) :
    Tidy (s.set p c') where
  ok := pool_set hc hndx ▸ h.ok
  size := h.size
  mem := fun q => (h.mem q).trans (isSome_heap_set hc c' q).symm
  fresh := fun q hq => h.fresh q ((isSome_heap_set hc c' q).mp hq)

/-- The object that is taken for a connection is the last one in use, and was in use before by
none. -/
theorem connMgrAddConn_last (h : Tidy s) {sock : Int} {bev : Option Bev}
    (hs : connMgrAddConn s sock bev = some s') :
    ∃ p, s'.cm.ptr[s'.cm.used - 1]? = some p ∧ ¬ s.Active p ∧
      ∀ q, s'.Active q ↔ s.Active q ∨ q = p := by
  obtain ⟨t, ht, -, p, hfree, hact, -⟩ := connMgrAddConn_spec h sock bev
  cases ht.symm.trans hs
  obtain ⟨htidy, -, hroom, -⟩ := ensureRoom_spec h
  obtain ⟨q, hq, hs⟩ := Option.bind_eq_some_iff.mp hs
  obtain ⟨c, -, hs⟩ := Option.bind_eq_some_iff.mp hs
  cases hs
  -- it is in use now and was not before, as the new one is
  have hnew : q = p := by
    have hin := (hact q).mp ⟨(ensureRoom s).cm.used, Nat.lt_succ_self _, hq⟩
    refine hin.resolve_left fun hold => ?_
    exact not_active_of_free htidy.ok hq ((hroom q).mpr hold)
  exact ⟨p, by rw [← hnew]; exact hq, hfree, hact⟩

/-! ## Steps -/

theorem serves_start : Serves workerStart :=
  ⟨tidy_poolStart, fun p => iff_of_false nofun fun hact => by
    obtain ⟨i, hi, -⟩ := hact
    cases hi⟩

theorem accept_serves (h : Serves w) {sock : Int} {bev : Option Bev}
    (hs : w.accept sock bev = some w') : Serves w' ∧ (Owned w → Owned w') := by
  obtain ⟨conns, hconns, hs⟩ := Option.bind_eq_some_iff.mp hs
  obtain ⟨p, hp, hs⟩ := Option.bind_eq_some_iff.mp hs
  cases hs
  obtain ⟨q, hq, hfree, hact⟩ := connMgrAddConn_last h.tidy hconns
  have hqp : q = p := Option.some.inj (hq.symm.trans hp)
  rw [hqp] at hfree hact
  refine ⟨⟨h.tidy.poolStep (a := .add sock bev) hconns, fun q => ?_⟩, fun howned cgi hcgi => ?_⟩
  · change (Function.update w.client p (some w.accepted) q).isSome ↔ conns.Active q
    rw [hact q, ← h.client q]
    by_cases hqp : q = p
    · simp [hqp]
    · simp [hqp]
  · -- a process of the object would be one of a connection in use
    have harg : cgi.arg ≠ p := by
      intro harg
      refine hfree ((h.client p).mp ?_)
      rw [← harg, howned cgi hcgi]
      rfl
    change Function.update w.client p (some w.accepted) cgi.arg = some cgi.conn
    rw [Function.update_of_ne harg]
    exact howned cgi hcgi

/-- What a request adds is a CGI process of the connection it came from. -/
theorem connParseRequest_cases {answer : ForkAnswer} (hs : w.connParseRequest p answer = some w') :
    w' = w ∨ ∃ bev k, w.client p = some k ∧ w' = { w with cgis := ⟨bev, p, k⟩ :: w.cgis } := by
  match answer with
  | .failed => exact .inl (Option.some.inj hs).symm
  | .forked none => cases hs
  | .forked (some bev) =>
    obtain ⟨k, hk, hs⟩ := Option.bind_eq_some_iff.mp hs
    exact .inr ⟨bev, k, hk, (Option.some.inj hs).symm⟩

/-- Writing the queues of an object. -/
theorem Serves.set (h : Serves w) {c c' : Conn} (hc : w.conns.heap p = some c)
    (hndx : c'.ndx = c.ndx) : Serves { w with conns := w.conns.set p c' } where
  tidy := h.tidy.set hc hndx
  client := fun q => by
    change (w.client q).isSome ↔ SwapPool.Active (w.conns.set p c').pool q
    rw [pool_set hc hndx]
    exact h.client q

theorem connHandleRead_serves (h : Serves w) {answer : ForkAnswer} {fuel : Nat} {ok : Nat → Bool}
    (hs : w.connHandleRead junk p buf answer fuel ok = some w') :
    Serves w' ∧ (Owned w → Owned w') := by
  unfold Worker.connHandleRead at hs
  split at hs
  · cases hs
    exact ⟨h, id⟩
  · obtain ⟨c, hc, hs⟩ := Option.bind_eq_some_iff.mp hs
    obtain ⟨readQ, -, hs⟩ := Option.bind_eq_some_iff.mp hs
    obtain ⟨w1, hw1, hs⟩ := Option.bind_eq_some_iff.mp hs
    obtain ⟨⟨writeQ, out⟩, -, hs⟩ := Option.bind_eq_some_iff.mp hs
    cases hs
    let c' : Conn := { c with readQ := chunkqueueRemoveFinishedChunks readQ, writeQ }
    have hset : Serves { w with conns := w.conns.set p c' } := h.set hc rfl
    rcases connParseRequest_cases hw1 with rfl | ⟨bev, k, hk, rfl⟩
    · exact ⟨hset, id⟩
    · refine ⟨⟨hset.tidy, hset.client⟩, fun howned cgi hcgi => ?_⟩
      rcases List.mem_cons.mp hcgi with rfl | hcgi
      · exact hk
      · exact howned cgi hcgi

theorem cgiHandleRead_serves (h : Serves w) (hs : w.cgiHandleRead junk bev buf = some w') :
    Serves w' ∧ (Owned w → Owned w') := by
  obtain ⟨cgi, -, hs⟩ := Option.bind_eq_some_iff.mp hs
  by_cases hbuf : buf = []
  · rw [if_pos hbuf] at hs
    cases hs
    exact ⟨h, id⟩
  · rw [if_neg hbuf] at hs
    obtain ⟨c, hc, hs⟩ := Option.bind_eq_some_iff.mp hs
    obtain ⟨writeQ, -, hs⟩ := Option.bind_eq_some_iff.mp hs
    cases hs
    exact ⟨h.set hc rfl, id⟩

theorem cgiHandleErr_serves (h : Serves w) (bev : Bev) :
    Serves (w.cgiHandleErr bev) ∧ (Owned w → Owned (w.cgiHandleErr bev)) :=
  ⟨⟨⟨h.tidy.ok, h.tidy.size, h.tidy.mem, h.tidy.fresh⟩, h.client⟩,
    fun howned cgi hcgi => howned cgi (List.mem_filter.mp hcgi).1⟩

/-- A deletion keeps the order if no process is left, and breaks it otherwise. -/
theorem connHandleErr_serves (h : Serves w) (hact : w.conns.Active p) :
    ∃ w', w.connHandleErr p = some w' ∧ Serves w' ∧
      (Owned w → (Owned w' ↔ NoneLeft w (.disconnect p))) := by
  obtain ⟨conns, hconns, htidy, hdel, -, -⟩ := connMgrDelConn_spec h.tidy hact
  refine ⟨{ w with conns, client := Function.update w.client p none }, ?_, ⟨htidy, ?_⟩, ?_⟩
  · simp [Worker.connHandleErr, hconns]
  · intro q
    change (Function.update w.client p none q).isSome ↔ conns.Active q
    rw [hdel q, ← h.client q]
    by_cases hqp : q = p
    · simp [hqp]
    · simp [hqp]
  · intro howned
    refine forall₂_congr fun cgi hcgi => ?_
    change Function.update w.client p none cgi.arg = some cgi.conn ↔ cgi.arg ≠ p
    by_cases harg : cgi.arg = p
    · simp [harg]
    · simp [harg, howned cgi hcgi]

/-- **One step.** -/
theorem workerStep_serves {a : WorkerAct} (h : Serves w) (hok : EventOk w a)
    (hs : workerStep junk w a = some w') : Serves w' ∧ (Owned w → NoneLeft w a → Owned w') := by
  cases a with
  | accept sock bev => exact (accept_serves h hs).imp_right fun himp howned _ => himp howned
  | request p buf answer fuel ok =>
    exact (connHandleRead_serves h hs).imp_right fun himp howned _ => himp howned
  | cgiOutput bev buf => exact (cgiHandleRead_serves h hs).imp_right fun himp howned _ => himp howned
  | cgiExit bev =>
    cases hs
    exact (cgiHandleErr_serves h bev).imp_right fun himp howned _ => himp howned
  | disconnect p =>
    obtain ⟨w1, hw1, hserves, hiff⟩ := connHandleErr_serves h hok
    cases hw1.symm.trans hs
    exact ⟨hserves, fun howned hnone => (hiff howned).mpr hnone⟩

/-! ## Runs -/

/-- **Exactly the deletions decide.** Every process writes to its own connection in every state of a
run exactly if no connection is deleted while one of its processes is registered. -/
theorem owned_iff (junk : Nat → UInt8) (acts : List WorkerAct)
    (hok : AllSteps (workerStep junk) EventOk workerStart acts) :
    AllStates (workerStep junk) Owned workerStart acts ↔
      AllSteps (workerStep junk) NoneLeft workerStart acts := by
  refine allStates_iff_allSteps (fun w => Serves w ∧ Owned w) EventOk ?_ (fun w h => h.2) ?_
    ⟨serves_start, nofun⟩ hok
  · intro w a w' h hadm hgood hs
    obtain ⟨hserves, howned⟩ := workerStep_serves h.1 hadm hs
    exact ⟨hserves, howned h.2 hgood⟩
  · intro w a h hadm hbad
    cases a with
    | disconnect p =>
      obtain ⟨w', hw', -, hiff⟩ := connHandleErr_serves h.1 hadm
      exact ⟨w', hw', fun howned => hbad ((hiff h.2).mp howned)⟩
    | accept | request | cgiOutput | cgiExit => exact absurd trivial hbad

/-- **Responses are not mixed.** In every run in which no connection is deleted while a CGI process
that was forked for it is registered, whatever a CGI process writes in any state comes to the
connection it was forked for. -/
theorem cgi_output_right (junk : Nat → UInt8) (acts : List WorkerAct)
    (hok : AllSteps (workerStep junk) EventOk workerStart acts)
    (hnone : AllSteps (workerStep junk) NoneLeft workerStart acts) :
    AllStates (workerStep junk) (fun w => ∀ a, OutputRight junk w a) workerStart acts := by
  refine ((owned_iff junk acts hok).mpr hnone).mono fun w howned a => ?_
  cases a with
  | cgiOutput bev buf =>
    intro cgi hcgi w' _
    exact .inr (howned cgi (List.mem_of_find?_eq_some hcgi))
  | accept | request | cgiExit | disconnect => trivial

/-- A connection makes a request, its CGI process writes `h` and exits, and the connection goes. -/
theorem cgi_output_right_visit :
    AllStates (workerStep fun _ => 0) (fun w => ∀ a, OutputRight (fun _ => 0) w a) workerStart
      [.accept 5 (some 100), .request 0 [63] (.forked (some 200)) 1 fun _ => true,
        .cgiOutput 200 [104], .cgiExit 200, .disconnect 0] :=
  cgi_output_right (fun _ => 0) _ (by decide +kernel) (by decide +kernel)

/-- **A response to a stranger.** A connection goes while its CGI process runs, the next one gets
its object, and then the process writes. -/
theorem cgi_output_to_stranger :
    let acts : List WorkerAct := [.accept 5 (some 100),
      .request 0 [63] (.forked (some 200)) 1 fun _ => true, .disconnect 0, .accept 6 (some 101),
      .cgiOutput 200 [104]]
    AllSteps (workerStep fun _ => 0) EventOk workerStart acts ∧
      ¬ AllSteps (workerStep fun _ => 0) (OutputRight fun _ => 0) workerStart acts := by
  decide +kernel

end Donkeyji.MultiProgress
