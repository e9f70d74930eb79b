/-
Donkeyji.Xy3.DrainTheorems — what an edge-triggered event leaves behind.

`dispatch` calls `accept` or `recv` once for an event. So the socket is
drained exactly if that call takes all that waits (`drained_iff`).
-/
import Donkeyji.Xy3.Readiness
import Donkeyji.Xy3.ServerTheorems

namespace Donkeyji.Xy3

open Runs Server

variable {w w' : Wired} {junk : Nat → UInt8} {fuel : Nat} {r : Ready}

/-! ## Marking closed -/

theorem tryRecv_state {c c' : Client} {answer : RecvAnswer}
    (h : c.tryRecv junk answer = some c') :
    c'.wbuf = c.wbuf ∧ (c'.state = 0 ↔ c.state = 0 ∨ answer.closes = true) := by
  match answer with
  | .ret [] | .fail .eintr | .fail .ewouldblock | .fail .einprogress | .fail (.other _) =>
    cases h
    simp [Client.doClose, RecvAnswer.closes]
  | .ret (b :: bs) =>
    obtain ⟨buf, -, hc'⟩ := Option.bind_eq_some_iff.mp h
    cases hc'
    simp [RecvAnswer.closes]

theorem trySend_state {c c' : Client} {answer : SendAnswer} {bytes : List UInt8}
    (h : c.trySend answer = some (bytes, c')) :
    c'.state = 0 ↔ c.state = 0 ∨ c.wbuf.getDataSize ≠ 0 ∧ answer.closes = true := by
  by_cases hempty : c.wbuf.getDataSize = 0
  · rw [Client.trySend, if_pos hempty] at h
    cases h
    simp [hempty]
  · rw [Client.trySend, if_neg hempty] at h
    obtain ⟨offered, -, h⟩ := Option.bind_eq_some_iff.mp h
    cases answer with
    | ret n =>
      cases h
      simp [SendAnswer.closes]
    | fail e =>
      cases e with
      | eintr | ewouldblock | einprogress | other _ =>
        cases h
        simp [Client.doClose, SendAnswer.closes, hempty]

/-! ## One event -/

theorem dispatchEvent_listenSock {s s' : Server} (hs : s.dispatchEvent junk fuel r = some s')
    (htable : Table s) (hreg : Registered s r.fd) : s'.listenSock = s.listenSock := by
  unfold dispatchEvent at hs
  split at hs
  · rcases dispatchListen_cases hs with rfl | ⟨pos, cc, -, -, -, rfl⟩ <;> rfl
  · rename_i hfd
    obtain ⟨pos, c, c1, bytes, c2, packs, rbuf, -, -, -, -, -, rfl⟩ :=
      dispatchConn_eq htable (hreg.resolve_left hfd) hs
    unfold dropClosed
    split <;> rfl

/-- The listening socket is drained exactly if its one call of `accept` took the only waiting
connection, or none waits. -/
theorem drained_listen (htable : Table w.server) (hfd : r.fd = w.server.listenSock)
    (haccept : 0 ≤ r.accepted → 1 ≤ w.backlog)
    (hstep : netStep junk w (.event fuel r) = some w') : Drained w' r ↔ OneCallDrains w r := by
  obtain ⟨s', hs', rfl⟩ := Option.map_eq_some_iff.mp hstep
  have hlisten := dispatchEvent_listenSock hs' htable (.inl hfd)
  simp only [Drained, OneCallDrains, hlisten, if_pos hfd, Wired.take]
  by_cases hgot : 0 ≤ r.accepted
  · have hsome := haccept hgot
    simp only [if_pos hgot]
    omega
  · simp only [if_neg hgot]

/-- Nothing is left exactly if all was taken and no FIN waits. -/
theorem after_eq_none {p : Pending} {answer : RecvAnswer} (h : RecvOk p answer) :
    ({ p with bytes := p.bytes.drop answer.bytes.length } : Pending) = .none ↔
      p = ⟨answer.bytes, false⟩ := by
  obtain ⟨bytes, fin⟩ := p
  have hfront : answer.bytes <+: bytes := by
    match answer with
    | .ret [] => exact List.nil_prefix
    | .ret (b :: bs) => exact h.1
    | .fail _ => exact List.nil_prefix
  obtain ⟨rest, rfl⟩ := hfront
  simp [Pending.none]

/-- A connection's socket is drained exactly if its one call of `recv` took all that waits, or the
client was closed or is found closed. -/
theorem drained_conn (htable : Table w.server) (hfd : r.fd ≠ w.server.listenSock)
    (hreg : (w.server.fpos r.fd).isSome) (hrecv : RecvOk (w.pending r.fd) r.recv)
    (hstep : netStep junk w (.event fuel r) = some w') : Drained w' r ↔ OneCallDrains w r := by
  obtain ⟨s', hs', rfl⟩ := Option.map_eq_some_iff.mp hstep
  have hlisten := dispatchEvent_listenSock hs' htable (.inr hreg)
  rw [dispatchEvent, if_neg hfd] at hs'
  obtain ⟨pos, c, c1, bytes, c2, packs, rbuf, hpos, hc, hsock, hc1, hc2, rfl⟩ :=
    dispatchConn_eq htable hreg hs'
  have hkey : Client.key { c2 with rbuf := rbuf } = c.key :=
    (trySend_key hc2).trans (tryRecv_key hc1)
  obtain ⟨hwbuf, hstate1⟩ := tryRecv_state hc1
  have hstate : c2.state = 0 ↔ c.ClosedBy r := by
    rw [trySend_state hc2, hstate1, hwbuf, Client.ClosedBy, or_assoc]
  obtain ⟨-, hget⟩ := htable.served hc hkey packs
  have hbefore : w.clientAt r.fd = some c := by simp [Wired.clientAt, hpos, hc]
  generalize hct : ({ c2 with rbuf := rbuf } : Client) = ct at hget hlisten
  have hctstate : ct.state = c2.state := by rw [← hct]
  generalize ht : w.server.served pos ct packs = t at hget hlisten
  have hfpos : t.fpos r.fd = some pos := by
    rw [← ht]
    exact hpos
  have hafter : (∀ d ∈ Wired.clientAt { w.take r with server := t.dropClosed r pos ct } r.fd,
      d.state = 0) ↔ c2.state = 0 := by
    unfold dropClosed
    split
    · rename_i hdropped
      refine iff_of_true ?_ (hctstate ▸ hdropped.1)
      simp [Wired.clientAt, push]
    · simp [Wired.clientAt, hfpos, hget, hctstate]
  have hpending : (w.take r).pending r.fd =
      { w.pending r.fd with bytes := (w.pending r.fd).bytes.drop r.recv.bytes.length } := by
    rw [Wired.take, if_neg hfd]
    exact Function.update_self _ _ _
  simp only [Drained, OneCallDrains, hlisten, if_neg hfd]
  refine or_congr ?_ (hafter.trans (hstate.trans ?_))
  · rw [hpending]
    exact after_eq_none hrecv
  · simp [hbefore]

/-! ## Runs -/

instance (p : Pending) (answer : RecvAnswer) : Decidable (RecvOk p answer) := by
  unfold RecvOk
  split <;> infer_instance

/-- The events are for registered sockets, the calls answer as the kernel does, and every call
returns. -/
def NetOk (junk : Nat → UInt8) (w : Wired) : NetAct → Prop
  | .event fuel r => Registered w.server r.fd ∧ AcceptFresh w.server r ∧
      (r.fd = w.server.listenSock → 0 ≤ r.accepted → 1 ≤ w.backlog) ∧
      RecvOk (w.pending r.fd) r.recv ∧ (netStep junk w (.event fuel r)).isSome
  | a => (netStep junk w a).isSome

/-- The handling of the event drains its socket. -/
def Right (junk : Nat → UInt8) (w : Wired) : NetAct → Prop
  | .event fuel r => ∀ w' ∈ netStep junk w (.event fuel r), Drained w' r
  | _ => True

instance (junk : Nat → UInt8) (w : Wired) (a : NetAct) : Decidable (NetOk junk w a) := by
  unfold NetOk
  split <;> infer_instance

instance (junk : Nat → UInt8) (w : Wired) (a : NetAct) : Decidable (Right junk w a) := by
  unfold Right
  split <;> infer_instance

/-- One call takes all. -/
def Good (w : Wired) : NetAct → Prop
  | .event _ r => OneCallDrains w r
  | _ => True

theorem right_iff_good (htable : Table w.server) (hok : NetOk junk w (.event fuel r)) :
    Right junk w (.event fuel r) ↔ Good w (.event fuel r) := by
  obtain ⟨hreg, -, haccept, hrecv, hreturns⟩ := hok
  obtain ⟨w', hstep⟩ := Option.isSome_iff_exists.mp hreturns
  have hone : Drained w' r ↔ OneCallDrains w r := by
    by_cases hfd : r.fd = w.server.listenSock
    · exact drained_listen htable hfd (haccept hfd) hstep
    · exact drained_conn htable hfd (hreg.resolve_left hfd) hrecv hstep
  simpa [Right, Good, hstep] using hone

/-- Every step keeps the table. -/
theorem netStep_table {a : NetAct} (htable : Table w.server) (hok : NetOk junk w a)
    (hstep : netStep junk w a = some w') : Table w'.server := by
  cases a with
  | arrive | finish | connect =>
    cases hstep
    exact htable
  | event fuel r =>
    obtain ⟨hreg, hfresh, -⟩ := hok
    obtain ⟨s', hs', rfl⟩ := Option.map_eq_some_iff.mp hstep
    exact (dispatchEvent_keeps htable hreg hfresh hs').1
  | doRead =>
    cases hstep
    exact serverStep_table junk (a := .doRead) htable trivial rfl
  | doSend hid data =>
    obtain ⟨s', hs', rfl⟩ := Option.map_eq_some_iff.mp hstep
    exact serverStep_table junk (a := .doSend hid data) htable trivial hs'
  | doBroadcast data =>
    obtain ⟨s', hs', rfl⟩ := Option.map_eq_some_iff.mp hstep
    exact serverStep_table junk (a := .doBroadcast data) htable trivial hs'

instance (w : Wired) (a : NetAct) : Decidable (Good w a) := by
  unfold Good
  split <;> infer_instance

/-- **When every event is drained.** In every run, whatever arrives, every handling of an event
leaves nothing behind exactly if at every event one call of `accept` or `recv` takes all that
waits, or the connection is closed already or found closed. -/
theorem drained_iff (junk : Nat → UInt8) (listenSock : Int) (addOk : Bool) (acts : List NetAct)
    (hok : AllSteps (netStep junk) (NetOk junk) (Wired.start listenSock addOk) acts) :
    AllSteps (netStep junk) (Right junk) (Wired.start listenSock addOk) acts ↔
      AllSteps (netStep junk) Good (Wired.start listenSock addOk) acts := by
  refine allSteps_iff_allSteps (fun w => Table w.server) (NetOk junk) ?_ ?_
    (table_startUp listenSock addOk) hok
  · intro w a htable hadm
    cases a with
    | event fuel r => exact right_iff_good htable hadm
    | arrive | finish | connect | doRead | doSend | doBroadcast => exact Iff.rfl
  · intro w a w' htable hadm _ hstep
    exact netStep_table htable hadm hstep

/-- A connection is accepted, sends the pack `ab` and goes after it was read. -/
theorem drained_iff_visit : AllSteps (netStep fun _ => 0) (Right fun _ => 0) (Wired.start 3 true)
    [.connect, .event 2 ⟨3, 5, true, .fail .ewouldblock, .ret 0, true⟩, .arrive 5 [2, 0, 97, 98],
      .event 2 ⟨5, -1, true, .ret [2, 0, 97, 98], .ret 0, true⟩, .finish 5,
      .event 2 ⟨5, -1, true, .ret [], .ret 0, true⟩] :=
  (drained_iff (fun _ => 0) 3 true _ (by decide +kernel)).mpr (by decide +kernel)

/-- **A FIN is left behind.** The pack and the FIN come before the event; `recv` gives the pack, and
the connection stays open with the FIN waiting. -/
theorem fin_left_behind :
    let acts : List NetAct := [.connect, .event 2 ⟨3, 5, true, .fail .ewouldblock, .ret 0, true⟩,
      .arrive 5 [2, 0, 97, 98], .finish 5,
      .event 2 ⟨5, -1, true, .ret [2, 0, 97, 98], .ret 0, true⟩]
    AllSteps (netStep fun _ => 0) (NetOk fun _ => 0) (Wired.start 3 true) acts ∧
      ¬ AllSteps (netStep fun _ => 0) (Right fun _ => 0) (Wired.start 3 true) acts := by
  decide +kernel

end Donkeyji.Xy3
