/-
Donkeyji.Xy3.ServerTheorems — the table of the server.

`Table` is the invariant: the counter, the slots, the map from sockets and the
log of the queue agree. It depends on what a slot's client is known by, its
socket and its slot (`Client.key`), so receiving and sending keep it. A
connection that is accepted opens a session of its slot, one that is removed
closes it.
-/
import Donkeyji.Lib.Sessions
import Donkeyji.Xy3.Server

namespace Donkeyji.Xy3

open Runs Sessions

/-- What a client is known by. -/
def Client.key (c : Client) : Int × Nat := (c.sock, c.hid)

namespace Server

/-- The slot has a client. -/
def live (s : Server) (pos : Nat) : Bool := (s.clients[pos]?.getD none).isSome

/-- The events of one connection. -/
def session : Alphabet NetKind := ⟨.netNew, .netData, .netLeave⟩

/-- The events that were ever queued, with their slots. -/
def log (s : Server) : List (Nat × NetKind) := s.pushed.map fun e => (e.hid, e.event)

/-- The counter, the slots, `_fpos` and the queue agree. -/
structure Table (s : Server) : Prop where
  length : s.clients.length = maxEpollSize
  count : s.count = s.clients.countP (·.isSome)
  slot : ∀ pos c, s.clients[pos]? = some (some c) → c.hid = pos ∧ s.fpos c.sock = some pos
  fpos : ∀ fd pos, s.fpos fd = some pos → ∃ c, s.clients[pos]? = some (some c) ∧ c.sock = fd
  sessions : Logs session s.log s.live

variable {s s' : Server} {junk : Nat → UInt8} {fuel : Nat} {r : Ready}

/-- No two sockets lead to one slot. -/
theorem Table.inj (h : Table s) {fd fd' : Int} {pos : Nat} (hfd : s.fpos fd = some pos)
    (hfd' : s.fpos fd' = some pos) : fd = fd' := by
  obtain ⟨c, hc, rfl⟩ := h.fpos fd pos hfd
  obtain ⟨c', hc', rfl⟩ := h.fpos fd' pos hfd'
  rw [hc] at hc'
  cases hc'
  rfl

/-! ## What clients are known by -/

/-- What the clients of the slots are known by. -/
def keys (cs : List (Option Client)) : List (Option (Int × Nat)) := cs.map (Option.map Client.key)

theorem keys_get {cs : List (Option Client)} {pos : Nat} :
    (keys cs)[pos]? = cs[pos]?.map (Option.map Client.key) := List.getElem?_map

/-- A slot of the same key. -/
theorem slot_of_keys {cs cs' : List (Option Client)} (h : keys cs' = keys cs) {pos : Nat} {c' : Client}
    (hc' : cs'[pos]? = some (some c')) : ∃ c, cs[pos]? = some (some c) ∧ c.key = c'.key := by
  have hget : (keys cs')[pos]? = (keys cs)[pos]? := by rw [h]
  rw [keys_get, keys_get, hc'] at hget
  obtain ⟨o, ho, hkey⟩ := Option.map_eq_some_iff.mp hget.symm
  obtain ⟨c, rfl, hc⟩ := Option.map_eq_some_iff.mp hkey
  exact ⟨c, ho, hc⟩

/-- The table depends on the clients only through their keys. -/
theorem Table.congr (h : Table s) (hkeys : keys s'.clients = keys s.clients)
    (hcount : s'.count = s.count) (hfpos : s'.fpos = s.fpos) (hpushed : s'.pushed = s.pushed) :
    Table s' := by
  have hsome : ∀ cs : List (Option Client), cs.map Option.isSome = (keys cs).map Option.isSome := by
    intro cs
    simp [keys, Function.comp_def]
  have hisSome : s'.clients.map Option.isSome = s.clients.map Option.isSome := by
    rw [hsome, hsome, hkeys]
  have hlive : s'.live = s.live := by
    funext pos
    have hget : (s'.clients.map Option.isSome)[pos]? = (s.clients.map Option.isSome)[pos]? := by
      rw [hisSome]
    simp only [List.getElem?_map] at hget
    unfold live
    cases hc' : s'.clients[pos]? <;> cases hc : s.clients[pos]? <;> simp_all
  refine ⟨?_, ?_, ?_, ?_, ?_⟩
  · have hlen := congrArg List.length hkeys
    simp only [keys, List.length_map] at hlen
    exact hlen.trans h.length
  · have hcountP : ∀ cs : List (Option Client),
        cs.countP (·.isSome) = (cs.map Option.isSome).countP id := by
      intro cs
      rw [List.countP_map]
      rfl
    rw [hcount, h.count, hcountP, hcountP, hisSome]
  · intro pos c' hc'
    obtain ⟨c, hc, hkey⟩ := slot_of_keys hkeys hc'
    obtain ⟨hsock, hhid⟩ := Prod.mk.inj hkey
    rw [hfpos, ← hsock, ← hhid]
    exact h.slot pos c hc
  · intro fd pos hfd
    rw [hfpos] at hfd
    obtain ⟨c, hc, hsock⟩ := h.fpos fd pos hfd
    obtain ⟨c', hc', hkey⟩ := slot_of_keys hkeys.symm hc
    exact ⟨c', hc', (Prod.mk.inj hkey).1.trans hsock⟩
  · rw [Server.log, hpushed, hlive]
    exact h.sessions

theorem keys_set {cs : List (Option Client)} {pos : Nat} {c c' : Client}
    (hc : cs[pos]? = some (some c)) (hkey : c'.key = c.key) :
    keys (cs.set pos (some c')) = keys cs := by
  obtain ⟨hlt, hget⟩ := List.getElem?_eq_some_iff.mp hc
  have hmap : (some c').map Client.key = (keys cs).get ⟨pos, by simpa [keys] using hlt⟩ := by
    simp [keys, hget, hkey]
  rw [keys, List.map_set, hmap]
  exact List.set_getElem_self _

theorem tryRecv_key {c c' : Client} {answer : RecvAnswer} (h : c.tryRecv junk answer = some c') :
    c'.key = c.key := by
  match answer with
  | .ret [] | .fail .eintr | .fail .ewouldblock | .fail .einprogress | .fail (.other _) =>
    cases h
    rfl
  | .ret (b :: bs) =>
    obtain ⟨buf, -, hc'⟩ := Option.bind_eq_some_iff.mp h
    cases hc'
    rfl

theorem trySend_key {c c' : Client} {answer : SendAnswer} {bytes : List UInt8}
    (h : c.trySend answer = some (bytes, c')) : c'.key = c.key := by
  by_cases hempty : c.wbuf.getDataSize = 0
  · rw [Client.trySend, if_pos hempty] at h
    cases h
    rfl
  · rw [Client.trySend, if_neg hempty] at h
    obtain ⟨offered, -, h⟩ := Option.bind_eq_some_iff.mp h
    match answer with
    | .ret n | .fail .eintr | .fail .ewouldblock | .fail .einprogress | .fail (.other _) =>
      cases h
      rfl

theorem doSend_key {c c' : Client} {data : List UInt8} {res : Int}
    (h : c.doSend data = some (res, c')) : c'.key = c.key := by
  unfold Client.doSend at h
  obtain ⟨buf, -, hc'⟩ := Option.bind_eq_some_iff.mp h
  cases hc'
  rfl

/-- What `doSend` does: nothing, or a client gets a pack. -/
theorem doSend_cases {vfd : Int} {data : List UInt8} (hs : s.doSend vfd data = some s') :
    s' = s ∨ ∃ c res c', s.clients[vfd.toNat]? = some (some c) ∧ c.doSend data = some (res, c') ∧
      s' = { s with clients := s.clients.set vfd.toNat (some c') } := by
  unfold doSend at hs
  split at hs
  · exact .inl (Option.some.inj hs).symm
  · obtain ⟨o, ho, hs⟩ := Option.bind_eq_some_iff.mp hs
    cases o with
    | none => exact .inl (Option.some.inj hs).symm
    | some c =>
      obtain ⟨⟨res, c'⟩, hc', hs⟩ := Option.bind_eq_some_iff.mp hs
      exact .inr ⟨c, res, c', ho, hc', (Option.some.inj hs).symm⟩

/-- `doSend` to a slot with a client. -/
theorem doSend_slot {hid : Int} {c : Client} (hin : ¬ (hid < 0 ∨ hid > 1024))
    (hc : s.clients[hid.toNat]? = some (some c)) {data : List UInt8} :
    s.doSend hid data =
      (c.doSend data).map fun r => { s with clients := s.clients.set hid.toNat (some r.2) } := by
  rw [doSend, if_neg hin, hc, Option.bind_eq_bind, Option.bind_some]
  cases hsent : c.doSend data with
  | none =>
    simp only [hsent]
    rfl
  | some r =>
    simp only [hsent]
    rfl

theorem broadcastLoop_keys {data : List UInt8} {cs cs' : List (Option Client)}
    (h : broadcastLoop data cs = some cs') : keys cs' = keys cs := by
  induction cs generalizing cs' with
  | nil =>
    cases h
    rfl
  | cons o cs ih =>
    cases o with
    | none =>
      rw [broadcastLoop] at h
      obtain ⟨cs1, h1, rfl⟩ := Option.map_eq_some_iff.mp h
      simpa [keys] using ih h1
    | some c =>
      simp only [broadcastLoop, Option.bind_eq_bind, Option.bind_eq_some_iff, Option.pure_def,
        Option.some.injEq, Prod.exists] at h
      obtain ⟨res, c', hc', cs1, h1, rfl⟩ := h
      simpa [keys, doSend_key hc'] using ih h1

/-! ## Opening and closing -/

/-- A slot that is written changes in this only. -/
theorem live_set {pos : Nat} {o : Option Client} (hlt : pos < s.clients.length)
    (hclients : s'.clients = s.clients.set pos o) :
    s'.live = Function.update s.live pos o.isSome := by
  funext i
  by_cases hi : i = pos
  · subst hi
    simp [live, hclients, List.getElem?_set_self hlt]
  · simp [live, hclients, List.getElem?_set_ne (Ne.symm hi), hi]

/-- The server after a client was given a slot. -/
def admitted (s : Server) (pos : Nat) (c : Client) : Server :=
  push
    { s with
      clients := s.clients.set pos (some c)
      count := s.count + 1
      fpos := Function.update s.fpos c.sock (some pos)
      fdCnt := s.fdCnt + 1 }
    [⟨.netNew, pos, []⟩]

theorem Table.admitted (h : Table s) {pos : Nat} {c : Client} (hfree : s.clients[pos]? = some none)
    (hhid : c.hid = pos) (hfd : s.fpos c.sock = none) : Table (s.admitted pos c) := by
  obtain ⟨hlt, hget⟩ := List.getElem?_eq_some_iff.mp hfree
  have hself : (s.clients.set pos (some c))[pos]? = some (some c) := List.getElem?_set_self hlt
  have hother : ∀ i, i ≠ pos → (s.clients.set pos (some c))[i]? = s.clients[i]? :=
    fun i hi => List.getElem?_set_ne hi.symm
  refine ⟨?_, ?_, ?_, ?_, ?_⟩
  · exact List.length_set.trans h.length
  · have hcount := h.count
    simp only [Server.admitted, push, List.countP_set hlt, hget]
    simp
    omega
  · intro i d hd
    by_cases hi : i = pos
    · subst hi
      cases hself.symm.trans hd
      exact ⟨hhid, Function.update_self _ _ _⟩
    · change (s.clients.set pos (some c))[i]? = some (some d) at hd
      rw [hother i hi] at hd
      obtain ⟨hhid', hfpos⟩ := h.slot i d hd
      refine ⟨hhid', (Function.update_of_ne ?_ _ _).trans hfpos⟩
      intro hsock
      rw [hsock, hfd] at hfpos
      cases hfpos
  · intro fd i hi
    change Function.update s.fpos c.sock (some pos) fd = some i at hi
    by_cases hfd' : fd = c.sock
    · subst hfd'
      rw [Function.update_self] at hi
      cases hi
      exact ⟨c, hself, rfl⟩
    · rw [Function.update_of_ne hfd'] at hi
      obtain ⟨d, hd, hsock⟩ := h.fpos fd i hi
      have hne : i ≠ pos := by
        intro hi'
        rw [hi', hfree] at hd
        cases hd
      exact ⟨d, (hother i hne).trans hd, hsock⟩
  · have hdead : s.live pos = false := by simp [live, hfree]
    have hnext := h.sessions.start hdead
    rw [live_set hlt (o := some c) rfl]
    simpa [Server.log, Server.admitted, push, session] using hnext

theorem Table.data (h : Table s) (pos : Nat) (hlive : s.live pos = true)
    (packs : List (List UInt8)) : Table (s.push (packs.map (Event.ofPack pos))) := by
  refine ⟨h.length, h.count, h.slot, h.fpos, ?_⟩
  have hnext := h.sessions.items hlive packs.length
  have hlog : (s.push (packs.map (Event.ofPack pos))).log =
      s.log ++ List.replicate packs.length (pos, NetKind.netData) := by
    simp [Server.log, push, Event.ofPack, Function.comp_def, List.map_const']
  rw [hlog]
  exact hnext

theorem Table.closed (h : Table s) {pos : Nat} {c : Client} (hc : s.clients[pos]? = some (some c))
    (hs' : s' = push
      { s with
        clients := s.clients.set pos none
        count := s.count - 1
        fpos := Function.update s.fpos c.sock none
        fdCnt := s.fdCnt - 1 }
      [⟨.netLeave, c.hid, []⟩]) : Table s' := by
  subst hs'
  obtain ⟨hlt, hget⟩ := List.getElem?_eq_some_iff.mp hc
  obtain ⟨hhid, hsock⟩ := h.slot pos c hc
  have hself : (s.clients.set pos none)[pos]? = some none := List.getElem?_set_self hlt
  have hother : ∀ i, i ≠ pos → (s.clients.set pos none)[i]? = s.clients[i]? :=
    fun i hi => List.getElem?_set_ne hi.symm
  refine ⟨?_, ?_, ?_, ?_, ?_⟩
  · exact List.length_set.trans h.length
  · have hcount := h.count
    have hpos : 0 < s.clients.countP (·.isSome) :=
      List.countP_pos_iff.mpr ⟨some c, List.mem_of_getElem? hc, rfl⟩
    simp only [push, List.countP_set hlt, hget]
    simp
    omega
  · intro i d hd
    change (s.clients.set pos none)[i]? = some (some d) at hd
    have hi : i ≠ pos := by
      intro hi
      rw [hi, hself] at hd
      cases hd
    rw [hother i hi] at hd
    obtain ⟨hhid', hfpos⟩ := h.slot i d hd
    refine ⟨hhid', (Function.update_of_ne ?_ _ _).trans hfpos⟩
    intro heq
    rw [heq, hsock] at hfpos
    exact hi (Option.some.inj hfpos).symm
  · intro fd i hi
    change Function.update s.fpos c.sock none fd = some i at hi
    by_cases hfd : fd = c.sock
    · subst hfd
      rw [Function.update_self] at hi
      cases hi
    · rw [Function.update_of_ne hfd] at hi
      obtain ⟨d, hd, hdsock⟩ := h.fpos fd i hi
      have hne : i ≠ pos := by
        intro heq
        rw [heq, hc] at hd
        cases hd
        exact hfd hdsock.symm
      exact ⟨d, (hother i hne).trans hd, hdsock⟩
  · have hlive : s.live pos = true := by simp [live, hc]
    have hnext := h.sessions.stop hlive
    rw [live_set hlt (o := none) rfl]
    simpa [Server.log, push, session, hhid] using hnext

/-! ## One event -/

/-- The socket is registered with epoll. -/
def Registered (s : Server) (fd : Int) : Prop := fd = s.listenSock ∨ (s.fpos fd).isSome

/-- `accept` returns no socket that is open. -/
def AcceptFresh (s : Server) (r : Ready) : Prop :=
  r.fd = s.listenSock → 0 ≤ r.accepted → s.fpos r.accepted = none

instance (s : Server) (fd : Int) : Decidable (Registered s fd) := by
  unfold Registered
  infer_instance

instance (s : Server) (r : Ready) : Decidable (AcceptFresh s r) := by
  unfold AcceptFresh
  infer_instance

/-- What the handling of one event keeps: the table, and the registration of the other
sockets. -/
def Keeps (fd : Int) (s s' : Server) : Prop :=
  Table s' ∧ ∀ fd', fd' ≠ fd → Registered s fd' → Registered s' fd'

/-- The slot that is found is empty. -/
theorem freePos_spec {pos : Nat} (h : s.freePos = some pos) : s.clients[pos]? = some none := by
  obtain ⟨hlt, hnone, -⟩ := List.findIdx?_eq_some_iff_getElem.mp h
  rw [List.getElem?_eq_getElem hlt]
  exact congrArg some (Option.isNone_iff_eq_none.mp hnone)

/-- **What the handling of the listening socket's event does**: nothing, or a new client is given
the first empty slot. -/
theorem dispatchListen_cases (hs : s.dispatchListen junk r = some s') :
    s' = s ∨ ∃ pos cc, s.clients[pos]? = some none ∧ 0 ≤ r.accepted ∧ Client.new junk = some cc ∧
      s' = s.admitted pos { cc.assign r.accepted with hid := pos } := by
  unfold dispatchListen at hs
  by_cases hneg : r.accepted < 0
  · rw [if_pos hneg] at hs
    exact .inl (Option.some.inj hs).symm
  by_cases hfull : s.count ≥ maxEpollSize
  · rw [if_neg hneg, if_pos hfull] at hs
    exact .inl (Option.some.inj hs).symm
  rw [if_neg hneg, if_neg hfull] at hs
  cases hfree : s.freePos with
  | none =>
    rw [hfree] at hs
    exact .inl (Option.some.inj hs).symm
  | some pos =>
    simp only [hfree] at hs
    split at hs
    · obtain ⟨cc, hcc, hs⟩ := Option.bind_eq_some_iff.mp hs
      exact .inr ⟨pos, cc, freePos_spec hfree, by omega, hcc, (Option.some.inj hs).symm⟩
    · exact .inl (Option.some.inj hs).symm

theorem dispatchListen_keeps (h : Table s) (hfd : r.fd = s.listenSock) (hfresh : AcceptFresh s r)
    (hs : s.dispatchListen junk r = some s') : Keeps r.fd s s' := by
  rcases dispatchListen_cases hs with rfl | ⟨pos, cc, hfree, hgot, -, rfl⟩
  · exact ⟨h, fun _ _ hreg => hreg⟩
  · refine ⟨h.admitted hfree rfl (hfresh hfd hgot), fun fd' hfd' hreg => ?_⟩
    refine hreg.imp_right fun hsome => ?_
    change (Function.update s.fpos r.accepted (some pos) fd').isSome
    by_cases heq : fd' = r.accepted
    · rw [heq, Function.update_self]
      rfl
    · rwa [Function.update_of_ne heq]

/-- The server after the packs of a client were queued. -/
def served (s : Server) (pos : Nat) (ct : Client) (packs : List (List UInt8)) : Server :=
  push { s with clients := s.clients.set pos (some ct) } (packs.map (Event.ofPack ct.hid))

/-- **What the handling of a connection's event does**: its client receives once, sends once and
gives its packs, and is dropped if it is closed. -/
theorem dispatchConn_eq (h : Table s) (hreg : (s.fpos r.fd).isSome)
    (hs : s.dispatchConn junk fuel r = some s') :
    ∃ pos c c1 bytes c2 packs rbuf, s.fpos r.fd = some pos ∧ s.clients[pos]? = some (some c) ∧
      c.sock = r.fd ∧ c.tryRecv junk r.recv = some c1 ∧ c1.trySend r.send = some (bytes, c2) ∧
      s' = (s.served pos { c2 with rbuf := rbuf } packs).dropClosed r pos { c2 with rbuf := rbuf } := by
  obtain ⟨pos, hpos⟩ := Option.isSome_iff_exists.mp hreg
  obtain ⟨c, hc, hsock⟩ := h.fpos r.fd pos hpos
  have hsame : Function.update s.fpos r.fd (some pos) = s.fpos :=
    Function.update_eq_self_iff.mpr hpos.symm
  simp only [dispatchConn, hpos, Option.getD_some, hsame, hc, Option.bind_eq_bind,
    Option.bind_some] at hs
  obtain ⟨c1, hrecv, hs⟩ := Option.bind_eq_some_iff.mp hs
  obtain ⟨⟨bytes, c2⟩, hsend, hs⟩ := Option.bind_eq_some_iff.mp hs
  obtain ⟨⟨packs, rbuf⟩, -, hs⟩ := Option.bind_eq_some_iff.mp hs
  exact ⟨pos, c, c1, bytes, c2, packs, rbuf, hpos, hc, hsock, hrecv, hsend, (Option.some.inj hs).symm⟩

theorem Table.served (h : Table s) {pos : Nat} {c ct : Client}
    (hc : s.clients[pos]? = some (some c)) (hkey : ct.key = c.key) (packs : List (List UInt8)) :
    Table (s.served pos ct packs) ∧ (s.served pos ct packs).clients[pos]? = some (some ct) := by
  have hlt : pos < s.clients.length := (List.getElem?_eq_some_iff.mp hc).1
  have hget : (s.clients.set pos (some ct))[pos]? = some (some ct) := List.getElem?_set_self hlt
  have hset : Table { s with clients := s.clients.set pos (some ct) } :=
    h.congr (keys_set hc hkey) rfl rfl rfl
  have hhid : ct.hid = pos := (Prod.mk.inj hkey).2.trans (h.slot pos c hc).1
  have hdata := hset.data pos (by simp [live, hget]) packs
  have hpacks : Event.ofPack pos = Event.ofPack ct.hid := by rw [hhid]
  rw [hpacks] at hdata
  exact ⟨hdata, hget⟩

theorem dropClosed_keeps (h : Table s) {pos : Nat} {ct : Client}
    (hct : s.clients[pos]? = some (some ct)) (hsock : ct.sock = r.fd) :
    Keeps r.fd s (s.dropClosed r pos ct) := by
  unfold dropClosed
  split
  · refine ⟨h.closed hct (by rw [hsock]), fun fd' hfd' hreg => ?_⟩
    refine hreg.imp_right fun hsome => ?_
    change (Function.update s.fpos r.fd none fd').isSome
    rwa [Function.update_of_ne hfd']
  · exact ⟨h, fun _ _ hreg => hreg⟩

theorem dispatchConn_keeps (h : Table s) (hreg : (s.fpos r.fd).isSome)
    (hs : s.dispatchConn junk fuel r = some s') : Keeps r.fd s s' := by
  obtain ⟨pos, c, c1, bytes, c2, packs, rbuf, -, hc, hsock, hrecv, hsend, rfl⟩ :=
    dispatchConn_eq h hreg hs
  -- the client is known by its socket and slot all the way
  have hkey : Client.key { c2 with rbuf := rbuf } = c.key :=
    (trySend_key hsend).trans (tryRecv_key hrecv)
  obtain ⟨htable, hget⟩ := h.served hc hkey packs
  exact dropClosed_keeps htable hget ((Prod.mk.inj hkey).1.trans hsock)

theorem dispatchEvent_keeps (h : Table s) (hreg : Registered s r.fd) (hfresh : AcceptFresh s r)
    (hs : s.dispatchEvent junk fuel r = some s') : Keeps r.fd s s' := by
  unfold dispatchEvent at hs
  split at hs
  · rename_i hfd
    exact dispatchListen_keeps h hfd hfresh hs
  · rename_i hfd
    exact dispatchConn_keeps h (hreg.resolve_left hfd) hs

/-! ## Runs -/

/-- The events of a batch are for registered sockets, each once, and `accept` answers with new
sockets. The other calls are free. -/
def ActOk (junk : Nat → UInt8) (s : Server) : ServerAct → Prop
  | .dispatch fuel events => (events.map Ready.fd).Nodup ∧ (∀ r ∈ events, Registered s r.fd) ∧
      AllSteps (dispatchEvent junk fuel) AcceptFresh s events
  | _ => True

instance (junk : Nat → UInt8) (s : Server) (a : ServerAct) : Decidable (ActOk junk s a) := by
  unfold ActOk
  split <;> infer_instance

theorem dispatch_table {events : List Ready} (h : Table s) (hok : ActOk junk s (.dispatch fuel events))
    (hs : s.dispatch junk fuel events = some s') : Table s' := by
  obtain ⟨hnodup, hreg, hfresh⟩ := hok
  induction events generalizing s with
  | nil =>
    cases hs
    exact h
  | cons r events ih =>
    obtain ⟨s1, hs1, hrest⟩ := Option.bind_eq_some_iff.mp hs
    obtain ⟨hr, hnodup⟩ := List.nodup_cons.mp hnodup
    obtain ⟨htable, hother⟩ := dispatchEvent_keeps h (hreg r List.mem_cons_self) hfresh.1 hs1
    refine ih htable hrest hnodup ?_ (hfresh.2 s1 hs1)
    intro q hq
    refine hother q.fd (fun heq => hr ?_) (hreg q (List.mem_cons_of_mem _ hq))
    exact heq ▸ List.mem_map_of_mem hq

theorem serverStep_table (junk : Nat → UInt8) {a : ServerAct} (h : Table s) (hok : ActOk junk s a)
    (hs : serverStep junk s a = some s') : Table s' := by
  cases a with
  | dispatch fuel events => exact dispatch_table h hok hs
  | doRead =>
    cases hs
    exact h.congr rfl rfl rfl rfl
  | doSend hid data =>
    rcases doSend_cases hs with rfl | ⟨c, res, c', hc, hc', rfl⟩
    · exact h
    · exact h.congr (keys_set hc (doSend_key hc')) rfl rfl rfl
  | doBroadcast data =>
    obtain ⟨cs, hcs, rfl⟩ := Option.map_eq_some_iff.mp hs
    exact h.congr (broadcastLoop_keys hcs) rfl rfl rfl

theorem table_startUp (listenSock : Int) (addOk : Bool) : Table (startUp listenSock addOk) := by
  have hempty : ∀ (pos : Nat) (c : Client), (startUp listenSock addOk).clients[pos]? ≠ some (some c) := by
    intro pos c hc
    have hmem := List.mem_of_getElem? hc
    cases List.eq_of_mem_replicate hmem
  refine ⟨List.length_replicate, ?_, ?_, nofun, ?_⟩
  · have hnone : (startUp listenSock addOk).clients.countP (·.isSome) = 0 := by
      refine List.countP_eq_zero.mpr fun o ho => ?_
      rw [List.eq_of_mem_replicate ho]
      simp
    rw [hnone]
    rfl
  · exact fun pos c hc => absurd hc (hempty pos c)
  · intro pos
    have hdead : (startUp listenSock addOk).live pos = false := by
      unfold live
      cases ho : (startUp listenSock addOk).clients[pos]? with
      | none => rfl
      | some o =>
        cases o with
        | none => rfl
        | some c => exact absurd ho (hempty pos c)
    rw [hdead]
    exact log_nil

end Server

end Donkeyji.Xy3
