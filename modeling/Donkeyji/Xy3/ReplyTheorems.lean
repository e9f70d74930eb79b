/-
Donkeyji.Xy3.ReplyTheorems — whom a reply reaches.

A slot is given away as soon as it is empty, while packs of the connection
that had it may still wait in the queue. `NET_NEW` of the new connection then
stands behind them, and that is the only sign of it: a reply reaches the
connection that asked exactly if no `NET_NEW` of the slot waits
(`replies_right_iff`).
-/
import Donkeyji.Xy3.DrainTheorems
import Donkeyji.Xy3.MainLoop

namespace Donkeyji.Xy3

open Runs Sessions Server

variable {l l' : MainLoop} {s s' : Server} {junk : Nat → UInt8} {fuel : Nat} {r : Ready}

/-- The queued events from the one that is handled on, with their connections. -/
def MainLoop.marked (l : MainLoop) : List ((Nat × NetKind) × Nat) :=
  (l.current.toList ++ l.waiting).map fun x => ((x.1.hid, x.1.event), x.2)

/-- The connections of slots and of queued events agree. -/
structure Traced (l : MainLoop) : Prop where
  table : Table l.server
  queue : l.waiting.map Prod.fst = l.server.queue
  older : ∀ x ∈ l.marked, x.2 < l.accepted
  valid : ∀ (pos : Nat) (c : Client), l.server.clients[pos]? = some (some c) → c.wbuf.Valid
  known : ∀ (pos : Nat) (c : Client), l.server.clients[pos]? = some (some c) → l.peer c.sock < l.accepted
  owned : ∀ (pos : Nat) (c : Client), l.server.clients[pos]? = some (some c) →
    Owned session pos (l.peer c.sock) l.marked

/-! ## One event -/

/-- After a slot is written, a client is the one written there or that of another slot. -/
theorem client_of_set {clients : List (Option Client)} {pos i : Nat} {x : Option Client}
    {c d : Client} (hpos : clients[pos]? = some x)
    (hd : (clients.set pos (some c))[i]? = some (some d)) :
    pos = i ∧ c = d ∨ pos ≠ i ∧ clients[i]? = some (some d) := by
  by_cases hi : pos = i
  · subst hi
    rw [List.getElem?_set_self (List.getElem?_eq_some_iff.mp hpos).1] at hd
    exact .inl ⟨rfl, Option.some.inj (Option.some.inj hd)⟩
  · rw [List.getElem?_set_ne hi] at hd
    exact .inr ⟨hi, hd⟩

/-- What the handling of a connection's event does to slots and queue. -/
theorem dispatchConn_slots (h : Table s) (hreg : (s.fpos r.fd).isSome) (hsend : SendWithin s r)
    (hs : s.dispatchConn junk fuel r = some s') :
    ∃ pos es, s.fpos r.fd = some pos ∧ s'.queue = s.queue ++ es ∧
      (∀ e ∈ es, e.hid = pos ∧ e.event ≠ .netNew) ∧
      ∀ (i : Nat) (c' : Client), s'.clients[i]? = some (some c') → ∃ c, s.clients[i]? = some (some c) ∧
        c'.key = c.key ∧ (c.wbuf.Valid → c'.wbuf.Valid) := by
  obtain ⟨pos, c, c1, bytes, c2, packs, rbuf, hpos, hc, hsock, hc1, hc2, rfl⟩ :=
    dispatchConn_eq h hreg hs
  have hkey : Client.key { c2 with rbuf := rbuf } = c.key := (trySend_key hc2).trans (tryRecv_key hc1)
  have hhid : c2.hid = pos := (Prod.mk.inj hkey).2.trans (h.slot pos c hc).1
  have hwbuf : c1.wbuf = c.wbuf := (tryRecv_state hc1).1
  have hvalid : c.wbuf.Valid → c2.wbuf.Valid := by
    intro hv
    have hwithin : ∀ n, r.send = .ret n → (n : Int) ≤ c1.wbuf.getDataSize := by
      intro n hn
      simp only [SendWithin, hn] at hsend
      rw [hwbuf]
      exact hsend pos hpos c (by rw [hc]; rfl)
    obtain ⟨bytes', c2', hc2', hv', -⟩ := trySend_spec (hwbuf ▸ hv) r.send hwithin
    rw [hc2] at hc2'
    cases hc2'
    exact hv'
  have hserved : ∀ (i : Nat) (c' : Client), (s.served pos { c2 with rbuf := rbuf } packs).clients[i]? =
      some (some c') → ∃ c, s.clients[i]? = some (some c) ∧ c'.key = c.key ∧
        (c.wbuf.Valid → c'.wbuf.Valid) := by
    intro i c' hc'
    change (s.clients.set pos (some { c2 with rbuf := rbuf }))[i]? = some (some c') at hc'
    rcases client_of_set hc hc' with ⟨rfl, rfl⟩ | ⟨-, hc'⟩
    · exact ⟨c, hc, hkey, hvalid⟩
    · exact ⟨c', hc', rfl, id⟩
  have hpacks : ∀ e ∈ packs.map (Event.ofPack c2.hid), e.hid = pos ∧ e.event ≠ .netNew := by
    intro e he
    obtain ⟨p, -, rfl⟩ := List.mem_map.mp he
    exact ⟨hhid, by simp [Event.ofPack]⟩
  unfold dropClosed
  split
  · refine ⟨pos, packs.map (Event.ofPack c2.hid) ++ [⟨.netLeave, c2.hid, []⟩], hpos, ?_, ?_, ?_⟩
    · simp [push, served]
    · intro e he
      rcases List.mem_append.mp he with he | he
      · exact hpacks e he
      · rw [List.mem_singleton.mp he]
        exact ⟨hhid, by simp⟩
    · intro i c' hc'
      change ((s.served pos { c2 with rbuf := rbuf } packs).clients.set pos none)[i]? =
        some (some c') at hc'
      by_cases hi : pos = i
      · subst hi
        rw [List.getElem?_set] at hc'
        split at hc' <;> simp_all
      · rw [List.getElem?_set_ne hi] at hc'
        exact hserved i c' hc'
  · exact ⟨pos, _, hpos, rfl, hpacks, hserved⟩

/-- The events that are new in a queue. -/
theorem queued_eq {es : List Event} (hqueue : s'.queue = l.server.queue ++ es) (k : Nat) :
    l.queued s' k = es.map fun e => (e, k) := by
  rw [MainLoop.queued, hqueue, List.drop_left]

/-- **What the handling of an event keeps.** A slot either keeps its connection and gets no
`NET_NEW`, and the packs that are queued for it are of that connection; or it is given to the
connection that was accepted. -/
theorem Traced.event (h : Traced l) {peer : Int → Nat} {accepted k : Nat} {es : List Event}
    (htable : Table s') (hqueue : s'.queue = l.server.queue ++ es) (hle : l.accepted ≤ accepted)
    (hk : es ≠ [] → k < accepted)
    (hclients : ∀ (pos : Nat) (c : Client), s'.clients[pos]? = some (some c) → c.wbuf.Valid ∧ peer c.sock < accepted ∧
      ((∃ d, l.server.clients[pos]? = some (some d) ∧ peer c.sock = l.peer d.sock ∧
          ∀ e ∈ es, ¬ (e.hid = pos ∧ e.event = .netNew) ∧ (e.hid = pos → k = peer c.sock)) ∨
        es = [⟨.netNew, pos, []⟩] ∧ peer c.sock = k ∧ k = l.accepted)) :
    Traced ⟨s', peer, accepted, l.waiting ++ es.map fun e => (e, k), none⟩ := by
  have hmarked : MainLoop.marked ⟨s', peer, accepted, l.waiting ++ es.map fun e => (e, k), none⟩ =
      (l.waiting.map fun x => ((x.1.hid, x.1.event), x.2)) ++
        es.map fun e => ((e.hid, e.event), k) := by
    simp [MainLoop.marked]
  have hsplit : l.marked = (l.current.toList.map fun x => ((x.1.hid, x.1.event), x.2)) ++
      l.waiting.map fun x => ((x.1.hid, x.1.event), x.2) := List.map_append
  have holder : ∀ x ∈ l.waiting.map fun x => ((x.1.hid, x.1.event), x.2), x.2 < l.accepted :=
    fun x hx => h.older x (by rw [hsplit]; exact List.mem_append_right _ hx)
  refine ⟨htable, ?_, ?_, fun pos c hc => (hclients pos c hc).1,
    fun pos c hc => (hclients pos c hc).2.1, ?_⟩
  · simp [h.queue, hqueue, Function.comp_def]
  · rw [hmarked]
    intro x hx
    rcases List.mem_append.mp hx with hx | hx
    · exact Nat.lt_of_lt_of_le (holder x hx) hle
    · obtain ⟨e, he, rfl⟩ := List.mem_map.mp hx
      exact hk (List.ne_nil_of_mem he)
  · intro pos c hc
    rw [hmarked]
    change Owned session pos (peer c.sock) _
    rcases (hclients pos c hc).2.2 with ⟨d, hd, hpeer, hes⟩ | ⟨rfl, hpeer, hnew⟩
    · have hold := h.owned pos d hd
      rw [hsplit] at hold
      rw [hpeer]
      refine hold.of_append.append ?_
      intro y hy
      obtain ⟨e, he, rfl⟩ := List.mem_map.mp hy
      obtain ⟨hstart, hitem⟩ := hes e he
      exact ⟨fun heq => hstart (Prod.mk.inj heq), fun heq => hpeer ▸ hitem (Prod.mk.inj heq).1⟩
    · rw [hpeer]
      refine Owned.start (fun x hx => ?_) nofun
      have := holder x hx
      omega

theorem event_traced (h : Traced l) (hok : LoopOk l (.event fuel r))
    (hstep : loopStep junk l (.event fuel r) = some l') : Traced l' := by
  obtain ⟨hreg, hfresh, hwithin⟩ := hok
  obtain ⟨s', hs', hl'⟩ := Option.bind_eq_some_iff.mp hstep
  have htable := (dispatchEvent_keeps h.table hreg hfresh hs').1
  unfold dispatchEvent at hs'
  by_cases hfd : r.fd = l.server.listenSock
  · rw [if_pos hfd] at hs'
    by_cases hgot : 0 ≤ r.accepted
    · rw [if_pos ⟨hfd, hgot⟩] at hl'
      cases hl'
      -- the number that `accept` returned is no client's
      have hpeer : ∀ (pos : Nat) (c : Client), l.server.clients[pos]? = some (some c) →
          Function.update l.peer r.accepted l.accepted c.sock = l.peer c.sock := by
        intro pos c hc
        refine Function.update_of_ne (fun heq => ?_) _ _
        have hfpos := (h.table.slot pos c hc).2
        rw [heq, hfresh hfd hgot] at hfpos
        cases hfpos
      have hsame : ∀ (pos : Nat) (c : Client), l.server.clients[pos]? = some (some c) → c.wbuf.Valid ∧
          Function.update l.peer r.accepted l.accepted c.sock < l.accepted + 1 := by
        intro pos c hc
        rw [hpeer pos c hc]
        exact ⟨h.valid pos c hc, Nat.lt_succ_of_lt (h.known pos c hc)⟩
      rcases dispatchListen_cases hs' with rfl | ⟨pos, cc, hfree, -, hcc, rfl⟩
      · rw [queued_eq (List.append_nil _).symm]
        refine h.event htable (List.append_nil _).symm (Nat.le_succ _) (absurd rfl) ?_
        intro pos c hc
        exact ⟨(hsame pos c hc).1, (hsame pos c hc).2, .inl ⟨c, hc, hpeer pos c hc, nofun⟩⟩
      · rw [queued_eq (rfl : (l.server.admitted pos _).queue = _)]
        refine h.event htable rfl (Nat.le_succ _) (fun _ => Nat.lt_succ_self _) ?_
        intro i c hc
        change (l.server.clients.set pos (some { cc.assign r.accepted with hid := pos }))[i]? =
          some (some c) at hc
        rcases client_of_set hfree hc with ⟨rfl, rfl⟩ | ⟨hi, hc⟩
        · have hself : Function.update l.peer r.accepted l.accepted r.accepted = l.accepted :=
            Function.update_self _ _ _
          refine ⟨?_, Nat.lt_succ_of_le (Nat.le_of_eq hself), .inr ⟨rfl, hself, rfl⟩⟩
          obtain ⟨c, hc, hvalid, -⟩ := Client.new_spec junk
          rw [hcc] at hc
          cases hc
          exact hvalid
        · refine ⟨(hsame i c hc).1, (hsame i c hc).2, .inl ⟨c, hc, hpeer i c hc, ?_⟩⟩
          intro e he
          rw [List.mem_singleton.mp he]
          exact ⟨fun heq => hi heq.1, fun heq => absurd heq hi⟩
    · rw [if_neg (fun hand => hgot hand.2)] at hl'
      cases hl'
      rcases dispatchListen_cases hs' with rfl | ⟨pos, cc, -, hgot', -⟩
      · rw [queued_eq (List.append_nil _).symm]
        refine h.event htable (List.append_nil _).symm (Nat.le_refl _) (absurd rfl) ?_
        intro pos c hc
        exact ⟨h.valid pos c hc, h.known pos c hc, .inl ⟨c, hc, rfl, nofun⟩⟩
      · exact absurd hgot' hgot
  · rw [if_neg hfd] at hs'
    rw [if_neg (fun hand => hfd hand.1)] at hl'
    cases hl'
    obtain ⟨pos, es, hpos, hqueue, hes, hslots⟩ :=
      dispatchConn_slots h.table (hreg.resolve_left hfd) hwithin hs'
    -- the socket is that of the client of its slot
    obtain ⟨d, hd, hdsock⟩ := h.table.fpos r.fd pos hpos
    rw [queued_eq hqueue]
    refine h.event htable hqueue (Nat.le_refl _) (fun _ => hdsock ▸ h.known pos d hd) ?_
    intro i c' hc'
    obtain ⟨c, hc, hkey, hvalid⟩ := hslots i c' hc'
    have hsock : c'.sock = c.sock := (Prod.mk.inj hkey).1
    refine ⟨hvalid (h.valid i c hc), hsock ▸ h.known i c hc, .inl ⟨c, hc, by rw [hsock], ?_⟩⟩
    intro e he
    obtain ⟨hhid, hkind⟩ := hes e he
    refine ⟨fun hand => hkind hand.2, fun heq => ?_⟩
    have hi : pos = i := hhid.symm.trans heq
    subst hi
    cases hd.symm.trans hc
    rw [hsock, hdsock]

/-! ## Reading and sending -/

theorem doRead_traced (h : Traced l) (hstep : loopStep junk l .doRead = some l') : Traced l' := by
  cases hstep
  have hmarked : MainLoop.marked
      { l with server := l.server.doRead, waiting := l.waiting.tail, current := l.waiting.head? } =
        l.waiting.map fun x => ((x.1.hid, x.1.event), x.2) := by
    cases l.waiting <;> simp [MainLoop.marked]
  have hsplit : l.marked = (l.current.toList.map fun x => ((x.1.hid, x.1.event), x.2)) ++
      l.waiting.map fun x => ((x.1.hid, x.1.event), x.2) := List.map_append
  refine ⟨h.table.congr rfl rfl rfl rfl, ?_, ?_, h.valid, h.known, ?_⟩
  · change l.waiting.tail.map Prod.fst = l.server.queue.tail
    rw [List.map_tail, h.queue]
  · rw [hmarked]
    exact fun x hx => h.older x (by rw [hsplit]; exact List.mem_append_right _ hx)
  · intro pos c hc
    have hold := h.owned pos c hc
    rw [hsplit] at hold
    rw [hmarked]
    exact hold.of_append

theorem hookSendS_traced (h : Traced l) {vfd : Int} {data : List UInt8}
    (hstep : loopStep junk l (.hookSendS vfd data) = some l') : Traced l' := by
  obtain ⟨s', hs', rfl⟩ := Option.map_eq_some_iff.mp hstep
  have htable := serverStep_table junk (a := .doSend vfd data) h.table trivial hs'
  rcases doSend_cases hs' with rfl | ⟨c, res, c', hc, hc', rfl⟩
  · exact h
  · have hkey := doSend_key hc'
    have hvalid : c'.wbuf.Valid := by
      unfold Client.doSend at hc'
      obtain ⟨⟨res', wbuf⟩, hwbuf, hsome⟩ := Option.bind_eq_some_iff.mp hc'
      cases hsome
      exact (DataBuf.appendPack_content (h.valid _ c hc) hwbuf).1
    have hslots : ∀ (i : Nat) (d' : Client), (l.server.clients.set vfd.toNat (some c'))[i]? = some (some d') →
        ∃ d, l.server.clients[i]? = some (some d) ∧ d'.sock = d.sock ∧ d'.wbuf.Valid := by
      intro i d' hd'
      rcases client_of_set hc hd' with ⟨rfl, rfl⟩ | ⟨-, hd'⟩
      · exact ⟨c, hc, (Prod.mk.inj hkey).1, hvalid⟩
      · exact ⟨d', hd', rfl, h.valid i d' hd'⟩
    refine ⟨htable, h.queue, h.older, ?_, ?_, ?_⟩
    · intro i d' hd'
      obtain ⟨d, -, -, hvalid⟩ := hslots i d' hd'
      exact hvalid
    · intro i d' hd'
      obtain ⟨d, hd, hsock, -⟩ := hslots i d' hd'
      exact hsock ▸ h.known i d hd
    · intro i d' hd'
      obtain ⟨d, hd, hsock, -⟩ := hslots i d' hd'
      exact hsock ▸ h.owned i d hd

/-! ## One reply -/

/-- `appendPack` takes a payload exactly if there is room for it, before or after `moveHead`. -/
theorem appendPack_room {b b' : DataBuf} {data : List UInt8} {res : Int} (hv : b.Valid)
    (hdata : data.length ≤ 32765) (h : b.appendPack data = some (res, b')) :
    res = 0 ↔ b.HasRoom data := by
  have hsize : Memory.wrap16 ((data.length : Int) + 2) = (data.length : Int) + 2 :=
    Memory.wrap16_of_bounds (by omega) (by omega)
  have hlen := DataBuf.length_content hv
  obtain ⟨b1, hb1, hv1, hcontent, hlen1, hmoved, hkept⟩ :=
    DataBuf.moveHead_ite hv ((data.length : Int) + 2 > b.left)
  have hleft : (data.length : Int) + 2 ≤ b1.left ↔ b.HasRoom data := by
    have hleft := hv.left_eq
    have hleft1 := hv1.left_eq
    have hhead := hv.head_nonneg
    have hlen' := DataBuf.length_content hv1
    rw [hcontent] at hlen'
    unfold DataBuf.HasRoom
    by_cases hc : (data.length : Int) + 2 > b.left
    · have hhead1 := hmoved hc
      omega
    · rw [hkept hc]
      omega
  rw [DataBuf.appendPack_eq, hsize, hb1, Option.bind_some] at h
  rw [← hleft]
  by_cases hroom : (data.length : Int) + 2 > b1.left
  · rw [if_pos hroom] at h
    cases h
    omega
  · rw [if_neg hroom] at h
    simp only [Option.bind_eq_some_iff, Option.some.injEq, Prod.mk.injEq] at h
    obtain ⟨d1, -, d2, -, rfl, -⟩ := h
    omega

/-- A pack that is not taken is the only one that leaves the bytes as they were. -/
theorem appendPack_same {b b' : DataBuf} {data : List UInt8} {res : Int} (hv : b.Valid)
    (hdata : data.length ≤ 32765) (h : b.appendPack data = some (res, b')) :
    b'.content = b.content ↔ ¬ b.HasRoom data := by
  have hroom := appendPack_room hv hdata h
  rcases (DataBuf.appendPack_content hv h).2 with ⟨hzero, hcontent⟩ | ⟨hnot, hcontent⟩
  · refine iff_of_false (fun heq => ?_) (not_not.mpr (hroom.mp hzero))
    have hlen := congrArg List.length (hcontent.symm.trans heq)
    simp at hlen
  · exact iff_of_true hcontent fun hyes => hnot (hroom.mpr hyes)

/-- **One reply.** It is right exactly if no `NET_NEW` of its slot waits, or it is not taken. -/
theorem replyRight_iff_good (h : Traced l) {vfd : Int} {data : List UInt8}
    (hdata : data.length ≤ 100) :
    ReplyRight junk l (.hookSendS vfd data) ↔ ReplyGood l (.hookSendS vfd data) := by
  refine forall_congr' fun x => forall_congr' fun hcurrent => forall_congr' fun hkind =>
    forall_congr' fun hvfd => forall_congr' fun c => forall_congr' fun hc => ?_
  subst hvfd
  have hslot : l.server.clients[x.1.hid]? = some (some c) := by
    cases ho : l.server.clients[x.1.hid]? with
    | none =>
      rw [ho] at hc
      cases hc
    | some o =>
      rw [ho] at hc
      rw [← Option.mem_def.mp hc]
      rfl
  -- the connection that asked has the slot exactly if no other was given it since
  have hown : l.peer c.sock = x.2 ↔
      ∀ e ∈ l.server.queue, ¬ (e.event = .netNew ∧ e.hid = x.1.hid) := by
    have hitem := h.owned x.1.hid c hslot
    rw [MainLoop.marked, Option.mem_def.mp hcurrent] at hitem
    rw [eq_comm, hitem.1 (congrArg (Prod.mk x.1.hid) hkind), ← h.queue]
    simp only [session, List.map_map, List.mem_map, Function.comp_apply, Prod.mk.injEq, not_exists,
      not_and, forall_exists_index, and_imp, forall_apply_eq_imp_iff₂]
    exact ⟨fun hno y hy hk hhid => hno y hy hhid hk, fun hno y hy hhid hk => hno y hy hk hhid⟩
  by_cases hbig : x.1.hid > 1024
  · have hstep : loopStep junk l (.hookSendS x.1.hid data) = some l := by
      rw [loopStep, doSend, if_pos (Or.inr (by omega))]
      rfl
    simp [hstep, hbig]
  · obtain ⟨res, wbuf, hwbuf⟩ := appendPack_ok (h.valid _ c hslot) (show data.length ≤ 32765 by omega)
    have hlt := (List.getElem?_eq_some_iff.mp hslot).1
    have hstep : loopStep junk l (.hookSendS x.1.hid data) = some { l with
        server := { l.server with
          clients := l.server.clients.set x.1.hid (some { c with wbuf := wbuf }) } } := by
      have hsent : c.doSend data = some (res, { c with wbuf := wbuf }) := by
        simp [Client.doSend, hwbuf]
      rw [loopStep, doSend_slot (by omega) hslot, hsent]
      rfl
    have hout : Server.outgoing { l.server with
        clients := l.server.clients.set x.1.hid (some { c with wbuf := wbuf }) } x.1.hid =
          wbuf.content := by
      simp [outgoing, List.getElem?_set_self hlt]
    have hout' : l.server.outgoing x.1.hid = c.wbuf.content := by simp [outgoing, hslot]
    have hroom := appendPack_same (h.valid _ c hslot) (show data.length ≤ 32765 by omega) hwbuf
    simp only [hstep, Option.mem_def, Option.some.injEq, forall_eq', hout, hout', hroom, hown, hbig,
      false_or]

/-! ## Runs -/

theorem traced_start (listenSock : Int) (addOk : Bool) :
    Traced (MainLoop.start listenSock addOk) := by
  have htable := table_startUp listenSock addOk
  have hempty : ∀ (pos : Nat) (c : Client),
      (MainLoop.start listenSock addOk).server.clients[pos]? ≠ some (some c) := by
    intro pos c hc
    cases List.eq_of_mem_replicate (List.mem_of_getElem? hc)
  exact ⟨htable, rfl, nofun, fun pos c hc => absurd hc (hempty pos c),
    fun pos c hc => absurd hc (hempty pos c), fun pos c hc => absurd hc (hempty pos c)⟩

theorem loopStep_traced {a : LoopAct} (h : Traced l) (hok : LoopOk l a)
    (hstep : loopStep junk l a = some l') : Traced l' := by
  cases a with
  | event fuel r => exact event_traced h hok hstep
  | doRead => exact doRead_traced h hstep
  | hookSendS vfd data => exact hookSendS_traced h hstep

/-- **Replies go to the connection that asked.** In every run of the loop, whatever the kernel
answers and whatever the script sends, every reply made while a pack is handled is queued on the
connection the pack came from, or not at all, exactly if at every reply that its slot takes no
`NET_NEW` of the slot waits in the queue. -/
theorem replies_right_iff (junk : Nat → UInt8) (listenSock : Int) (addOk : Bool)
    (acts : List LoopAct)
    (hok : AllSteps (loopStep junk) LoopOk (MainLoop.start listenSock addOk) acts) :
    AllSteps (loopStep junk) (ReplyRight junk) (MainLoop.start listenSock addOk) acts ↔
      AllSteps (loopStep junk) ReplyGood (MainLoop.start listenSock addOk) acts := by
  refine allSteps_iff_allSteps Traced LoopOk ?_ ?_ (traced_start listenSock addOk) hok
  · intro l a h hadm
    cases a with
    | event | doRead => exact Iff.rfl
    | hookSendS vfd data => exact replyRight_iff_good h hadm
  · intro l a l' h hadm _ hstep
    exact loopStep_traced h hadm hstep

/-- A connection is accepted and sends the pack `ab`, which is answered. -/
theorem replies_right_iff_visit :
    AllSteps (loopStep fun _ => 0) (ReplyRight fun _ => 0) (MainLoop.start 3 true)
      [.event 2 ⟨3, 5, true, .fail .ewouldblock, .ret 0, true⟩, .doRead,
        .event 2 ⟨5, -1, true, .ret [2, 0, 97, 98], .ret 0, true⟩, .doRead, .hookSendS 0 [7]] :=
  (replies_right_iff (fun _ => 0) 3 true _ (by decide +kernel)).mpr (by decide +kernel)

/-- **A reply to a stranger.** A connection sends two packs and goes, and another one comes before
the second pack is handled. -/
theorem reply_to_stranger :
    let acts : List LoopAct := [.event 2 ⟨3, 5, true, .fail .ewouldblock, .ret 0, true⟩, .doRead,
      .event 3 ⟨5, -1, true, .ret [1, 0, 97, 1, 0, 98], .ret 0, true⟩, .doRead,
      .event 2 ⟨5, -1, true, .ret [], .ret 0, true⟩,
      .event 2 ⟨3, 6, true, .fail .ewouldblock, .ret 0, true⟩, .doRead, .hookSendS 0 [7]]
    AllSteps (loopStep fun _ => 0) LoopOk (MainLoop.start 3 true) acts ∧
      ¬ AllSteps (loopStep fun _ => 0) (ReplyRight fun _ => 0) (MainLoop.start 3 true) acts := by
  decide +kernel

end Donkeyji.Xy3
