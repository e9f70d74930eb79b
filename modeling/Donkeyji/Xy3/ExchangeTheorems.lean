/-
Donkeyji.Xy3.ExchangeTheorems — remote calls arrive once and in order in both
directions.

The calls of the programs are followed as in `RemoteCallTheorems`: nothing that
is new here touches them (`Linked.sent`, `hookSendS_linked`). Of the calls of
the server's stubs for a connection, those that were handled come first, and
the frames of the others are in the receive buffer of the program, on the way
back, and in the send buffer of the server's client, in this order
(`Answered`). When that client is removed, its part is lost, and what the
program has then is still the front.
-/
import Donkeyji.Xy3.Exchange
import Donkeyji.Xy3.GrowthTheorems
import Donkeyji.Xy3.RemoteCallTheorems

namespace Donkeyji.Xy3

open Memory Runs Proto Server
open DataBuf (frame frames frames_append frames_cons frames_nil)

variable {junk : Nat → UInt8} {fuel : Nat} {r : Ready} {lua : Lua}
  {raises : Side → Nat → List LuaValue → Bool} {files : List PtoFile} {t : Tables files}
  {n n' : CallNet} {x x' : Exchange}

/-! ## What the server's steps do to its send buffers -/

/-- The client of one slot changes, but not its socket: the clients of the other programs stay. -/
theorem Linked.has_set (h : Linked t n) {pos i k : Nat} {c c' d : Client}
    (hc : n.loop.server.clients[pos]? = some (some c))
    (hd : (n.loop.server.clients.set pos (some c'))[i]? = some (some d)) (hsock : c'.sock = c.sock)
    (hk : n.loop.peer d.sock = k) :
    d = c' ∧ i = pos ∧ k = n.loop.peer c.sock ∨ k ≠ n.loop.peer c.sock ∧ n.loop.Has k i d := by
  rcases client_of_set hc hd with ⟨rfl, rfl⟩ | ⟨hi, hd⟩
  · exact .inl ⟨rfl, rfl, hsock ▸ hk.symm⟩
  · refine .inr ⟨?_, hd, hk⟩
    rintro rfl
    exact hi (h.single _ pos i c d ⟨hc, rfl⟩ ⟨hd, hk⟩)

/-- **The handling of a connection's event** passes on the front of what is in the send buffer of
its client, and touches no other. -/
theorem conn_unsent {raises : Nat → List LuaValue → Bool} (h : Linked t n)
    (hok : CallOk t n (.event fuel r)) (hfd : r.fd ≠ n.loop.server.listenSock)
    (hstep : callStep lua junk raises t n (.event fuel r) = some n') :
    n'.program = n.program ∧ n'.loop.accepted = n.loop.accepted ∧ ∃ pos c unsent,
      n.loop.Has (n.loop.peer r.fd) pos c ∧
      c.wbuf.content = n.loop.server.sentBy junk r ++ unsent ∧
      ∀ k i d, n'.loop.Has k i d → k = n.loop.peer r.fd ∧ d.wbuf.content = unsent ∨
        k ≠ n.loop.peer r.fd ∧ n.loop.Has k i d := by
  obtain ⟨⟨hreg, -, hsend⟩, -⟩ := hok
  obtain ⟨l', hloop, hn'⟩ := Option.bind_eq_some_iff.mp hstep
  rw [if_neg hfd] at hn'
  cases hn'
  obtain ⟨s', hs', hl'⟩ := Option.bind_eq_some_iff.mp hloop
  rw [if_neg fun hand => hfd hand.1] at hl'
  cases hl'
  rw [dispatchEvent, if_neg hfd] at hs'
  obtain ⟨pos, c, c1, bytes, c2, packs, rbuf, hpos, hc, hsock, hc1, hc2, rfl⟩ :=
    dispatchConn_eq h.traced.table (hreg.resolve_left hfd) hs'
  have hhas : n.loop.Has (n.loop.peer r.fd) pos c := ⟨hc, by rw [hsock]⟩
  have hwbuf := (tryRecv_state hc1).1
  have hwithin : ∀ m, r.send = .ret m → (m : Int) ≤ c1.wbuf.getDataSize := by
    intro m hm
    simp only [SendWithin, hm] at hsend
    rw [hwbuf]
    exact hsend pos hpos c (by rw [hc]; rfl)
  obtain ⟨bytes', c2', hc2', -, hsplit⟩ :=
    trySend_spec (hwbuf ▸ h.traced.valid pos c hc) r.send hwithin
  rw [hc2] at hc2'
  cases hc2'
  have hsent : n.loop.server.sentBy junk r = bytes := by simp [sentBy, hpos, hc, hc1, hc2]
  have hkey : Client.key { c2 with rbuf := rbuf } = c.key :=
    (trySend_key hc2).trans (tryRecv_key hc1)
  obtain ⟨-, -, -, hslots⟩ :=
    dropClosed_spec (n.loop.server.served pos { c2 with rbuf := rbuf } packs) r pos
      { c2 with rbuf := rbuf }
  refine ⟨rfl, rfl, pos, c, c2.wbuf.content, hhas, ?_, ?_⟩
  · rw [hsent, hsplit, hwbuf]
  · rintro k i d ⟨hd, hk⟩
    have hset := hslots i d hd
    change (n.loop.server.clients.set pos (some { c2 with rbuf := rbuf }))[i]? =
      some (some d) at hset
    rw [← hsock]
    exact (h.has_set hc hset (Prod.mk.inj hkey).1 hk).imp_left fun hsame =>
      ⟨hsame.2.2, congrArg (·.wbuf.content) hsame.1⟩

/-- **`hook_send_s`** puts the frame behind what is in the send buffer of the client that takes it,
and touches no other. -/
theorem hookSendS_unsent {raises : Nat → List LuaValue → Bool} (h : Linked t n) {vfd : Int}
    {data : List UInt8} (hdata : data.length ≤ 100)
    (hstep : callStep lua junk raises t n (.hookSendS vfd data) = some n') :
    n'.program = n.program ∧ n'.loop.accepted = n.loop.accepted ∧
      (∀ k ∈ n.loop.taker vfd data, k < n.loop.accepted) ∧
      ∀ k i d', n'.loop.Has k i d' → ∃ d, n.loop.Has k i d ∧ d'.wbuf.content =
        d.wbuf.content ++ if n.loop.taker vfd data = some k then frame data else [] := by
  obtain ⟨l', hloop, hn'⟩ := Option.bind_eq_some_iff.mp hstep
  cases hn'
  obtain ⟨s', hs', rfl⟩ := Option.map_eq_some_iff.mp hloop
  -- if nobody takes it, nothing changes
  have hkept : s' = n.loop.server → n.loop.taker vfd data = none →
      (∀ k ∈ n.loop.taker vfd data, k < n.loop.accepted) ∧
      ∀ k i d', MainLoop.Has { n.loop with server := s' } k i d' → ∃ d, n.loop.Has k i d ∧
        d'.wbuf.content = d.wbuf.content ++
          if n.loop.taker vfd data = some k then frame data else [] := by
    rintro rfl hnone
    rw [hnone]
    exact ⟨nofun, fun k i d hd => ⟨d, hd, by simp⟩⟩
  refine ⟨rfl, rfl, ?_⟩
  by_cases hin : vfd < 0 ∨ vfd > 1024
  · refine hkept ?_ (if_pos hin)
    rw [doSend, if_pos hin] at hs'
    exact (Option.some.inj hs').symm
  rcases hc : n.loop.server.clients[vfd.toNat]? with _ | _ | c
  · rw [doSend, if_neg hin, hc] at hs'
    cases hs'
  · refine hkept ?_ (by simp [MainLoop.taker, hc])
    rw [doSend, if_neg hin, hc] at hs'
    exact (Option.some.inj hs').symm
  · have hv := h.traced.valid _ c hc
    obtain ⟨res, b, hb⟩ := appendPack_ok hv (show data.length ≤ 32765 by omega)
    have hsend : c.doSend data = some (res, { c with wbuf := b }) := by simp [Client.doSend, hb]
    rw [doSend_slot hin hc, hsend] at hs'
    cases hs'
    have htaker : n.loop.taker vfd data = if res = 0 then some (n.loop.peer c.sock) else none := by
      simp [MainLoop.taker, hin, hc, hsend]
    have hcontent : b.content = c.wbuf.content ++ if res = 0 then frame data else [] := by
      rcases (DataBuf.appendPack_content hv hb).2 with ⟨hzero, hcontent⟩ | ⟨hnot, hcontent⟩
      · rw [hcontent, if_pos hzero]
        rfl
      · rw [hcontent, if_neg hnot, List.append_nil]
    refine ⟨fun k hk => ?_, ?_⟩
    · rw [htaker] at hk
      split at hk
      · cases hk
        exact h.traced.known _ c hc
      · cases hk
    · rintro k i d ⟨hd, hk⟩
      change (n.loop.server.clients.set vfd.toNat (some { c with wbuf := b }))[i]? =
        some (some d) at hd
      rcases h.has_set hc hd rfl hk with ⟨rfl, rfl, rfl⟩ | ⟨hne, hhas⟩
      · refine ⟨c, ⟨hc, rfl⟩, hcontent.trans ?_⟩
        rw [htaker]
        by_cases hzero : res = 0 <;> simp [hzero]
      · refine ⟨d, hhas, ?_⟩
        rw [htaker, if_neg, List.append_nil]
        intro htook
        split at htook
        · exact hne (Option.some.inj htook).symm
        · cases htook

/-! ## Where the answers to a program are -/

/-- The calls `got` were handled, and the frames of `rest` are in the receive buffer of the program,
on the way back, and in the send buffer of the server's client if there is still one. -/
structure Answered (x : Exchange) (k : Nat) (got rest : List Call) : Prop where
  answered : x.answered k = got ++ rest
  got : x.got k = got.map asHandled
  before : x.net.loop.accepted ≤ k → x.answered k = []
  underWay : ∃ unsent, frames (rest.map payload) =
      (x.net.program k).rbuf.content ++ x.back k ++ unsent ∧
    ∀ pos c, x.net.loop.Has k pos c → c.wbuf.content = unsent

/-- The invariant. -/
structure Exchanged (t : Tables files) (x : Exchange) : Prop where
  linked : Linked t x.net
  answerable : ∀ k, ∀ c ∈ x.answered k, CallableFrom t .s c
  receiving : ∀ k, (x.net.program k).rbuf.Valid ∧ 1 ≤ (x.net.program k).rbuf.len
  carried : ∀ k, ∃ got rest, Answered x k got rest

/-- Bytes that are only passed on leave the answers where they are. A client that is new stands for
a connection to which nothing was sent. -/
theorem Answered.congr {k : Nat} {got rest : List Call} (h : Answered x k got rest)
    (hanswered : x'.answered k = x.answered k) (hgot : x'.got k = x.got k)
    (haccepted : x.net.loop.accepted ≤ x'.net.loop.accepted)
    (hbytes : (x'.net.program k).rbuf.content ++ x'.back k =
      (x.net.program k).rbuf.content ++ x.back k)
    (hslots : ∀ pos c', x'.net.loop.Has k pos c' →
      (∃ c, x.net.loop.Has k pos c ∧ c'.wbuf.content = c.wbuf.content) ∨
        k = x.net.loop.accepted ∧ c'.Fresh) :
    Answered x' k got rest := by
  obtain ⟨unsent, hframes, hunsent⟩ := h.underWay
  refine ⟨hanswered.trans h.answered, hgot.trans h.got, fun hle => ?_, unsent, ?_, ?_⟩
  · exact hanswered.trans (h.before (haccepted.trans hle))
  · rw [hbytes, hframes]
  · intro pos c' hc'
    rcases hslots pos c' hc' with ⟨c, hc, hcontent⟩ | ⟨hk, hfresh⟩
    · exact hcontent.trans (hunsent pos c hc)
    · have hnone := h.answered.symm.trans (h.before hk.ge)
      obtain rfl := (List.append_eq_nil_iff.mp hnone).2
      rw [hfresh.unsent, (List.append_eq_nil_iff.mp hframes.symm).2]

/-- **Frame rule.** A step of the network that touches no receive buffer of a program and no send
buffer of the server keeps the answers together. -/
theorem Exchanged.frame (h : Exchanged t x) (hlinked : Linked t n')
    (hprogram : ∀ k, (n'.program k).rbuf = (x.net.program k).rbuf)
    (haccepted : x.net.loop.accepted ≤ n'.loop.accepted)
    (hslots : ∀ k pos c', n'.loop.Has k pos c' →
      (∃ c, x.net.loop.Has k pos c ∧ c'.wbuf.content = c.wbuf.content) ∨
        k = x.net.loop.accepted ∧ c'.Fresh) :
    Exchanged t { x with net := n' } := by
  refine ⟨hlinked, h.answerable, fun k => ?_, fun k => ?_⟩
  · exact (hprogram k).symm ▸ h.receiving k
  · obtain ⟨got, rest, hanswered⟩ := h.carried k
    refine ⟨got, rest, hanswered.congr rfl rfl haccepted ?_ (hslots k)⟩
    exact congrArg (fun b => b.content ++ x.back k) (hprogram k)

/-! ## Steps of a program -/

theorem call_exchanged (h : Exchanged t x) {k i : Nat} {xs : List Int} {ret : Nat → Int}
    {buf : List UInt8} (hok : ExchangeOk t x (.call k i xs ret buf)) :
    ∃ x', exchangeStep lua junk raises t x (.call k i xs ret buf) = some x' ∧ Exchanged t x' := by
  have hnet : ∃ n', callStep lua junk (raises .s) t x.net (.call k i xs ret buf) = some n' ∧
    Linked t n' := call_linked h.linked hok
  obtain ⟨n', hstep, hlinked⟩ := hnet
  obtain ⟨p, taken, cc, hp, hpack, hrbuf, -⟩ := pack_spec lua hok.1 ret hok.2 (h.linked.sending k)
  refine ⟨{ x with net := n' }, by rw [exchangeStep, hstep]; rfl, ?_⟩
  have hn' : { x.net with
      program := Function.update x.net.program k cc
      called := if taken then Function.update x.net.called k (x.net.called k ++ [(i, xs)])
        else x.net.called } = n' := by simpa [callStep, hp, hpack] using hstep
  subst hn'
  refine h.frame hlinked (fun k' => ?_) le_rfl fun k' pos c hc => .inl ⟨c, hc, rfl⟩
  by_cases hk : k' = k
  · subst hk
    simpa using hrbuf
  · simp [Function.update_of_ne hk]

variable (junk) in
/-- A receive buffer that need not pass 2^30 bytes takes what `recv` gives. -/
theorem tryRecv_appends {c : Client} (hv : c.rbuf.Valid) (hlen : 1 ≤ c.rbuf.len)
    {answer : RecvAnswer} (hfits : c.rbuf.len + answer.bytes.length ≤ 1073741824) :
    ∃ c', c.tryRecv junk answer = some c' ∧ c'.rbuf.Valid ∧ 1 ≤ c'.rbuf.len ∧
      c'.rbuf.content = c.rbuf.content ++ answer.bytes := by
  match answer with
  | .ret [] | .fail .eintr | .fail .ewouldblock | .fail .einprogress | .fail (.other _) =>
    exact ⟨_, rfl, hv, hlen, (List.append_nil _).symm⟩
  | .ret (y :: ys) =>
    have happends : ∃ b, c.rbuf.appendRawData junk (y :: ys) = some (0, b) ∧ 1 ≤ b.len :=
      DataBuf.appendRawData_returns junk hv hlen (by norm_num; exact hfits)
    obtain ⟨b, hb, hlen'⟩ := happends
    obtain ⟨hv', hcontent⟩ := DataBuf.appendRawData_content hv hb
    exact ⟨{ c with rbuf := b }, by simp [Client.tryRecv, hb], hv', hlen', hcontent⟩

theorem process_exchanged (h : Exchanged t x) {k : Nat} {recv : RecvAnswer} {send : SendAnswer}
    (hok : ExchangeOk t x (.process k recv send)) :
    ∃ x', exchangeStep lua junk raises t x (.process k recv send) = some x' ∧ Exchanged t x' := by
  by_cases hstate : (x.net.program k).state ≠ 2
  · exact ⟨x, by rw [exchangeStep, if_pos hstate], h⟩
  obtain ⟨hsendOk, ⟨later, hlater⟩, hfits⟩ := hok
  obtain ⟨hv, hlen⟩ := h.receiving k
  obtain ⟨c1, hc1, hv1, hlen1, hcontent1⟩ := tryRecv_appends junk hv hlen hfits
  have hwbuf := (tryRecv_state hc1).1
  have hwithin : ∀ m, send = .ret m → (m : Int) ≤ c1.wbuf.getDataSize := by
    rintro m rfl
    rw [hwbuf]
    exact hsendOk
  obtain ⟨bytes, cc, hcc, hvalid, hsplit⟩ := trySend_spec (hwbuf ▸ h.linked.sending k) send hwithin
  have hrbuf := trySend_rbuf hcc
  have hstep : exchangeStep lua junk raises t x (.process k recv send) = some { x with
      net := { x.net with
        program := Function.update x.net.program k cc
        wire := Function.update x.net.wire k (x.net.wire k ++ bytes) }
      back := Function.update x.back k ((x.back k).drop recv.bytes.length) } := by
    simp only [exchangeStep, if_neg hstate, hc1, hcc, Option.bind_eq_bind, Option.bind_some,
      Option.pure_def, CallNet.setProgram]
  refine ⟨_, hstep, h.linked.sent (fun k' => ?_) fun k' => ?_, h.answerable, fun k' => ?_,
    fun k' => ?_⟩
  · by_cases hk : k' = k
    · subst hk
      simpa using hvalid
    · simpa [Function.update_of_ne hk] using h.linked.sending k'
  · by_cases hk : k' = k
    · subst hk
      simp [CallNet.ahead, hsplit, hwbuf]
    · simp [CallNet.ahead, Function.update_of_ne hk]
  · by_cases hk : k' = k
    · subst hk
      simp only [Function.update_self, hrbuf]
      exact ⟨hv1, hlen1⟩
    · simp only [Function.update_of_ne hk]
      exact h.receiving k'
  · obtain ⟨got, rest, hanswered⟩ := h.carried k'
    refine ⟨got, rest, hanswered.congr rfl rfl le_rfl ?_ fun pos c hc => .inl ⟨c, hc, rfl⟩⟩
    by_cases hk : k' = k
    · subst hk
      simp [hrbuf, hcontent1, ← hlater]
    · simp [Function.update_of_ne hk]

/-- The program's receive buffer changes: the bytes to send stay. -/
theorem Linked.setProgram (h : Linked t n) (k : Nat) (b : DataBuf) :
    Linked t (n.setProgram k { n.program k with rbuf := b }) := by
  refine h.sent (fun k' => ?_) fun k' => ?_ <;> by_cases hk : k' = k
  · subst hk
    simpa using h.sending k'
  · simpa [Function.update_of_ne hk] using h.sending k'
  · subst hk
    simp [CallNet.ahead]
  · simp [CallNet.ahead, Function.update_of_ne hk]

/-- **A program takes a pack**: the first call that was not handled yet, if its frame is there. -/
theorem doRecv_exchanged (h : Exchanged t x) (k : Nat) (high : Nat → Nat) :
    ∃ x', exchangeStep lua junk raises t x (.doRecv k high) = some x' ∧ Exchanged t x' := by
  obtain ⟨hv, hlen⟩ := h.receiving k
  obtain ⟨got, rest, hanswered⟩ := h.carried k
  obtain ⟨unsent, hframes, hunsent⟩ := hanswered.underWay
  have hcallable : ∀ d ∈ rest, CallableFrom t .s d :=
    fun d hd => h.answerable k d (by rw [hanswered.answered]; exact List.mem_append_right _ hd)
  -- without a complete frame nothing is taken
  have hidle : (x.net.program k).rbuf.doRecv = some (none, (x.net.program k).rbuf) →
      ∃ x', exchangeStep lua junk raises t x (.doRecv k high) = some x' ∧ Exchanged t x' := by
    intro hcall
    refine ⟨{ x with net := x.net.setProgram k (x.net.program k) }, ?_, ?_⟩
    · simp only [exchangeStep, hcall, Option.bind_eq_bind, Option.bind_some, Option.pure_def]
    · have hsame : x.net.setProgram k (x.net.program k) = x.net := by
        rw [CallNet.setProgram, Function.update_eq_self]
      rw [hsame]
      exact h
  cases rest with
  | nil =>
    have hempty := List.append_eq_nil_iff.mp (List.append_eq_nil_iff.mp hframes.symm).1
    exact hidle (DataBuf.doRecv_short hv (by simp [hempty.1]))
  | cons d rest =>
    have hd := hcallable d List.mem_cons_self
    have hshort := short_payloads hcallable (payload d) List.mem_cons_self
    have hseen := packSeenAt_short hshort.2
    rw [List.append_assoc] at hframes
    rcases DataBuf.doRecv_spec hv hframes (by omega) with
      ⟨-, hcall⟩ | ⟨m, hm, hle, hlt, -⟩ | ⟨m, -, b, hcall, hvb, hcontent, hlenb⟩
    · exact hidle hcall
    · rw [hseen] at hm
      cases hm
      omega
    · obtain ⟨res, hun⟩ := unpackData_payload (raises .c) hd .nil high
      change ProtoMgr_c.unpackData (t.ptos .c) (payload d) .nil high (raises .c) =
        some (res, [asHandled d]) at hun
      have hstep : exchangeStep lua junk raises t x (.doRecv k high) = some { x with
          net := x.net.setProgram k { x.net.program k with rbuf := b }
          got := Function.update x.got k (x.got k ++ [asHandled d]) } := by
        simp only [exchangeStep, hcall, Option.bind_eq_bind, Option.bind_some]
        rw [payload] at hun ⊢
        simp only [hun, Option.bind_some, Option.pure_def]
      refine ⟨_, hstep, h.linked.setProgram k b, h.answerable, fun k' => ?_, fun k' => ?_⟩
      · by_cases hk : k' = k
        · subst hk
          simp only [CallNet.setProgram, Function.update_self]
          exact ⟨hvb, hlenb ▸ hlen⟩
        · simp only [CallNet.setProgram, Function.update_of_ne hk]
          exact h.receiving k'
      · by_cases hk : k' = k
        · subst hk
          refine ⟨got ++ [d], rest, ?_, ?_, hanswered.before, unsent, ?_, hunsent⟩
          · rw [hanswered.answered, List.append_assoc]
            rfl
          · simp [hanswered.got]
          · rw [List.map_cons, frames_cons, hcontent, List.append_assoc] at hframes
            simpa [CallNet.setProgram] using List.append_cancel_left hframes
        · obtain ⟨got', rest', hanswered'⟩ := h.carried k'
          refine ⟨got', rest', hanswered'.congr rfl ?_ le_rfl ?_ fun pos c hc => .inl ⟨c, hc, rfl⟩⟩
          · simp [Function.update_of_ne hk]
          · simp [CallNet.setProgram, Function.update_of_ne hk]

/-! ## Steps of the server -/

theorem doRead_exchanged (h : Exchanged t x) (high : Nat → Nat) :
    ∃ x', exchangeStep lua junk raises t x (.doRead high) = some x' ∧ Exchanged t x' := by
  have hnet : ∃ n', callStep lua junk (raises .s) t x.net (.doRead high) = some n' ∧
    Linked t n' := doRead_linked h.linked high
  obtain ⟨n', hstep, hlinked⟩ := hnet
  refine ⟨{ x with net := n' }, by rw [exchangeStep, hstep]; rfl, ?_⟩
  have hsame : n'.program = x.net.program ∧ n'.loop.accepted = x.net.loop.accepted ∧
      n'.loop.server.clients = x.net.loop.server.clients ∧ n'.loop.peer = x.net.loop.peer := by
    simp only [callStep, loopStep, Option.bind_eq_bind, Option.bind_some] at hstep
    split at hstep
    · cases hstep
      exact ⟨rfl, rfl, rfl, rfl⟩
    · split at hstep
      · obtain ⟨calls, -, hn'⟩ := Option.bind_eq_some_iff.mp hstep
        cases hn'
        exact ⟨rfl, rfl, rfl, rfl⟩
      · cases hstep
        exact ⟨rfl, rfl, rfl, rfl⟩
  obtain ⟨hprogram, haccepted, hclients, hpeer⟩ := hsame
  refine h.frame hlinked (fun k => by rw [hprogram]) haccepted.ge
    fun k pos c hc => .inl ⟨c, ?_, rfl⟩
  unfold MainLoop.Has at hc ⊢
  rwa [hclients, hpeer] at hc

theorem event_exchanged (h : Exchanged t x) (hok : ExchangeOk t x (.event fuel r)) :
    ∃ x', exchangeStep lua junk raises t x (.event fuel r) = some x' ∧ Exchanged t x' := by
  by_cases hfd : r.fd = x.net.loop.server.listenSock
  · have hnet : ∃ n', callStep lua junk (raises .s) t x.net (.event fuel r) = some n' ∧
      Linked t n' := listen_linked h.linked hok hfd
    obtain ⟨n', hstep, hlinked⟩ := hnet
    obtain ⟨l', slot, hloop, hle, -, hhas⟩ := listen_loop junk h.linked.traced hok.1 hfd
    have hn' : { x.net with loop := l' } = n' := by simpa [callStep, hloop, hfd] using hstep
    subst hn'
    refine ⟨{ x with net := { x.net with loop := l' } }, ?_,
      h.frame hlinked (fun k => rfl) hle fun k pos c hc => ?_⟩
    · simp only [exchangeStep, hstep, Option.bind_eq_bind, Option.bind_some, if_pos hfd,
        Option.pure_def]
    · exact (hhas k pos c hc).imp (fun hc => ⟨c, hc, rfl⟩) fun hnew => ⟨hnew.1, hnew.2.2⟩
  · have hnet : ∃ n', callStep lua junk (raises .s) t x.net (.event fuel r) = some n' ∧
      Linked t n' := conn_linked h.linked hok hfd
    obtain ⟨n', hevent, hlinked⟩ := hnet
    obtain ⟨hprogram, haccepted, pos, c, unsent, hhas, hcontent, hslots⟩ :=
      conn_unsent h.linked hok hfd hevent
    have hstep : exchangeStep lua junk raises t x (.event fuel r) = some { x with
        net := n'
        back := Function.update x.back (x.net.loop.peer r.fd)
          (x.back (x.net.loop.peer r.fd) ++ x.net.loop.server.sentBy junk r) } := by
      simp only [exchangeStep, hevent, Option.bind_eq_bind, Option.bind_some, if_neg hfd,
        Option.pure_def]
    refine ⟨_, hstep, hlinked, h.answerable, fun k => ?_, fun k => ?_⟩
    · simp only [hprogram]
      exact h.receiving k
    · obtain ⟨got, rest, hanswered⟩ := h.carried k
      by_cases hk : k = x.net.loop.peer r.fd
      · subst hk
        obtain ⟨old, hframes, hold⟩ := hanswered.underWay
        refine ⟨got, rest, hanswered.answered, hanswered.got, fun hle => ?_, unsent, ?_, ?_⟩
        · exact hanswered.before (haccepted ▸ hle)
        · rw [hframes, ← hold pos c hhas, hcontent]
          simp [hprogram]
        · intro i d hd
          exact ((hslots _ i d hd).resolve_right fun hno => hno.1 rfl).2
      · refine ⟨got, rest, hanswered.congr rfl rfl haccepted.ge ?_ fun i d hd => ?_⟩
        · simp [hprogram, Function.update_of_ne hk]
        · exact .inl ⟨d, ((hslots k i d hd).resolve_left fun hand => hk hand.1).2, rfl⟩

/-- **A stub of the server** queues its pack for the connection that has the slot, or nothing. -/
theorem stub_exchanged (h : Exchanged t x) {vfd : Int} {i : Nat} {xs : List Int} {ret : Nat → Int}
    {buf : List UInt8} (hok : ExchangeOk t x (.stub vfd i xs ret buf)) :
    ∃ x', exchangeStep lua junk raises t x (.stub vfd i xs ret buf) = some x' ∧ Exchanged t x' := by
  obtain ⟨hcall, -, hbuf⟩ := hok
  obtain ⟨p, out, hp, hmarshal, hread⟩ := marshal_payload lua hcall (.ofInt vfd) ret hbuf
  have hdata : (payload (i, xs)).length ≤ 100 :=
    (length_payload (i, xs)).trans_le hcall.2.2.1
  have hstub : stubData lua p vfd (xs.map .ofInt) ret buf = some (some (payload (i, xs))) := by
    have hne : ¬ ((1 + 4 * xs.length : Nat) : Int) = 0 := by omega
    change Pto.marshal lua .s p (.ofInt vfd :: xs.map .ofInt) ret buf = _ at hmarshal
    have hpack : Pto_s.pack lua p (.ofInt vfd :: xs.map .ofInt) ret buf =
        .done (some (((1 + 4 * xs.length : Nat) : Int), out)) := by
      simp only [Pto_s.pack, Pto.stub, Side.stubPacks, List.head?_cons, LuaValue.ofInt, if_true]
      rw [show Pto.marshal lua .s p (.number (.finite (vfd : ℚ)) :: xs.map .ofInt) ret buf = _ from
        hmarshal]
      simp only [ne_eq, hne, not_false_eq_true, if_true]
    rw [stubData, hpack]
    simp only [hread]
    rfl
  have hnet : ∃ n', callStep lua junk (raises .s) t x.net (.hookSendS vfd (payload (i, xs))) =
    some n' ∧ Linked t n' := hookSendS_linked h.linked hdata
  obtain ⟨n', hsent, hlinked⟩ := hnet
  obtain ⟨hprogram, haccepted, htook, hslots⟩ := hookSendS_unsent h.linked hdata hsent
  cases htaker : x.net.loop.taker vfd (payload (i, xs)) with
  | none =>
    simp only [htaker, reduceCtorEq, if_false, List.append_nil] at hslots
    refine ⟨{ x with net := n' }, ?_, h.frame hlinked (fun k => by rw [hprogram]) haccepted.ge
      fun k pos c hc => .inl (hslots k pos c hc)⟩
    simp only [exchangeStep, hp, hstub, hsent, htaker, Option.bind_eq_bind, Option.bind_some,
      Option.pure_def]
  | some k =>
    have hstep : exchangeStep lua junk raises t x (.stub vfd i xs ret buf) = some { x with
        net := n'
        answered := Function.update x.answered k (x.answered k ++ [(i, xs)]) } := by
      simp only [exchangeStep, hp, hstub, hsent, htaker, Option.bind_eq_bind, Option.bind_some,
        Option.pure_def]
    refine ⟨_, hstep, hlinked, fun k' c hc => ?_, fun k' => ?_, fun k' => ?_⟩
    · by_cases hk : k' = k
      · subst hk
        simp only [Function.update_self, List.mem_append, List.mem_singleton] at hc
        rcases hc with hc | rfl
        · exact h.answerable k' c hc
        · exact hcall
      · simp only [Function.update_of_ne hk] at hc
        exact h.answerable k' c hc
    · simp only [hprogram]
      exact h.receiving k'
    · obtain ⟨got, rest, hanswered⟩ := h.carried k'
      by_cases hk : k' = k
      · subst hk
        obtain ⟨unsent, hframes, hunsent⟩ := hanswered.underWay
        refine ⟨got, rest ++ [(i, xs)], ?_, hanswered.got, fun hle => ?_,
          unsent ++ frame (payload (i, xs)), ?_, fun pos c hc => ?_⟩
        · simp [hanswered.answered]
        · have hknown := htook k' (by rw [htaker]; rfl)
          rw [haccepted] at hle
          omega
        · simp [hframes, hprogram, frames_append, frames_cons, frames_nil]
        · obtain ⟨d, hd, hcontent⟩ := hslots k' pos c hc
          rw [hcontent, hunsent pos d hd, htaker, if_pos rfl]
      · refine ⟨got, rest, hanswered.congr ?_ rfl haccepted.ge (by simp [hprogram])
          fun pos c hc => ?_⟩
        · simp [Function.update_of_ne hk]
        · obtain ⟨d, hd, hcontent⟩ := hslots k' pos c hc
          rw [htaker, if_neg fun heq => hk (Option.some.inj heq).symm, List.append_nil] at hcontent
          exact .inl ⟨d, hd, hcontent⟩

/-! ## Runs -/

theorem exchanged_start {cc : Client} (h : Client.new junk = some cc) (listenSock : Int)
    (addOk : Bool) : Exchanged t (Exchange.start cc listenSock addOk) := by
  have hfresh := new_fresh h
  have hlinked : Linked t (CallNet.start cc listenSock addOk) := linked_start h listenSock addOk
  refine ⟨hlinked, fun k c hc => absurd hc List.not_mem_nil, fun k => ⟨hfresh.reading.valid, ?_⟩,
    fun k => ⟨[], [], rfl, rfl, fun _ => rfl, [], ?_, fun pos c hc => ?_⟩⟩
  · obtain ⟨j, -, hlen⟩ := hfresh.reading.pow2
    change 1 ≤ cc.rbuf.len
    rw [hlen]
    exact one_le_pow₀ (by decide)
  · change [] = cc.rbuf.content ++ [] ++ []
    rw [hfresh.received]
    rfl
  · cases List.eq_of_mem_replicate (List.mem_of_getElem? hc.1)

/-- **One step** of a program or the server returns and keeps the calls of both directions
together. -/
theorem exchangeStep_exchanged (h : Exchanged t x) {a : ExchangeAct} (hok : ExchangeOk t x a) :
    ∃ x', exchangeStep lua junk raises t x a = some x' ∧ Exchanged t x' := by
  cases a with
  | call k i xs ret buf => exact call_exchanged h hok
  | process k recv send => exact process_exchanged h hok
  | doRecv k high => exact doRecv_exchanged h k high
  | event fuel r => exact event_exchanged h hok
  | doRead high => exact doRead_exchanged h high
  | stub vfd i xs ret buf => exact stub_exchanged h hok

/-- What was handled is the front of what was called. -/
theorem Answered.due {k : Nat} {got rest : List Call} (h : Answered x k got rest) :
    x.due k = x.got k ++ rest.map asHandled := by
  rw [Exchange.due, h.answered, h.got, List.map_append]
  rfl

/-- If nothing is on the way back, every call was handled. -/
theorem Answered.settled {k : Nat} {got rest : List Call} (h : Answered x k got rest)
    (hsettled : x.Settled k) : rest = [] := by
  obtain ⟨hback, hrbuf, o, ho, c, hc, hpeer, hwbuf⟩ := hsettled
  obtain ⟨pos, hpos⟩ := List.mem_iff_getElem?.mp ho
  cases hc
  obtain ⟨unsent, hframes, hunsent⟩ := h.underWay
  rw [← hunsent pos c ⟨hpos, hpeer⟩, hwbuf, hrbuf, hback] at hframes
  cases rest with
  | nil => rfl
  | cons d rest =>
    have hlen := congrArg List.length hframes
    rw [List.map_cons, frames_cons, List.length_append, DataBuf.length_frame] at hlen
    simp at hlen

/-- Both sides' tables with `sa` of the server and `ca` of the client. -/
def bothTables : Tables [⟨[115, 97], [.dword]⟩, clientFile [.dword]] where
  forMaker
    | .s => [[115, 97]]
    | .c => [[99, 97]]
  ptos
    | .s => [⟨0, [115, 97], [.dword], true, some [115, 97]⟩,
        ⟨1, [99, 97], [.dword], false, none⟩]
    | .c => [⟨0, [115, 97], [.dword], false, none⟩,
        ⟨1, [99, 97], [.dword], true, some [99, 97]⟩]
  loaded side := by cases side <;> rfl

/-- Program 0 connects and calls `sa(5)`. The handler answers with `ca(6)`, whose seven bytes come
in two parts. -/
def answeredCall : List ExchangeAct :=
  [.event 1126 ⟨3, 5, true, .fail .ewouldblock, .ret 0, true⟩, .doRead (fun _ => 0),
    .call 0 0 [5] (fun _ => 0) (List.replicate 100 0),
    .process 0 (.fail .ewouldblock) (.ret 7),
    .event 1126 ⟨5, -1, true, .ret [5, 0, 0, 5, 0, 0, 0], .ret 0, true⟩, .doRead (fun _ => 0),
    .stub 0 1 [6] (fun _ => 0) (List.replicate 100 0),
    .event 1126 ⟨5, -1, true, .fail .ewouldblock, .ret 4, true⟩,
    .process 0 (.ret [5, 0, 1]) (.ret 0), .doRecv 0 (fun _ => 0),
    .event 1126 ⟨5, -1, true, .fail .ewouldblock, .ret 3, true⟩,
    .process 0 (.ret [6, 0, 0, 0]) (.ret 0), .doRecv 0 (fun _ => 0)]

/-- **No answer is lost** while the connection lasts. In every such run, as soon as nothing is on
the way back to a program that has a client on the server, the program's handlers have got all that
was queued for it. -/
theorem settled_answers_got (lua : Lua) (junk : Nat → UInt8)
    (raises : Side → Nat → List LuaValue → Bool) {files : List PtoFile} (t : Tables files)
    (listenSock : Int) (addOk : Bool) :
    ∃ cc, Client.new junk = some cc ∧ ∀ (acts : List ExchangeAct) (x : Exchange),
      AllSteps (exchangeStep lua junk raises t) (ExchangeOk t)
        (Exchange.start cc listenSock addOk) acts →
        run (exchangeStep lua junk raises t) (Exchange.start cc listenSock addOk) acts = some x →
          ∀ k, x.Settled k → x.got k = x.due k := by
  obtain ⟨cc, hcc, -⟩ := Client.new_spec junk
  refine ⟨cc, hcc, fun acts x hok hrun k hsettled => ?_⟩
  obtain ⟨x', hrun', hx⟩ := run_of_allSteps (fun x a h hok => exchangeStep_exchanged h hok)
    (exchanged_start hcc listenSock addOk) hok
  cases hrun.symm.trans hrun'
  obtain ⟨got, rest, hanswered⟩ := hx.carried k
  obtain rfl := hanswered.settled hsettled
  rw [hanswered.due]
  exact (List.append_nil _).symm

theorem settled_answers_got_answered : ∃ cc, Client.new (fun _ => 0) = some cc ∧
    ∀ x, run (exchangeStep .x86 (fun _ => 0) (fun _ _ _ => false) bothTables)
        (Exchange.start cc 3 true) answeredCall = some x → x.got 0 = x.due 0 := by
  obtain ⟨cc, hcc, hall⟩ :=
    settled_answers_got .x86 (fun _ => 0) (fun _ _ _ => false) bothTables 3 true
  have hend : ∀ cc ∈ Client.new (fun _ => 0),
      ∀ x ∈ run (exchangeStep .x86 (fun _ => 0) (fun _ _ _ => false) bothTables)
        (Exchange.start cc 3 true) answeredCall, x.Settled 0 := by
    decide +kernel
  have hok : AllSteps (exchangeStep .x86 (fun _ => 0) (fun _ _ _ => false) bothTables)
      (ExchangeOk bothTables) (Exchange.start cc 3 true) answeredCall := by
    cases hcc
    decide +kernel
  exact ⟨cc, hcc, fun x hrun => hall answeredCall x hok hrun 0 (hend cc hcc x hrun)⟩

end Donkeyji.Xy3
