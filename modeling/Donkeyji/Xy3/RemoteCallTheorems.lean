/-
Donkeyji.Xy3.RemoteCallTheorems — remote calls with integer arguments arrive
once and in order.

The packs of such calls are at most 100 bytes long. For these the framing loses
nothing, the buffers of the server do not overflow, and every pack fits an
event; so of each program the calls that arrived, the packs that wait as
events, and the calls whose frames are under way are together the calls it
made (`Carried`). Each step of a program or of the server moves calls from one
part to the next.
-/
import Donkeyji.Xy3.RemoteCalls
import Donkeyji.Xy3.ReplyTheorems

namespace Donkeyji.Xy3

open Memory Runs Proto Server
open DataBuf (frame frames frames_append frames_cons frames_nil)

variable {junk : Nat → UInt8} {fuel : Nat} {r : Ready}

/-! ## The receive loop on frames -/

/-- The packs are short enough for `getPack` to see the end of each. -/
def Short (ps : List (List UInt8)) : Prop := ∀ p ∈ ps, 1 ≤ p.length ∧ p.length ≤ 100

theorem packSeenAt_short {n : Nat} (h : n ≤ 100) : DataBuf.packSeenAt n = some (n + 2) := by
  have hmod : n % 256 = n := Nat.mod_eq_of_lt (by omega)
  rw [DataBuf.packSeenAt, hmod, if_pos (by omega)]

/-- **The loop over the packs** takes the complete ones off the front of the frames, and what is
left holds no complete one. -/
theorem takePacks_frames {ps : List (List UInt8)} (hps : Short ps) {b : DataBuf} (hv : b.Valid)
    {rest : List UInt8} (hw : frames ps = b.content ++ rest) (hfuel : b.content.length < fuel) :
    ∃ qs rs b', ps = qs ++ rs ∧ takePacks fuel b = some (qs, b') ∧ b'.Valid ∧ b'.len = b.len ∧
      frames rs = b'.content ++ rest ∧ ∀ q ∈ rs.head?, b'.content.length < 2 + q.length := by
  induction ps generalizing b fuel with
  | nil =>
    obtain ⟨hempty, -⟩ := List.append_eq_nil_iff.mp hw.symm
    obtain ⟨fuel, rfl⟩ := Nat.exists_eq_succ_of_ne_zero (Nat.ne_zero_of_lt hfuel)
    have hcall := DataBuf.doRecv_short hv (by simp [hempty])
    exact ⟨[], [], b, rfl, by simp [takePacks, hcall], hv, rfl, hw, nofun⟩
  | cons p ps ih =>
    obtain ⟨hp, hps⟩ := List.forall_mem_cons.mp hps
    have hseen := packSeenAt_short hp.2
    obtain ⟨fuel, rfl⟩ := Nat.exists_eq_succ_of_ne_zero (Nat.ne_zero_of_lt hfuel)
    rcases DataBuf.doRecv_spec hv hw (by omega) with
      ⟨hnot, hcall⟩ | ⟨t, ht, hle, hlt, -⟩ | ⟨t, -, b1, hcall, hv1, hcontent, hlen⟩
    · have hshort := hnot _ hseen
      refine ⟨[], p :: ps, b, rfl, by simp [takePacks, hcall], hv, rfl, hw, fun q hq => ?_⟩
      cases hq
      omega
    · rw [hseen] at ht
      cases ht
      omega
    · have hw1 : frames ps = b1.content ++ rest := by
        rw [frames_cons, hcontent, List.append_assoc] at hw
        exact List.append_cancel_left hw
      have hless : b1.content.length < fuel := by
        rw [hcontent, List.length_append, DataBuf.length_frame] at hfuel
        omega
      obtain ⟨qs, rs, b', rfl, hloop, hv', hlen', hframes, hhead⟩ := ih hps hv1 hw1 hless
      obtain ⟨x, xs, rfl⟩ := List.exists_cons_of_ne_nil (List.ne_nil_of_length_pos hp.1)
      exact ⟨(x :: xs) :: qs, rs, b', rfl, by simp [takePacks, hcall, hloop], hv', hlen'.trans hlen,
        hframes, hhead⟩

/-! ## What the calls of a client do to its receive buffer -/

/-- A receive buffer between two events: no complete pack is in it, and its block is one that
doubling from 1024 gives. -/
structure Reading (b : DataBuf) : Prop where
  valid : b.Valid
  pow2 : b.Pow2Len
  short : b.content.length ≤ 101

variable (junk) in
theorem tryRecv_spec {c : Client} (h : Reading c.rbuf) {answer : RecvAnswer}
    (hanswer : answer.bytes.length ≤ 1024) :
    ∃ c', c.tryRecv junk answer = some c' ∧ c'.rbuf.Valid ∧ c'.rbuf.Pow2Len ∧
      c'.rbuf.content = c.rbuf.content ++ answer.bytes := by
  have hshort := h.short
  match answer with
  | .ret [] | .fail .eintr | .fail .ewouldblock | .fail .einprogress | .fail (.other _) =>
    exact ⟨_, rfl, h.valid, h.pow2, (List.append_nil _).symm⟩
  | .ret (x :: xs) =>
    have hbytes : (x :: xs).length ≤ 2 ^ 29 := hanswer.trans (by norm_num)
    obtain ⟨b, hb, hpow2⟩ := DataBuf.appendRawData_ok junk h.valid h.pow2 (by omega) hbytes
    obtain ⟨hv, hcontent⟩ := DataBuf.appendRawData_content h.valid hb
    exact ⟨{ c with rbuf := b }, by simp [Client.tryRecv, hb], hv, hpow2, hcontent⟩

theorem trySend_rbuf {c c' : Client} {answer : SendAnswer} {bytes : List UInt8}
    (h : c.trySend answer = some (bytes, c')) : c'.rbuf = c.rbuf := by
  by_cases hempty : c.wbuf.getDataSize = 0
  · rw [Client.trySend, if_pos hempty] at h
    cases h
    rfl
  · rw [Client.trySend, if_neg hempty] at h
    obtain ⟨offered, -, h⟩ := Option.bind_eq_some_iff.mp h
    cases answer with
    | ret n =>
      cases h
      rfl
    | fail err =>
      cases err <;>
      · cases h
        rfl

theorem doSend_rbuf {c c' : Client} {data : List UInt8} {res : Int}
    (h : c.doSend data = some (res, c')) : c'.rbuf = c.rbuf := by
  unfold Client.doSend at h
  obtain ⟨buf, -, hc'⟩ := Option.bind_eq_some_iff.mp h
  cases hc'
  rfl

/-- A client that has nothing in its buffers. -/
structure Client.Fresh (c : Client) : Prop where
  reading : Reading c.rbuf
  received : c.rbuf.content = []
  unsent : c.wbuf.content = []

theorem new_fresh {c : Client} (h : Client.new junk = some c) : c.Fresh := by
  unfold Client.new at h
  obtain ⟨b, hb, h⟩ := Option.bind_eq_some_iff.mp h
  obtain ⟨b', hb', h⟩ := Option.bind_eq_some_iff.mp h
  cases h
  obtain ⟨hv, hcontent, hlen⟩ := DataBuf.new_spec (by decide) hb
  obtain ⟨-, hcontent', -⟩ := DataBuf.new_spec (by decide) hb'
  exact ⟨⟨hv, ⟨10, by decide, hlen⟩, by simp [hcontent]⟩, hcontent, hcontent'⟩

/-! ## Packs of calls -/

variable {lua : Lua} {raises : Nat → List LuaValue → Bool} {files : List PtoFile}
  {t : Tables files}

/-- The pack of a call. -/
def payload (c : Call) : List UInt8 := UInt8.ofNat c.1 :: encodeDwords c.2

theorem length_payload (c : Call) : (payload c).length = 1 + 4 * c.2.length := by
  rw [payload, List.length_cons, length_encodeDwords, Nat.add_comm]

theorem short_payloads {sender : Side} {cs : List Call} (h : ∀ c ∈ cs, CallableFrom t sender c) :
    Short (cs.map payload) := by
  intro p hp
  obtain ⟨c, hc, rfl⟩ := List.mem_map.mp hp
  obtain ⟨-, -, hfit, -⟩ := h c hc
  rw [length_payload]
  omega

variable (lua) in
/-- What `marshal` writes for a call is its pack. -/
theorem marshal_payload {sender : Side} {i : Nat} {xs : List Int}
    (hcall : CallableFrom t sender (i, xs)) (conn : LuaValue) (ret : Nat → Int) {buf : List UInt8}
    (hbuf : buf.length = 100) :
    ∃ p out, (t.ptos sender)[i]? = some p ∧
      p.marshal lua sender (sender.withConn conn (xs.map .ofInt)) ret buf =
        .ret (1 + 4 * xs.length : Nat) out ∧
      readAt out 0 (1 + 4 * xs.length : Nat) = some (payload (i, xs)) := by
  obtain ⟨-, hint, hfit, p, hp, hmaker, hargs⟩ := hcall
  obtain ⟨hid, -⟩ := t.receiver hp hmaker
  dsimp only at hint hfit hp hargs hid
  obtain ⟨tail, hmarshal⟩ :=
    marshal_dwords lua sender p conn hint hargs ret buf (by omega) (by omega)
  have hlen : (payload (i, xs)).length = 1 + 4 * xs.length := length_payload (i, xs)
  refine ⟨p, _, hp, hmarshal, ?_⟩
  have hout : p.id :: (encodeDwords xs ++ tail) = payload (i, xs) ++ tail := by
    rw [payload, hid, List.cons_append]
  rw [hout, readAt_some (by omega) (by omega) (by rw [List.length_append]; omega),
    Int.toNat_natCast, ← hlen, slice, Int.toNat_zero, List.drop_zero, List.take_left' rfl]

variable (lua) in
/-- **A call of a stub** queues its pack, or leaves the bytes to send as they are. -/
theorem pack_spec {i : Nat} {xs : List Int} (hcall : Callable t (i, xs)) (ret : Nat → Int)
    {buf : List UInt8} (hbuf : buf.length = 100) {cc : Client} (hv : cc.wbuf.Valid) :
    ∃ p taken cc', (t.ptos .c)[i]? = some p ∧
      callStub lua p (xs.map .ofInt) ret buf cc = some (taken, cc') ∧ cc'.rbuf = cc.rbuf ∧
      cc'.wbuf.Valid ∧
      cc'.wbuf.content = cc.wbuf.content ++ if taken then frame (payload (i, xs)) else [] := by
  obtain ⟨p, out, hp, hmarshal, hread⟩ := marshal_payload lua hcall .nil ret hbuf
  change Pto.marshal lua .c p (xs.map .ofInt) ret buf = _ at hmarshal
  obtain ⟨-, -, hfit, -⟩ := hcall
  dsimp only at hfit
  obtain ⟨res, b, hb⟩ := appendPack_ok hv (p := payload (i, xs))
    (by rw [length_payload]; dsimp only; omega)
  obtain ⟨hv', hcases⟩ := DataBuf.appendPack_content hv hb
  refine ⟨p, decide (res = 0), { cc with wbuf := b }, hp, ?_, rfl, hv', ?_⟩
  · have hne : ¬ ((1 + 4 * xs.length : Nat) : Int) = 0 := by omega
    have hstub : Pto_c.pack lua p (xs.map .ofInt) ret buf =
        .done (some (((1 + 4 * xs.length : Nat) : Int), out)) := by
      simp only [Pto_c.pack, Pto.stub, Side.stubPacks, if_true, hmarshal, ne_eq, hne,
        not_false_eq_true]
    simp only [callStub, hstub, hookSendC, hread, Client.doSend, hb, Option.bind_eq_bind,
      Option.bind_some, Option.pure_def]
  · rcases hcases with ⟨hzero, hcontent⟩ | ⟨hnot, hcontent⟩
    · rw [hcontent, hzero]
      rfl
    · simp [hcontent, hnot]

variable (raises) in
/-- **A pack of a call** makes `unpackData` of the other side call the handler of the same index
with the same integers, whatever the handler does. -/
theorem unpackData_payload {sender : Side} {c : Call} (hcall : CallableFrom t sender c)
    (hid : LuaValue) (high : Nat → Nat) :
    ∃ res, unpackData sender.other (t.ptos sender.other) (payload c) hid high raises =
      some (res, [(c.1, sender.other.withConn hid (c.2.map .ofInt))]) := by
  obtain ⟨hidx, hint, hfit, p, hp, hmaker, hargs⟩ := hcall
  obtain ⟨-, q, hq, hqargs, func, href⟩ := t.receiver hp hmaker
  have hbyte : (UInt8.ofNat c.1).toNat = c.1 := by
    rw [UInt8.toNat_ofNat']
    omega
  have hloop := unpackLoop_dwords high [] c.2 0 0 [UInt8.ofNat c.1] [] [] hint rfl
    (by simp only [List.length_append, length_encodeDwords, List.length_singleton,
          List.length_nil]; omega)
  simp only [List.append_nil, List.singleton_append, List.nil_append, Nat.zero_add, unpackLoop,
    Nat.cast_zero] at hloop
  have hunpack : ∃ res, q.unpack sender.other (payload c) hid high (raises c.1) =
      some (res, [sender.other.withConn hid (c.2.map .ofInt)]) := by
    unfold Pto.unpack
    simp only [href, hqargs, hargs, payload, hloop]
    rw [if_neg (by simp)]
    by_cases hraise : raises c.1 (sender.other.withConn hid (c.2.map .ofInt)) = true
    · exact ⟨_, if_pos hraise⟩
    · exact ⟨_, if_neg hraise⟩
  obtain ⟨res, hres⟩ := hunpack
  have hdata : ∃ b bs, payload c = b :: bs ∧ b.toNat = c.1 := ⟨_, _, rfl, hbyte⟩
  obtain ⟨b, bs, hcons, hb⟩ := hdata
  rw [hcons] at hres ⊢
  unfold unpackData
  simp only [hb] at hq ⊢
  simp only [hq, hres]
  by_cases hneg : res < 0
  · exact ⟨_, if_pos hneg⟩
  · rw [if_neg hneg]
    by_cases hzero : res = 0 ∧ q.args.length > 0
    · exact ⟨_, if_pos hzero⟩
    · exact ⟨_, if_neg hzero⟩

/-! ## One event of a connection -/

/-- Dropping a closed connection adds no pack to the queue, and only its slot changes. -/
theorem dropClosed_spec (s : Server) (r : Ready) (pos : Nat) (ct : Client) :
    ∃ es : List Event, (s.dropClosed r pos ct).queue = s.queue ++ es ∧
      (∀ e ∈ es, e.event ≠ .netData) ∧
      ∀ (i : Nat) (d : Client), (s.dropClosed r pos ct).clients[i]? = some (some d) →
        s.clients[i]? = some (some d) := by
  unfold dropClosed
  split
  · refine ⟨[⟨.netLeave, ct.hid, []⟩], rfl, by simp, fun i d hd => ?_⟩
    change (s.clients.set pos none)[i]? = some (some d) at hd
    rw [List.getElem?_set] at hd
    split at hd
    · split at hd <;> simp at hd
    · exact hd
  · exact ⟨[], (List.append_nil _).symm, nofun, fun i d hd => hd⟩

/-- **The handling of a connection's event** takes the packs that are complete now off the front of
what its program has sent. -/
theorem dispatchConn_packs (junk : Nat → UInt8) {s : Server} {pos : Nat} {c : Client}
    (hpos : s.fpos r.fd = some pos) (hc : s.clients[pos]? = some (some c)) (hread : Reading c.rbuf)
    (hwrite : c.wbuf.Valid) (hsend : SendWithin s r) (hrecv : r.recv.bytes.length ≤ 1024)
    (hfuel : recvTurns ≤ fuel) {ps : List (List UInt8)} (hps : Short ps) {rest : List UInt8}
    (hw : frames ps = c.rbuf.content ++ r.recv.bytes ++ rest) :
    ∃ qs rs c' s', ps = qs ++ rs ∧ s.dispatchConn junk fuel r = some s' ∧ c'.key = c.key ∧
      Reading c'.rbuf ∧ frames rs = c'.rbuf.content ++ rest ∧
      (∀ q ∈ rs.head?, c'.rbuf.content.length < 2 + q.length) ∧
      (∃ es, s'.queue = s.queue ++ (qs.map (Event.ofPack c.hid) ++ es) ∧
        ∀ e ∈ es, e.event ≠ .netData) ∧
      ∀ (i : Nat) (d : Client), s'.clients[i]? = some (some d) →
        i = pos ∧ d = c' ∨ i ≠ pos ∧ s.clients[i]? = some (some d) := by
  obtain ⟨c1, hc1, hv1, hpow1, hcontent1⟩ := tryRecv_spec junk hread hrecv
  have hwbuf := (tryRecv_state hc1).1
  have hwithin : ∀ n, r.send = .ret n → (n : Int) ≤ c1.wbuf.getDataSize := by
    intro n hn
    simp only [SendWithin, hn] at hsend
    rw [hwbuf]
    exact hsend pos hpos c (by rw [hc]; rfl)
  obtain ⟨bytes, c2, hc2, -, -⟩ := trySend_spec (hwbuf ▸ hwrite) r.send hwithin
  have hrbuf := trySend_rbuf hc2
  have hshort := hread.short
  have hlen1 : c1.rbuf.content.length ≤ 1125 := by
    rw [hcontent1, List.length_append]
    omega
  obtain ⟨qs, rs, b, hsplit, hloop, hvb, hlenb, hframes, hhead⟩ :=
    takePacks_frames hps (hrbuf ▸ hv1) (hrbuf ▸ hcontent1 ▸ hw)
      (show c2.rbuf.content.length < fuel by
        rw [hrbuf]
        unfold recvTurns at hfuel
        omega)
  have hkey : Client.key { c2 with rbuf := b } = c.key := (trySend_key hc2).trans (tryRecv_key hc1)
  have hhid : c2.hid = c.hid := (Prod.mk.inj hkey).2
  have hb : Reading b := by
    refine ⟨hvb, ?_, ?_⟩
    · obtain ⟨j, hj, hlen⟩ := hpow1
      exact ⟨j, hj, by rw [hlenb, hrbuf, hlen]⟩
    · cases hrs : rs with
      | nil =>
        rw [hrs] at hframes
        rw [(List.append_eq_nil_iff.mp hframes.symm).1]
        exact Nat.zero_le _
      | cons q rs' =>
        have hq := (hps q (by rw [hsplit, hrs]; simp)).2
        have := hhead q (by rw [hrs]; rfl)
        omega
  obtain ⟨es, hqueue, hes, hslots⟩ :=
    dropClosed_spec (s.served pos { c2 with rbuf := b } qs) r pos { c2 with rbuf := b }
  refine ⟨qs, rs, { c2 with rbuf := b },
    (s.served pos { c2 with rbuf := b } qs).dropClosed r pos { c2 with rbuf := b }, hsplit, ?_,
    hkey, hb, hframes, hhead, ⟨es, ?_, hes⟩, ?_⟩
  · have hsame : Function.update s.fpos r.fd (some pos) = s.fpos :=
      Function.update_eq_self_iff.mpr hpos.symm
    simp only [dispatchConn, hpos, Option.getD_some, hsame, hc, hc1, hc2, hloop,
      Option.bind_eq_bind, Option.bind_some, Option.pure_def]
    rfl
  · rw [hqueue, ← List.append_assoc, ← hhid]
    rfl
  · intro i d hd
    have hset := hslots i d hd
    change (s.clients.set pos (some { c2 with rbuf := b }))[i]? = some (some d) at hset
    rcases client_of_set hc hset with ⟨rfl, rfl⟩ | ⟨hi, hset⟩
    · exact .inl ⟨rfl, rfl⟩
    · exact .inr ⟨Ne.symm hi, hset⟩

/-! ## Where the calls of a program are -/

variable {n n' : CallNet}

/-- A call as its handler gets it, without the connection. -/
def asHandled (c : Call) : Nat × List LuaValue := (c.1, c.2.map .ofInt)

/-- The calls `got` were handled, those in `due` wait, and the frames of `rest` are under way: all
of them ahead of the server as long as the connection has not been accepted, and the first bytes in
the receive buffer afterwards. Once the connection is gone nothing is said of them. -/
structure Carried (n : CallNet) (k : Nat) (got due rest : List Call) : Prop where
  called : n.called k = got ++ due ++ rest
  arrived : n.arrived k = got.map asHandled
  waiting : n.loop.packsOf k = due.map payload
  before : n.loop.accepted ≤ k → frames (rest.map payload) = n.ahead k
  underWay : ∀ pos c, n.loop.Has k pos c →
    frames (rest.map payload) = c.rbuf.content ++ n.ahead k
  incomplete : ∀ pos c, n.loop.Has k pos c →
    ∀ d ∈ rest.head?, c.rbuf.content.length < 2 + (payload d).length

/-- The invariant. -/
structure Linked (t : Tables files) (n : CallNet) : Prop where
  traced : Traced n.loop
  callable : ∀ k, ∀ c ∈ n.called k, Callable t c
  sending : ∀ k, (n.program k).wbuf.Valid
  reading : ∀ (pos : Nat) (c : Client), n.loop.server.clients[pos]? = some (some c) → Reading c.rbuf
  single : ∀ k pos pos' c c', n.loop.Has k pos c → n.loop.Has k pos' c' → pos = pos'
  carried : ∀ k, ∃ got due rest, Carried n k got due rest

/-- What depends on the state only through the parts that a program's calls are in. -/
theorem Carried.congr {k : Nat} {got due rest : List Call} (h : Carried n k got due rest)
    (hcalled : n'.called k = n.called k) (harrived : n'.arrived k = n.arrived k)
    (hpacks : n'.loop.packsOf k = n.loop.packsOf k) (hahead : n'.ahead k = n.ahead k)
    (haccepted : n.loop.accepted ≤ n'.loop.accepted)
    (hslots : ∀ pos c', n'.loop.Has k pos c' →
      ∃ c, n.loop.Has k pos c ∧ c'.rbuf.content = c.rbuf.content) :
    Carried n' k got due rest where
  called := hcalled.trans h.called
  arrived := harrived.trans h.arrived
  waiting := hpacks.trans h.waiting
  before hle := (h.before (haccepted.trans hle)).trans hahead.symm
  underWay pos c' hc' := by
    obtain ⟨c, hc, hcontent⟩ := hslots pos c' hc'
    rw [h.underWay pos c hc, hcontent, hahead]
  incomplete pos c' hc' := by
    obtain ⟨c, hc, hcontent⟩ := hslots pos c' hc'
    rw [hcontent]
    exact h.incomplete pos c hc

/-! ## Steps of a program -/

theorem call_linked (h : Linked t n) {k i : Nat} {xs : List Int} {ret : Nat → Int}
    {buf : List UInt8} (hok : CallOk t n (.call k i xs ret buf)) :
    ∃ n', callStep lua junk raises t n (.call k i xs ret buf) = some n' ∧ Linked t n' := by
  obtain ⟨hcall, hbuf⟩ := hok
  obtain ⟨p, taken, cc, hp, hpack, -, hv, hcontent⟩ :=
    pack_spec lua hcall ret hbuf (h.sending k)
  have hstep : callStep lua junk raises t n (.call k i xs ret buf) = some { n with
      program := Function.update n.program k cc
      called := if taken then Function.update n.called k (n.called k ++ [(i, xs)])
        else n.called } := by simp [callStep, hp, hpack]
  refine ⟨_, hstep, h.traced, ?_, ?_, h.reading, h.single, ?_⟩
  · intro k' c hc
    cases taken with
    | false => exact h.callable k' c hc
    | true =>
      by_cases hk : k' = k
      · subst hk
        simp only [if_true, Function.update_self, List.mem_append, List.mem_singleton] at hc
        rcases hc with hc | rfl
        · exact h.callable k' c hc
        · exact hcall
      · simp only [if_true, Function.update_of_ne hk] at hc
        exact h.callable k' c hc
  · intro k'
    by_cases hk : k' = k
    · subst hk
      simpa using hv
    · simpa [Function.update_of_ne hk] using h.sending k'
  · intro k'
    obtain ⟨got, due, rest, hcarried⟩ := h.carried k'
    by_cases hk : k' = k
    · subst hk
      cases taken with
      | false =>
        refine ⟨got, due, rest, hcarried.congr rfl rfl rfl ?_ le_rfl fun pos c hc => ⟨c, hc, rfl⟩⟩
        simp [CallNet.ahead, hcontent]
      | true =>
        refine ⟨got, due, rest ++ [(i, xs)], ?_, hcarried.arrived, hcarried.waiting, ?_, ?_, ?_⟩
        · simp [hcarried.called]
        · intro hle
          have hbefore := hcarried.before hle
          simp_all [CallNet.ahead]
        · intro pos c hc
          have hunder := hcarried.underWay pos c hc
          simp_all [CallNet.ahead]
        · intro pos c hc d hd
          cases rest with
          | nil =>
            have hunder := hcarried.underWay pos c hc
            rw [(List.append_eq_nil_iff.mp hunder.symm).1]
            exact Nat.lt_of_lt_of_le Nat.two_pos (Nat.le_add_right _ _)
          | cons d' rest => exact hcarried.incomplete pos c hc d hd
    · refine ⟨got, due, rest, hcarried.congr ?_ rfl rfl ?_ le_rfl fun pos c hc => ⟨c, hc, rfl⟩⟩
      · cases taken with
        | false => rfl
        | true => simp [Function.update_of_ne hk]
      · simp [CallNet.ahead, Function.update_of_ne hk]

/-- Bytes of a program that are only passed on leave all calls where they are. -/
theorem Linked.sent (h : Linked t n) {program' : Nat → Client} {wire' : Nat → List UInt8}
    (hvalid : ∀ k, (program' k).wbuf.Valid)
    (hahead : ∀ k, wire' k ++ (program' k).wbuf.content = n.ahead k) :
    Linked t { n with program := program', wire := wire' } := by
  refine ⟨h.traced, h.callable, hvalid, h.reading, h.single, fun k => ?_⟩
  obtain ⟨got, due, rest, hcarried⟩ := h.carried k
  exact ⟨got, due, rest, hcarried.congr rfl rfl rfl (hahead k) le_rfl fun pos c hc => ⟨c, hc, rfl⟩⟩

theorem process_linked (h : Linked t n) {k : Nat} {answer : SendAnswer}
    (hok : CallOk t n (.process k answer)) :
    ∃ n', callStep lua junk raises t n (.process k answer) = some n' ∧ Linked t n' := by
  by_cases hstate : (n.program k).state ≠ 2
  · exact ⟨n, by rw [callStep, if_pos hstate], h⟩
  have hwithin : ∀ m, answer = .ret m → (m : Int) ≤ (n.program k).wbuf.getDataSize := by
    intro m hm
    subst hm
    exact hok
  obtain ⟨bytes, cc, hcc, hv, hsplit⟩ := trySend_spec (h.sending k) answer hwithin
  have hstep : callStep lua junk raises t n (.process k answer) = some { n with
      program := Function.update n.program k cc
      wire := Function.update n.wire k (n.wire k ++ bytes) } := by
    simp only [callStep, if_neg hstate, hcc]
    rfl
  refine ⟨_, hstep, h.sent (fun k' => ?_) fun k' => ?_⟩ <;> by_cases hk : k' = k
  · subst hk
    simpa using hv
  · simpa [Function.update_of_ne hk] using h.sending k'
  · subst hk
    simp [CallNet.ahead, hsplit]
  · simp [CallNet.ahead, Function.update_of_ne hk]

/-! ## Steps of the server -/

/-- **Frame rule.** A step of the loop that queues and takes no pack leaves all calls where they
are. The only new client it may make is that of the connection accepted next, in an empty state. -/
theorem Linked.frame (h : Linked t n) {loop' : MainLoop} (slot : Nat) (htraced : Traced loop')
    (haccepted : n.loop.accepted ≤ loop'.accepted)
    (hpacks : ∀ k, loop'.packsOf k = n.loop.packsOf k)
    (hhas : ∀ k pos c', loop'.Has k pos c' →
      (∃ c, n.loop.Has k pos c ∧ c'.rbuf = c.rbuf) ∨
        k = n.loop.accepted ∧ pos = slot ∧ Reading c'.rbuf ∧ c'.rbuf.content = []) :
    Linked t { n with loop := loop' } := by
  refine ⟨htraced, h.callable, h.sending, ?_, ?_, ?_⟩
  · intro pos c' hc'
    rcases hhas _ pos c' ⟨hc', rfl⟩ with ⟨c, ⟨hc, -⟩, hrbuf⟩ | ⟨-, -, hread, -⟩
    · exact hrbuf ▸ h.reading pos c hc
    · exact hread
  · intro k pos pos' c' d' hc' hd'
    -- an old client's connection was accepted before
    have hold : ∀ {pos c}, n.loop.Has k pos c → k < n.loop.accepted :=
      fun hc => hc.2 ▸ h.traced.known _ _ hc.1
    rcases hhas k pos c' hc' with ⟨c, hc, -⟩ | ⟨hk, rfl, -⟩ <;>
      rcases hhas k pos' d' hd' with ⟨d, hd, -⟩ | ⟨hk', rfl, -⟩
    · exact h.single k pos pos' c d hc hd
    · exact absurd (hold hc) (by omega)
    · exact absurd (hold hd) (by omega)
    · rfl
  · intro k
    obtain ⟨got, due, rest, hcarried⟩ := h.carried k
    refine ⟨got, due, rest, hcarried.called, hcarried.arrived, (hpacks k).trans hcarried.waiting,
      fun hle => hcarried.before (haccepted.trans hle), fun pos c' hc' => ?_,
      fun pos c' hc' d hd => ?_⟩ <;>
    rcases hhas k pos c' hc' with ⟨c, hc, hrbuf⟩ | ⟨hk, -, -, hempty⟩
    · exact hrbuf ▸ hcarried.underWay pos c hc
    · rw [hempty]
      exact hcarried.before hk.ge
    · exact hrbuf ▸ hcarried.incomplete pos c hc d hd
    · rw [hempty]
      exact Nat.lt_of_lt_of_le Nat.two_pos (Nat.le_add_right _ _)

theorem doSend_returns {s : Server} (h : Table s) (vfd : Int) {data : List UInt8}
    (hv : ∀ (pos : Nat) (c : Client), s.clients[pos]? = some (some c) → c.wbuf.Valid)
    (hdata : data.length ≤ 100) : ∃ s', s.doSend vfd data = some s' := by
  by_cases hin : vfd < 0 ∨ vfd > 1024
  · exact ⟨s, by rw [doSend, if_pos hin]⟩
  rcases hc : s.clients[vfd.toNat]? with _ | _ | c
  · -- no such element: the table is too short
    have hlen := List.getElem?_eq_none_iff.mp hc
    rw [h.length, maxEpollSize] at hlen
    omega
  · exact ⟨s, by simp [doSend, hc]⟩
  · obtain ⟨res, b, hb⟩ := appendPack_ok (hv _ c hc) (show data.length ≤ 32765 by omega)
    have hsend : c.doSend data = some (res, { c with wbuf := b }) := by simp [Client.doSend, hb]
    rw [doSend_slot hin hc, hsend]
    exact ⟨_, rfl⟩

/-- The clients of two servers have the same sockets and have received the same bytes. -/
def SameReads (s s' : Server) : Prop :=
  ∀ (pos : Nat) (c' : Client), s'.clients[pos]? = some (some c') →
    ∃ c, s.clients[pos]? = some (some c) ∧ c'.sock = c.sock ∧ c'.rbuf = c.rbuf

theorem doSend_sameReads {s s' : Server} {vfd : Int} {data : List UInt8}
    (hs : s.doSend vfd data = some s') : SameReads s s' := by
  intro pos d hd
  rcases doSend_cases hs with rfl | ⟨c, res, c', hc, hc', rfl⟩
  · exact ⟨d, hd, rfl, rfl⟩
  · change (s.clients.set vfd.toNat (some c'))[pos]? = some (some d) at hd
    rcases client_of_set hc hd with ⟨rfl, rfl⟩ | ⟨-, hd⟩
    · exact ⟨c, hc, (Prod.mk.inj (doSend_key hc')).1, doSend_rbuf hc'⟩
    · exact ⟨d, hd, rfl, rfl⟩

theorem hookSendS_linked (h : Linked t n) {vfd : Int} {data : List UInt8}
    (hok : CallOk t n (.hookSendS vfd data)) :
    ∃ n', callStep lua junk raises t n (.hookSendS vfd data) = some n' ∧ Linked t n' := by
  obtain ⟨s', hs'⟩ := doSend_returns h.traced.table vfd h.traced.valid hok
  have hloop : loopStep junk n.loop (.hookSendS vfd data) = some { n.loop with server := s' } := by
    simp [loopStep, hs']
  have hstep : callStep lua junk raises t n (.hookSendS vfd data) =
      some { n with loop := { n.loop with server := s' } } := by
    simp [callStep, hloop]
  refine ⟨_, hstep, h.frame 0 (hookSendS_traced h.traced hloop) le_rfl (fun k => rfl) ?_⟩
  rintro k pos c' ⟨hslot, hpeer⟩
  obtain ⟨c, hc, hsock, hrbuf⟩ := doSend_sameReads hs' pos c' hslot
  exact .inl ⟨c, ⟨hc, hsock ▸ hpeer⟩, hrbuf⟩

/-- The first waiting event is taken out. -/
theorem packsOf_cons {l : MainLoop} {e : Event} {k : Nat} {xs : List (Event × Nat)}
    (h : l.waiting = (e, k) :: xs) (k' : Nat) (server : Server) (current : Option (Event × Nat)) :
    l.packsOf k' = (if k = k' ∧ e.event = .netData then [e.data] else []) ++
      MainLoop.packsOf { l with server := server, waiting := xs, current := current } k' := by
  unfold MainLoop.packsOf
  rw [h, List.filter_cons]
  by_cases hk : k = k' ∧ e.event = .netData
  · rw [if_pos (decide_eq_true hk), if_pos hk]
    rfl
  · rw [if_neg (by simpa using hk), if_neg hk]
    rfl

theorem doRead_linked (h : Linked t n) (high : Nat → Nat) :
    ∃ n', callStep lua junk raises t n (.doRead high) = some n' ∧ Linked t n' := by
  have hloop : loopStep junk n.loop .doRead = some { n.loop with
      server := n.loop.server.doRead
      waiting := n.loop.waiting.tail
      current := n.loop.waiting.head? } := rfl
  have htraced := doRead_traced h.traced hloop
  match hw : n.loop.waiting with
  | [] =>
    rw [hw] at htraced
    refine ⟨_, by simp [callStep, loopStep, hw],
      h.frame 0 htraced le_rfl (fun k => ?_) fun k pos c hc => .inl ⟨c, hc, rfl⟩⟩
    simp [MainLoop.packsOf, hw]
  | (e, k) :: xs =>
    rw [hw] at htraced
    have hcons := fun k' => packsOf_cons hw k' n.loop.server.doRead (some (e, k))
    by_cases hdata : e.event = .netData
    · -- the first call that waits is handled
      obtain ⟨got, due, rest, hcarried⟩ := h.carried k
      have hwaiting := hcarried.waiting
      rw [hcons, if_pos ⟨rfl, hdata⟩, List.singleton_append] at hwaiting
      obtain ⟨d, due', rfl, hd, hdue⟩ := List.map_eq_cons_iff.mp hwaiting.symm
      have hcall : Callable t d := h.callable k d (by simp [hcarried.called])
      obtain ⟨res, hun⟩ := unpackData_payload raises hcall (.ofInt e.hid) high
      rw [hd] at hun
      change ProtoMgr_s.unpackData (t.ptos .s) e.data (.ofInt e.hid) high raises = _ at hun
      have hstep : callStep lua junk raises t n (.doRead high) = some { n with
          loop := { n.loop with
            server := n.loop.server.doRead, waiting := xs, current := some (e, k) }
          handled := Function.update n.handled k
            (n.handled k ++ [(d.1, .ofInt e.hid :: d.2.map .ofInt)]) } := by
        simp [callStep, loopStep, hw, hdata, hun, Side.other, Side.withConn]
      refine ⟨_, hstep, htraced, h.callable, h.sending, h.reading, h.single, fun k' => ?_⟩
      by_cases hk : k' = k
      · subst hk
        refine ⟨got ++ [d], due', rest, ?_, ?_, hdue.symm, hcarried.before, hcarried.underWay,
          hcarried.incomplete⟩
        · simp [hcarried.called]
        · have harrived := hcarried.arrived
          simp only [CallNet.arrived] at harrived
          simp [CallNet.arrived, harrived, asHandled]
      · obtain ⟨got', due', rest', hcarried'⟩ := h.carried k'
        refine ⟨got', due', rest', hcarried'.congr rfl ?_ ?_ rfl le_rfl
          fun pos c hc => ⟨c, hc, rfl⟩⟩
        · simp [CallNet.arrived, Function.update_of_ne hk]
        · rw [hcons k', if_neg fun hand => hk hand.1.symm]
          rfl
    · have hstep : callStep lua junk raises t n (.doRead high) = some { n with
          loop := { n.loop with
            server := n.loop.server.doRead, waiting := xs, current := some (e, k) } } := by
        simp [callStep, loopStep, hw, hdata]
      refine ⟨_, hstep,
        h.frame 0 htraced le_rfl (fun k' => ?_) fun k' pos c hc => .inl ⟨c, hc, rfl⟩⟩
      rw [hcons k', if_neg fun hand => hdata hand.2]
      rfl

/-- Events behind the queue. -/
theorem packsOf_append {l loop' : MainLoop} {es : List Event} {k : Nat}
    (h : loop'.waiting = l.waiting ++ es.map fun e => (e, k)) (k' : Nat) :
    loop'.packsOf k' = l.packsOf k' ++
      if k = k' then (es.filter (·.event = .netData)).map Event.data else [] := by
  unfold MainLoop.packsOf
  rw [h, List.filter_append, List.map_append, List.filter_map, List.map_map]
  congr 1
  by_cases hk : k = k'
  · simp [hk, Function.comp_def]
  · simp [hk, Function.comp_def]

theorem dispatchListen_returns (s : Server) (junk : Nat → UInt8) (r : Ready) :
    ∃ s', s.dispatchListen junk r = some s' := by
  obtain ⟨c, hc, -⟩ := Client.new_spec junk
  unfold dispatchListen
  split
  · exact ⟨_, rfl⟩
  split
  · exact ⟨_, rfl⟩
  split
  · exact ⟨_, rfl⟩
  · rw [hc]
    split
    · exact ⟨_, rfl⟩
    · exact ⟨_, rfl⟩

variable (junk) in
/-- **An event of the listening socket** queues and takes no pack, and the only new client is that
of the connection accepted next. -/
theorem listen_loop {l : MainLoop} (h : Traced l) (hok : LoopOk l (.event fuel r))
    (hfd : r.fd = l.server.listenSock) :
    ∃ l' slot, loopStep junk l (.event fuel r) = some l' ∧ l.accepted ≤ l'.accepted ∧
      (∀ k, l'.packsOf k = l.packsOf k) ∧
      ∀ k pos c', l'.Has k pos c' → l.Has k pos c' ∨ k = l.accepted ∧ pos = slot ∧ c'.Fresh := by
  obtain ⟨-, hfresh, -⟩ := hok
  obtain ⟨s', hs'⟩ := dispatchListen_returns l.server junk r
  have hevent : l.server.dispatchEvent junk fuel r = some s' := by
    rw [dispatchEvent, if_pos hfd, hs']
  -- what is queued is no pack
  have hqueue : ∃ es : List Event, s'.queue = l.server.queue ++ es ∧
      es.filter (·.event = .netData) = [] := by
    rcases dispatchListen_cases hs' with rfl | ⟨pos, cc, -, -, -, rfl⟩
    · exact ⟨[], (List.append_nil _).symm, rfl⟩
    · exact ⟨[⟨.netNew, pos, []⟩], rfl, rfl⟩
  obtain ⟨es, hes, hnone⟩ := hqueue
  have hpacks : ∀ {l' : MainLoop} {j : Nat}, l'.waiting = l.waiting ++ l.queued s' j →
      ∀ k, l'.packsOf k = l.packsOf k := by
    intro l' j hwaiting k
    rw [packsOf_append (hwaiting.trans (congrArg (l.waiting ++ ·) (queued_eq hes _))) k, hnone]
    simp
  by_cases hgot : 0 ≤ r.accepted
  · have hloop : loopStep junk l (.event fuel r) = some {
        server := s'
        peer := Function.update l.peer r.accepted l.accepted
        accepted := l.accepted + 1
        waiting := l.waiting ++ l.queued s' l.accepted
        current := none } := by
      simp [loopStep, hevent, hfd, hgot]
    -- the number that `accept` returned is no client's
    have hpeer : ∀ {k pos : Nat} {c : Client}, l.server.clients[pos]? = some (some c) →
        Function.update l.peer r.accepted l.accepted c.sock = k → l.peer c.sock = k := by
      rintro k pos c hc rfl
      refine (Function.update_of_ne (fun heq => ?_) _ _).symm
      have hfpos := (h.table.slot pos c hc).2
      rw [heq, hfresh hfd hgot] at hfpos
      cases hfpos
    rcases dispatchListen_cases hs' with rfl | ⟨slot, cc, hfree, -, hcc, rfl⟩
    · exact ⟨_, 0, hloop, Nat.le_succ _, hpacks rfl, fun k pos c hc => .inl ⟨hc.1, hpeer hc.1 hc.2⟩⟩
    · refine ⟨_, slot, hloop, Nat.le_succ _, hpacks rfl, ?_⟩
      rintro k pos c ⟨hc, hk⟩
      change (l.server.clients.set slot (some { cc.assign r.accepted with hid := slot }))[pos]? =
        some (some c) at hc
      rcases client_of_set hfree hc with ⟨rfl, rfl⟩ | ⟨-, hc⟩
      · have hself : Function.update l.peer r.accepted l.accepted r.accepted = l.accepted :=
          Function.update_self _ _ _
        obtain ⟨hread, hreceived, hunsent⟩ := new_fresh hcc
        exact .inr ⟨hk.symm.trans hself, rfl, hread, hreceived, hunsent⟩
      · exact .inl ⟨hc, hpeer hc hk⟩
  · have hloop : loopStep junk l (.event fuel r) = some { l with
        server := s'
        waiting := l.waiting ++ l.queued s' (l.peer r.fd)
        current := none } := by
      simp [loopStep, hevent, hgot]
    refine ⟨_, 0, hloop, le_rfl, hpacks rfl, ?_⟩
    rcases dispatchListen_cases hs' with rfl | ⟨slot, cc, -, hgot', -⟩
    · exact fun k pos c hc => .inl hc
    · exact absurd hgot' hgot

theorem listen_linked (h : Linked t n) (hok : CallOk t n (.event fuel r))
    (hfd : r.fd = n.loop.server.listenSock) :
    ∃ n', callStep lua junk raises t n (.event fuel r) = some n' ∧ Linked t n' := by
  obtain ⟨hloopOk, -, -⟩ := hok
  obtain ⟨l', slot, hloop, hle, hpacks, hhas⟩ := listen_loop junk h.traced hloopOk hfd
  refine ⟨_, by simp [callStep, hloop, hfd],
    h.frame slot (event_traced h.traced hloopOk hloop) hle hpacks fun k pos c hc => ?_⟩
  rcases hhas k pos c hc with hc | ⟨hk, hpos, hfresh⟩
  · exact .inl ⟨c, hc, rfl⟩
  · exact .inr ⟨hk, hpos, hfresh.reading, hfresh.received⟩

/-- The loop after the handling of an event of connection `k` that is no new one. -/
def MainLoop.after (l : MainLoop) (server : Server) (k : Nat) : MainLoop :=
  { l with server, waiting := l.waiting ++ l.queued server k, current := none }

/-- Every pack is the data of its event. -/
theorem packs_of_events {qs rs : List (List UInt8)} (hshort : Short (qs ++ rs)) {es : List Event}
    (hes : ∀ e ∈ es, e.event ≠ .netData) {hid : Nat} :
    ((qs.map (Event.ofPack hid) ++ es).filter (·.event = .netData)).map Event.data = qs := by
  have hnone : es.filter (·.event = .netData) = [] :=
    List.filter_eq_nil_iff.mpr fun e he => by simpa using hes e he
  have hall : (qs.map (Event.ofPack hid)).filter (·.event = .netData) = qs.map (Event.ofPack hid) :=
    List.filter_eq_self.mpr fun e he => by
      obtain ⟨q, -, rfl⟩ := List.mem_map.mp he
      rfl
  rw [List.filter_append, hnone, hall, List.append_nil, List.map_map]
  refine (List.map_congr_left fun q hq => ?_).trans (List.map_id qs)
  have hq := (hshort q (List.mem_append_left _ hq)).2
  exact if_neg (by omega)

theorem conn_linked (h : Linked t n) (hok : CallOk t n (.event fuel r))
    (hfd : r.fd ≠ n.loop.server.listenSock) :
    ∃ n', callStep lua junk raises t n (.event fuel r) = some n' ∧ Linked t n' := by
  obtain ⟨hloopOk, hfuel, hrecv⟩ := hok
  obtain ⟨hreg, -, hsend⟩ := id hloopOk
  obtain ⟨hwhole, hlen⟩ := hrecv hfd
  obtain ⟨pos, hpos⟩ := Option.isSome_iff_exists.mp (hreg.resolve_left hfd)
  obtain ⟨c, hc, hsock⟩ := h.traced.table.fpos r.fd pos hpos
  have hhas : n.loop.Has (n.loop.peer r.fd) pos c := ⟨hc, by rw [hsock]⟩
  obtain ⟨wire, hwire⟩ := hwhole
  obtain ⟨got, due, rest, hcarried⟩ := h.carried (n.loop.peer r.fd)
  have hrest : ∀ d ∈ rest, Callable t d :=
    fun d hd => h.callable _ d (by rw [hcarried.called]; simp [hd])
  have hframes : frames (rest.map payload) = c.rbuf.content ++ r.recv.bytes ++
      (wire ++ (n.program (n.loop.peer r.fd)).wbuf.content) := by
    rw [hcarried.underWay pos c hhas, CallNet.ahead, ← hwire]
    simp
  obtain ⟨qs, rs, c', s', hsplit, hdispatch, hkey, hread, hleft, hhead, hevents, hslots⟩ :=
    dispatchConn_packs junk hpos hc (h.reading pos c hc) (h.traced.valid pos c hc) hsend hlen hfuel
      (short_payloads hrest) hframes
  obtain ⟨es, hqueue, hes⟩ := hevents
  obtain ⟨now, later, rfl, hnow, hlater⟩ := List.map_eq_append_iff.mp hsplit
  have hevent : n.loop.server.dispatchEvent junk fuel r = some s' := by
    rw [dispatchEvent, if_neg hfd, hdispatch]
  have hloop : loopStep junk n.loop (.event fuel r) =
      some (n.loop.after s' (n.loop.peer r.fd)) := by
    simp [loopStep, hevent, hfd, MainLoop.after]
  have hstep : callStep lua junk raises t n (.event fuel r) = some { n with
      loop := n.loop.after s' (n.loop.peer r.fd)
      wire := Function.update n.wire (n.loop.peer r.fd)
        ((n.wire (n.loop.peer r.fd)).drop r.recv.bytes.length) } := by
    simp [callStep, hloop, hfd]
  have hsock' : c'.sock = c.sock := (Prod.mk.inj hkey).1
  have hhas' : ∀ k i d, (n.loop.after s' (n.loop.peer r.fd)).Has k i d →
      ∃ e, n.loop.Has k i e ∧ (i = pos ∧ d = c' ∨ i ≠ pos ∧ d = e) := by
    rintro k i d ⟨hd, hk⟩
    rcases hslots i d hd with ⟨rfl, rfl⟩ | ⟨hi, hd'⟩
    · exact ⟨c, ⟨hc, hsock' ▸ hk⟩, .inl ⟨rfl, rfl⟩⟩
    · exact ⟨d, ⟨hd', hk⟩, .inr ⟨hi, rfl⟩⟩
  have hqueued := queued_eq (l := n.loop) hqueue (n.loop.peer r.fd)
  have hpacks : ∀ k, (n.loop.after s' (n.loop.peer r.fd)).packsOf k =
      n.loop.packsOf k ++ if n.loop.peer r.fd = k then qs else [] := by
    intro k
    rw [packsOf_append (congrArg (n.loop.waiting ++ ·) hqueued) k,
      packs_of_events (hsplit ▸ short_payloads hrest) hes]
  refine ⟨_, hstep, event_traced h.traced hloopOk hloop, h.callable, h.sending, ?_, ?_, ?_⟩
  · intro i d hd
    rcases hslots i d hd with ⟨rfl, rfl⟩ | ⟨-, hd'⟩
    · exact hread
    · exact h.reading i d hd'
  · intro k i j d d' hd hd'
    obtain ⟨e, he, -⟩ := hhas' k i d hd
    obtain ⟨e', he', -⟩ := hhas' k j d' hd'
    exact h.single k i j e e' he he'
  · intro k
    by_cases hk : k = n.loop.peer r.fd
    · subst hk
      -- the client of this program is the one that was served
      have hself : ∀ i d, (n.loop.after s' (n.loop.peer r.fd)).Has (n.loop.peer r.fd) i d →
          d = c' := by
        intro i d hd
        obtain ⟨e, he, ⟨-, rfl⟩ | ⟨hi, -⟩⟩ := hhas' _ i d hd
        · rfl
        · exact absurd (h.single _ i pos e c he hhas) hi
      refine ⟨got, due ++ now, later, ?_, hcarried.arrived, ?_, fun hle => ?_, fun i d hd => ?_,
        fun i d hd e he => ?_⟩
      · rw [hcarried.called, List.append_assoc, List.append_assoc, List.append_assoc]
      · rw [hpacks, if_pos rfl, hcarried.waiting, List.map_append, hnow]
      · have hknown := h.traced.known pos c hc
        rw [hsock] at hknown
        exact absurd hle (not_le.mpr hknown)
      · rw [hself i d hd, hlater, hleft, CallNet.ahead, ← hwire]
        simp
      · rw [hself i d hd]
        exact hhead _ (by rw [← hlater, List.head?_map, he]; rfl)
    · obtain ⟨got', due', rest', hcarried'⟩ := h.carried k
      refine ⟨got', due', rest', hcarried'.congr rfl rfl ?_ ?_ le_rfl fun i d hd => ?_⟩
      · rw [hpacks, if_neg (Ne.symm hk), List.append_nil]
      · simp [CallNet.ahead, Function.update_of_ne hk]
      · obtain ⟨e, he, ⟨rfl, -⟩ | ⟨-, rfl⟩⟩ := hhas' k i d hd
        · cases hc.symm.trans he.1
          exact absurd he.2.symm (by rw [hsock]; exact hk)
        · exact ⟨d, he, rfl⟩

/-! ## Runs -/

theorem linked_start {cc : Client} (h : Client.new junk = some cc) (listenSock : Int)
    (addOk : Bool) : Linked t (CallNet.start cc listenSock addOk) := by
  obtain ⟨c, hc, hv, hcontent⟩ := Client.new_spec junk
  rw [h] at hc
  cases hc
  have hempty : ∀ (pos : Nat) (c : Client),
      (CallNet.start cc listenSock addOk).loop.server.clients[pos]? ≠ some (some c) := by
    intro pos c hc
    cases List.eq_of_mem_replicate (List.mem_of_getElem? hc)
  refine ⟨traced_start listenSock addOk, fun k c hc => absurd hc List.not_mem_nil, fun k => hv,
    fun pos c hc => absurd hc (hempty pos c), fun k pos pos' c c' hc => absurd hc.1 (hempty pos c),
    fun k => ⟨[], [], [], rfl, rfl, rfl, fun _ => ?_, fun pos c hc => absurd hc.1 (hempty pos c),
      fun pos c hc => absurd hc.1 (hempty pos c)⟩⟩
  change [] = [] ++ cc.wbuf.content
  rw [hcontent]
  rfl

/-- **One step** of a program or the server returns and keeps the calls together. -/
theorem callStep_linked (h : Linked t n) {a : CallAct} (hok : CallOk t n a) :
    ∃ n', callStep lua junk raises t n a = some n' ∧ Linked t n' := by
  cases a with
  | call k i xs ret buf => exact call_linked h hok
  | process k answer => exact process_linked h hok
  | event fuel r =>
    by_cases hfd : r.fd = n.loop.server.listenSock
    · exact listen_linked h hok hfd
    · exact conn_linked h hok hfd
  | doRead high => exact doRead_linked h high
  | hookSendS vfd data => exact hookSendS_linked h hok

/-- The calls that arrived are those handled, and those under way come behind them. -/
theorem Carried.expected {k : Nat} {got due rest : List Call} (h : Carried n k got due rest) :
    n.expected k = n.arrived k ++ (due ++ rest).map asHandled := by
  rw [CallNet.expected, h.called, h.arrived, List.append_assoc, List.map_append]
  rfl

/-- If nothing is under way and no event waits, every call was handled. -/
theorem Carried.quiet {k : Nat} {got due rest : List Call} (h : Carried n k got due rest)
    (hquiet : n.Quiet k) {pos : Nat} {c : Client} (hhas : n.loop.Has k pos c) :
    due = [] ∧ rest = [] := by
  obtain ⟨hwire, hwbuf, hpacks⟩ := hquiet
  have hdue : due.map payload = [] := h.waiting.symm.trans hpacks
  refine ⟨List.map_eq_nil_iff.mp hdue, ?_⟩
  have hframes := h.underWay pos c hhas
  rw [CallNet.ahead, hwire, hwbuf, List.append_nil, List.append_nil] at hframes
  -- what is in the receive buffer is less than the frame of the first call
  cases rest with
  | nil => rfl
  | cons d rest =>
    have hshort := h.incomplete pos c hhas d rfl
    rw [← hframes, List.map_cons, frames_cons, List.length_append, DataBuf.length_frame] at hshort
    omega

/-- Both sides' tables with one protocol of the server, called `sa`. -/
def serverTables (args : List ArgBase) : Tables [⟨[115, 97], args⟩] where
  forMaker _ := [[115, 97]]
  ptos
    | .s => [⟨0, [115, 97], args, true, some [115, 97]⟩]
    | .c => [⟨0, [115, 97], args, false, none⟩]
  loaded side := by cases side <;> rfl

/-- Program 0 connects and calls `sa(5)`; the seven bytes come in two parts. -/
def oneCall : List CallAct :=
  [.event 1126 ⟨3, 5, true, .fail .ewouldblock, .ret 0, true⟩,
    .call 0 0 [5] (fun _ => 0) (List.replicate 100 0), .process 0 (.ret 3),
    .event 1126 ⟨5, -1, true, .ret [5, 0, 0], .ret 0, true⟩, .doRead (fun _ => 0),
    .process 0 (.ret 4), .event 1126 ⟨5, -1, true, .ret [5, 0, 0, 0], .ret 0, true⟩,
    .doRead (fun _ => 0)]

end Donkeyji.Xy3
