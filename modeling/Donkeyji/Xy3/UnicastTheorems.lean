/-
Donkeyji.Xy3.UnicastTheorems — `doSend` against `doBroadcast`.

Both call `Client::doSend` on the clients of some slots: `sendTargets` and
`broadcastTargets` say on which, and `doSend_targets` and `doBroadcast_targets`
that this is all they do. `doSend` compares `hid` with 1024, and the slots are
as many as `_max`, so the two agree on a slot unless it lies between the two
numbers (`unicast_iff`). With the 3600 slots of `EpollOp` the 1026th client
that is connected at a time is out of reach (`client_out_of_reach`).
-/
import Donkeyji.Xy3.SendTheorems
import Donkeyji.Xy3.ServerTheorems

namespace Donkeyji.Xy3

open Runs

namespace Server

/-- `Client::doSend` on the clients of some slots, one after another. -/
def sendAll (data : List UInt8) : Server → List Nat → Option Server
  | s, [] => some s
  | s, i :: is =>
    match s.clients[i]? with
    | some (some c) => do
      let (_, c) ← c.doSend data
      sendAll data { s with clients := s.clients.set i (some c) } is
    | _ => sendAll data s is

/-- The slots that `doSend` sends to; `none` if it looks outside `_clients`. -/
def sendTargets (s : Server) (hid : Int) : Option (List Nat) :=
  if hid < 0 ∨ hid > 1024 then some []
  else s.clients[hid.toNat]?.map fun o => if o.isSome then [hid.toNat] else []

/-- The slots from `k` on that hold a client. -/
def liveFrom : Nat → List (Option Client) → List Nat
  | _, [] => []
  | k, none :: cs => liveFrom (k + 1) cs
  | k, some _ :: cs => k :: liveFrom (k + 1) cs

/-- The slots that `doBroadcast` sends to. -/
def broadcastTargets (s : Server) : List Nat := liveFrom 0 s.clients

/-- `doSend` looks only into `_clients`, and sends to the slot `hid` exactly
if `doBroadcast` does. -/
def Unicast (s : Server) (hid : Int) : Prop :=
  ∃ ts, s.sendTargets hid = some ts ∧ ∀ i : Nat, i ∈ ts ↔ (i : Int) = hid ∧ i ∈ s.broadcastTargets

/-- Up to 1024 there are slots, and above there is no client. -/
def SendBound (s : Server) (hid : Int) : Prop :=
  (0 ≤ hid → hid ≤ 1024 → hid < s.clients.length) ∧ (1024 < hid → s.live hid.toNat = false)

variable {s : Server}

/-! ## What the two calls do -/

theorem doSend_targets (s : Server) (hid : Int) (data : List UInt8) :
    s.doSend hid data = (s.sendTargets hid).bind (s.sendAll data) := by
  by_cases hguard : hid < 0 ∨ hid > 1024
  · rw [doSend, sendTargets, if_pos hguard, if_pos hguard]
    rfl
  · rw [sendTargets, if_neg hguard]
    cases ho : s.clients[hid.toNat]? with
    | none =>
      rw [doSend, if_neg hguard, ho]
      rfl
    | some o =>
      cases o with
      | none =>
        rw [doSend, if_neg hguard, ho]
        rfl
      | some c =>
        rw [doSend_slot hguard ho]
        simp only [Option.map_some, Option.isSome_some, if_true, Option.bind_some, sendAll, ho]
        cases c.doSend data with
        | none => rfl
        | some r => rfl

/-- The loop of `doBroadcast` sends to the slots that are left. -/
theorem broadcastLoop_targets (data : List UInt8) (cs : List (Option Client)) :
    ∀ (done : List (Option Client)) (s : Server), s.clients = done ++ cs →
    s.sendAll data (liveFrom done.length cs) =
      (broadcastLoop data cs).map fun cs' => { s with clients := done ++ cs' } := by
  induction cs with
  | nil =>
    intro done s hs
    simp only [liveFrom, sendAll, broadcastLoop, Option.map_some, ← hs]
  | cons o cs ih =>
    intro done s hs
    cases o with
    | none =>
      have hrest := ih (done ++ [none]) s (by simpa using hs)
      rw [List.length_append, List.length_singleton] at hrest
      rw [liveFrom, hrest, broadcastLoop, Option.map_map]
      congr 1
      funext cs'
      simp
    | some c =>
      have hget : s.clients[done.length]? = some (some c) := by simp [hs]
      simp only [liveFrom, sendAll, hget, broadcastLoop]
      cases hc : c.doSend data with
      | none => rfl
      | some rc =>
        have hset : s.clients.set done.length (some rc.2) = done ++ some rc.2 :: cs := by
          simp [hs]
        have hrest := ih (done ++ [some rc.2])
          { s with clients := s.clients.set done.length (some rc.2) } (by simpa using hset)
        rw [List.length_append, List.length_singleton] at hrest
        simp only [Option.bind_eq_bind, Option.bind_some, hrest]
        cases broadcastLoop data cs with
        | none => rfl
        | some cs' => simp

theorem doBroadcast_targets (s : Server) (data : List UInt8) :
    s.doBroadcast data = s.sendAll data s.broadcastTargets :=
  (broadcastLoop_targets data s.clients [] s rfl).symm

theorem mem_liveFrom (i : Nat) (cs : List (Option Client)) : ∀ k : Nat,
    i ∈ liveFrom k cs ↔ k ≤ i ∧ (cs[i - k]?.getD none).isSome := by
  induction cs with
  | nil =>
    intro k
    simp [liveFrom]
  | cons o cs ih =>
    intro k
    have hnext : i ≠ k → (k ≤ i ↔ k + 1 ≤ i) := by omega
    have hget : k + 1 ≤ i → (o :: cs)[i - k]? = cs[i - (k + 1)]? := by
      intro hle
      rw [show i - k = i - (k + 1) + 1 by omega, List.getElem?_cons_succ]
    have hlater : i ≠ k → (i ∈ liveFrom (k + 1) cs ↔
        k ≤ i ∧ ((o :: cs)[i - k]?.getD none).isSome) := by
      intro hne
      rw [ih, hnext hne]
      refine and_congr_right ?_
      intro hle
      rw [hget hle]
    by_cases hi : i = k
    · subst hi
      have hnot : i ∉ liveFrom (i + 1) cs := by
        rw [ih]
        omega
      cases o with
      | none => simp [liveFrom, hnot]
      | some c => simp [liveFrom]
    · rw [← hlater hi]
      cases o with
      | none => rfl
      | some c => simp [liveFrom, hi]

/-- `doBroadcast` sends to every client. -/
theorem mem_broadcastTargets (s : Server) (i : Nat) :
    i ∈ s.broadcastTargets ↔ s.live i = true := by
  simp [broadcastTargets, mem_liveFrom, live]

/-! ## Where they agree -/

/-- **`doSend` and `doBroadcast` agree up to 1024.** In every state of a
server, with any number of slots, and for every `hid`: both calls send to
their targets, `doBroadcast` to every client; and `doSend` looks only into
`_clients` and sends to slot `hid` exactly if `doBroadcast` does, if and only
if there are slots up to `hid` when `hid` is at most 1024 and there is no
client in slot `hid` when it is more. -/
theorem unicast_iff (s : Server) (hid : Int) :
    (∀ data, s.doSend hid data = (s.sendTargets hid).bind (s.sendAll data)) ∧
    (∀ data, s.doBroadcast data = s.sendAll data s.broadcastTargets) ∧
    (∀ i, i ∈ s.broadcastTargets ↔ s.live i = true) ∧
    (s.Unicast hid ↔ s.SendBound hid) := by
  refine ⟨s.doSend_targets hid, s.doBroadcast_targets, s.mem_broadcastTargets, ?_⟩
  unfold Unicast SendBound sendTargets
  simp only [mem_broadcastTargets]
  by_cases hguard : hid < 0 ∨ hid > 1024
  · -- nothing is sent, so there must be no client
    simp only [hguard, if_true, Option.some.injEq, exists_eq_left', List.not_mem_nil, false_iff,
      not_and, Bool.not_eq_true]
    constructor
    · intro h
      refine ⟨by omega, ?_⟩
      intro hbig
      exact h hid.toNat (by omega)
    · intro h i hi
      have hbig : 1024 < hid := by omega
      have hdead := h.2 hbig
      rwa [← hi, Int.toNat_natCast] at hdead
  · simp only [hguard, if_false]
    cases ho : s.clients[hid.toNat]? with
    | none =>
      have hout := List.getElem?_eq_none_iff.mp ho
      refine iff_of_false (by simp) ?_
      intro h
      have hin := h.1 (by omega) (by omega)
      omega
    | some o =>
      have hin := (List.getElem?_eq_some_iff.mp ho).1
      refine iff_of_true ⟨_, rfl, ?_⟩ ⟨by omega, by omega⟩
      intro i
      have hlive : s.live hid.toNat = o.isSome := by simp [live, ho]
      have hi : (i : Int) = hid ↔ i = hid.toNat := by omega
      rw [hi]
      cases o with
      | some c =>
        simp only [Option.isSome_some, if_true, List.mem_singleton]
        refine ⟨fun he => ⟨he, ?_⟩, And.left⟩
        rw [he, hlive]
        rfl
      | none =>
        refine iff_of_false (by simp) ?_
        intro h
        rw [h.1, hlive] at h
        cases h.2

/-! ## A client that is out of reach -/

/-- Connections that come one after another and stay. -/
def accepts (n : Nat) : List ServerAct :=
  (List.range n).map fun k => .dispatch 0 [⟨3, 10 + k, true, .fail .ewouldblock, .ret 0, true⟩]

/-- The first `n` slots are taken. -/
structure Filled (s : Server) (n : Nat) : Prop where
  clients : ∃ cs, s.clients = cs ++ List.replicate (maxEpollSize - n) none ∧ cs.length = n ∧
    ∀ o ∈ cs, o.isSome = true
  count : s.count = n
  listenSock : s.listenSock = 3

/-- One more connection. -/
theorem accept_filled {n : Nat} (h : Filled s n) (hn : n < maxEpollSize) (fd : Int) (hfd : 0 ≤ fd) :
    ∃ s', serverStep (fun _ => 0) s
      (.dispatch 0 [⟨3, fd, true, .fail .ewouldblock, .ret 0, true⟩]) = some s' ∧
      Filled s' (n + 1) := by
  obtain ⟨cs, hcs, hlen, hsome⟩ := h.clients
  have hrest : List.replicate (maxEpollSize - n) (none : Option Client) =
      none :: List.replicate (maxEpollSize - (n + 1)) none := by
    rw [← List.replicate_succ]
    congr 1
    omega
  have hfree : s.freePos = some n := by
    rw [freePos, hcs, hrest, List.findIdx?_append]
    have hnone : cs.findIdx? (·.isNone) = none := by
      rw [List.findIdx?_eq_none_iff]
      intro o ho
      simpa using hsome o ho
    simp [hnone, hlen, List.findIdx?_cons]
  obtain ⟨cc, hcc, -⟩ := Client.new_spec fun _ => 0
  refine ⟨s.admitted n { cc.assign fd with hid := n }, ?_, ?_⟩
  · have hcount : ¬ s.count ≥ maxEpollSize := by
      rw [h.count]
      omega
    have hneg : ¬ fd < 0 := by omega
    simp only [serverStep, dispatch, run]
    rw [dispatchEvent, if_pos h.listenSock.symm]
    simp only [dispatchListen, hneg, hcount, hfree, hcc, if_false, if_true]
    rfl
  · refine ⟨⟨cs ++ [some { cc.assign fd with hid := n }], ?_, ?_, ?_⟩, ?_, h.listenSock⟩
    · show s.clients.set n _ = _
      rw [hcs, hrest, ← hlen]
      simp
    · simp [hlen]
    · intro o ho
      cases List.mem_append.mp ho with
      | inl ho => exact hsome o ho
      | inr ho => simp [List.mem_singleton.mp ho]
    · show s.count + 1 = _
      rw [h.count]
      push_cast
      rfl

/-- The first `n` connections take the first `n` slots. -/
theorem accepts_filled (n : Nat) (hn : n ≤ maxEpollSize) :
    ∃ s, run (serverStep fun _ => 0) (startUp 3 true) (accepts n) = some s ∧ Filled s n := by
  induction n with
  | zero =>
    refine ⟨startUp 3 true, rfl, ⟨[], ?_, rfl, by simp⟩, rfl, rfl⟩
    rfl
  | succ n ih =>
    obtain ⟨s, hrun, hfilled⟩ := ih (by omega)
    obtain ⟨s', hs', hfilled'⟩ := accept_filled hfilled hn (10 + n) (by omega)
    refine ⟨s', ?_, hfilled'⟩
    have hacts : accepts (n + 1) = accepts n ++
        [.dispatch 0 [⟨3, 10 + n, true, .fail .ewouldblock, .ret 0, true⟩]] := by
      simp [accepts, List.range_succ]
    rw [hacts, run_append, hrun]
    simp only [Option.bind_some, run, hs']

/-- **A client that cannot be sent to.** 1026 connections come and stay; the
last of them is in slot 1025. -/
theorem client_out_of_reach :
    ∃ s, run (serverStep fun _ => 0) (startUp 3 true) (accepts 1026) = some s ∧
      ¬ s.Unicast 1025 := by
  obtain ⟨s, hrun, hfilled⟩ := accepts_filled 1026 (by decide)
  refine ⟨s, hrun, ?_⟩
  obtain ⟨cs, hcs, hlen, hsome⟩ := hfilled.clients
  have hlt : 1025 < cs.length := by omega
  have hlive : s.live 1025 = true := by
    rw [live, hcs, List.getElem?_append_left hlt, List.getElem?_eq_getElem hlt]
    exact hsome _ (List.getElem_mem hlt)
  intro h
  obtain ⟨ts, hts, hmem⟩ := h
  cases hts
  have hin := (hmem 1025).2 ⟨rfl, (s.mem_broadcastTargets 1025).2 hlive⟩
  simp at hin

end Server

end Donkeyji.Xy3
