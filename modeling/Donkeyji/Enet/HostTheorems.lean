/-
Donkeyji.Enet.HostTheorems — what the memory of a host holds.

`Represents` says what the lists of the peers are: rings of exactly the
commands that were queued and not reset, each in a block of its own, and that
nothing else is allocated but the channels of the connected peers. Putting a
command in, taking the first one out, and setting up or giving back channels
keep it, so every run of calls does, and none of its steps goes wrong.
-/
import Donkeyji.Enet.Host
import Donkeyji.Lib.Ring
import Donkeyji.Lib.Runs

namespace Donkeyji.Enet

open LinkedList Runs

namespace Host

variable {h h' : Host} {p q s : NodePtr} {l m : List NodePtr}

/-! ## Lists -/

/-- `next` in a memory. -/
def nextIn (links : NodePtr → ListNode) (p : NodePtr) : NodePtr := (links p).next

/-- `previous` in a memory. -/
def previousIn (links : NodePtr → ListNode) (p : NodePtr) : NodePtr := (links p).previous

/-- A list in a memory. -/
abbrev RingIn (links : NodePtr → ListNode) (s : NodePtr) (l : List NodePtr) : Prop :=
  Ring (nextIn links) (previousIn links) s l

/-- The host with other list nodes. -/
def relink (h : Host) (links : NodePtr → ListNode) : Host := { h with links }

@[simp] theorem links_relink (links : NodePtr → ListNode) : (h.relink links).links = links := rfl
@[simp] theorem blocks_relink (links : NodePtr → ListNode) :
    (h.relink links).blocks = h.blocks := rfl
@[simp] theorem peers_relink (links : NodePtr → ListNode) : (h.relink links).peers = h.peers := rfl
@[simp] theorem relink_relink (links links' : NodePtr → ListNode) :
    (h.relink links).relink links' = h.relink links' := rfl

@[simp] theorem isNode_relink (links : NodePtr → ListNode) (p : NodePtr) :
    (h.relink links).isNode p = h.isNode p := by
  cases p <;> rfl

theorem load_eq (hp : h.isNode p = true) : h.load p = some (h.links p) := if_pos hp

/-- The links after `p->next = v`. -/
def withNext (links : NodePtr → ListNode) (p v : NodePtr) : NodePtr → ListNode :=
  Function.update links p { links p with next := v }

/-- The links after `p->previous = v`. -/
def withPrevious (links : NodePtr → ListNode) (p v : NodePtr) : NodePtr → ListNode :=
  Function.update links p { links p with previous := v }

theorem setNext_eq (hp : h.isNode p = true) (v : NodePtr) :
    h.setNext p v = some (h.relink (withNext h.links p v)) := by
  simp [setNext, load_eq hp, store, hp, relink, withNext]

theorem setPrevious_eq (hp : h.isNode p = true) (v : NodePtr) :
    h.setPrevious p v = some (h.relink (withPrevious h.links p v)) := by
  simp [setPrevious, load_eq hp, store, hp, relink, withPrevious]

variable {links : NodePtr → ListNode} {v : NodePtr}

@[simp] theorem nextIn_withNext :
    nextIn (withNext links p v) q = if q = p then v else nextIn links q := by
  unfold nextIn withNext Function.update
  split_ifs <;> simp_all

@[simp] theorem nextIn_withPrevious : nextIn (withPrevious links p v) q = nextIn links q := by
  unfold nextIn withPrevious Function.update
  split_ifs with hq
  · subst hq; rfl
  · rfl

@[simp] theorem previousIn_withNext : previousIn (withNext links p v) q = previousIn links q := by
  unfold previousIn withNext Function.update
  split_ifs with hq
  · subst hq; rfl
  · rfl

@[simp] theorem previousIn_withPrevious :
    previousIn (withPrevious links p v) q = if q = p then v else previousIn links q := by
  unfold previousIn withPrevious Function.update
  split_ifs <;> simp_all

theorem withNext_of_ne (hq : q ≠ p) : withNext links p v q = links q := Function.update_of_ne hq _ _

theorem withPrevious_of_ne (hq : q ≠ p) : withPrevious links p v q = links q :=
  Function.update_of_ne hq _ _

/-- **`enet_list_clear`** makes an empty ring. -/
theorem listClear_spec (hs : h.isNode s = true) : ∃ links, h.listClear s = some (h.relink links) ∧
    RingIn links s [] ∧ ∀ q, q ≠ s → links q = h.links q := by
  refine ⟨withPrevious (withNext h.links s s) s s, ?_, Ring.clear (by simp) (by simp),
    fun q hq => ?_⟩
  · rw [listClear, setNext_eq hs]
    exact setPrevious_eq (by simpa using hs) s
  · rw [withPrevious_of_ne hq, withNext_of_ne hq]

/-- **`enet_list_insert`** puts a node in before another one, or behind all. -/
theorem listInsert_spec {data : NodePtr} (hring : RingIn h.links s (l ++ m))
    (hnodes : ∀ q ∈ s :: (l ++ m), h.isNode q = true) (hdata : h.isNode data = true)
    (hnew : data ∉ s :: (l ++ m)) : ∃ links, h.listInsert (m.headD s) data = some (h.relink links) ∧
      RingIn links s (l ++ data :: m) ∧ ∀ q, q ∉ data :: s :: (l ++ m) → links q = h.links q := by
  have hmem : m.headD s ∈ s :: (l ++ m) := by cases m <;> simp
  have hpos : m.headD s ≠ data := fun heq => hnew (heq ▸ hmem)
  have hprev := hring.prev_mem
  have hprevne : previousIn h.links (m.headD s) ≠ data := fun heq => hnew (heq ▸ hprev)
  generalize hb : previousIn h.links (m.headD s) = b at hprev hprevne
  generalize hp : m.headD s = p at hmem hpos hb
  have hcode : h.listInsert p data = some (h.relink
      (withPrevious (withNext (withNext (withPrevious h.links data b) data p) b data) p data)) := by
    have hback : previousIn (withNext (withPrevious h.links data b) data p) data = b := by simp
    unfold previousIn at hb hback
    simp only [listInsert, Option.bind_eq_bind]
    rw [load_eq (hnodes p hmem), Option.bind_some, hb,
      setPrevious_eq hdata, Option.bind_some, setNext_eq (by simpa using hdata), Option.bind_some,
      load_eq (by simpa using hdata), Option.bind_some]
    simp only [links_relink, relink_relink]
    rw [hback, setNext_eq (by simpa using hnodes b hprev), Option.bind_some,
      setPrevious_eq (by simpa using hnodes p hmem)]
    rfl
  refine ⟨_, hcode, ?_, fun q hq => ?_⟩
  · refine hring.insert hnew hp.symm ?_ ?_ (fun c hc hc' => ?_) fun c hc hc' => ?_
    · rw [hb]
      simp [hprevne.symm]
    · rw [hb]
      simp [hpos.symm]
    · rw [hb] at hc
      simp [hc, hc']
    · simp [hc, hc']
  · simp only [List.mem_cons, List.mem_append, not_or] at hq hmem hprev
    have hqp : q ≠ p := by
      rintro rfl
      tauto
    have hqb : q ≠ b := by
      rintro rfl
      tauto
    rw [withPrevious_of_ne hqp, withNext_of_ne hqb, withNext_of_ne hq.1, withPrevious_of_ne hq.1]

/-- **`enet_list_remove`** takes a node out. -/
theorem listRemove_spec {node : NodePtr} (hring : RingIn h.links s (l ++ node :: m))
    (hnodes : ∀ q ∈ s :: (l ++ node :: m), h.isNode q = true) :
    ∃ links, h.listRemove node = some (node, h.relink links) ∧ RingIn links s (l ++ m) ∧
      ∀ q, q ∉ s :: (l ++ m) → links q = h.links q := by
  obtain ⟨hprev, hnext⟩ := hring.around_mem
  have hsub : ∀ q, q ∈ s :: (l ++ m) → q ∈ s :: (l ++ node :: m) := by
    intro q hq
    simp only [List.mem_cons, List.mem_append] at hq ⊢
    tauto
  have hnode : h.isNode node = true := hnodes node (by simp)
  have hne : ∀ q ∈ s :: (l ++ m), q ≠ node := by
    rintro q hq rfl
    have hnodup : (q :: s :: (l ++ m)).Nodup := nodup_middle_iff.mp hring.nodup
    exact (List.nodup_cons.mp hnodup).1 hq
  generalize hb : previousIn h.links node = b at hprev
  generalize ha : nextIn h.links node = a at hnext
  have hcode : h.listRemove node =
      some (node, h.relink (withPrevious (withNext h.links b a) a b)) := by
    have hnext' : nextIn (withNext h.links b a) node = a := by simp [(hne b hprev).symm, ha]
    have hprev' : previousIn (withNext h.links b a) node = b := by simp [hb]
    unfold nextIn at ha hnext'
    unfold previousIn at hb hprev'
    simp only [listRemove, Option.bind_eq_bind]
    rw [load_eq hnode, Option.bind_some, hb, ha,
      setNext_eq (hnodes b (hsub b hprev)), Option.bind_some, load_eq (by simpa using hnode),
      Option.bind_some]
    simp only [links_relink]
    rw [hnext', hprev', setPrevious_eq (by simpa using hnodes a (hsub a hnext))]
    rfl
  refine ⟨_, hcode, ?_, fun q hq => ?_⟩
  · refine hring.remove ?_ ?_ (fun c hc => ?_) fun c hc => ?_
    · simp [hb, ha]
    · simp [hb, ha]
    · rw [hb] at hc
      simp [hc]
    · rw [ha] at hc
      simp [hc]
  · have hqa : q ≠ a := fun heq => hq (heq ▸ hnext)
    have hqb : q ≠ b := fun heq => hq (heq ▸ hprev)
    rw [withPrevious_of_ne hqa, withNext_of_ne hqb]

/-! ## What the memory holds -/

/-- The nodes of a list of a peer, in order. -/
def nodesOf (cs : List Queued) (i : Nat) (l : PeerList) : List NodePtr :=
  (cs.filter (·.isIn i l)).map fun c => .block c.addr

/-- The array of a peer's channels and how many they are. -/
def channelsOf (h : Host) (i : Nat) : Option (Nat × Nat) :=
  (h.peers[i]?).bind fun p => p.channels.map (·, p.channelCount)

/-- The memory holds the commands `cs`, and channels. `ready` are the peers whose lists are set up,
and `refs` are the reference counts without the commands. -/
structure Represents (ready : Nat → Prop) (refs : Nat → Nat) (h : Host) (cs : List Queued) :
    Prop where
  bound : ∀ i, ready i → i < h.peers.length
  nodup : (cs.map Queued.addr).Nodup
  owner : ∀ c ∈ cs, ready c.peer ∧ c.list ≠ .acknowledgements
  block : ∀ c ∈ cs, h.blocks c.addr = some (.outgoingCommand c.command)
  ring : ∀ i, ready i → ∀ l, RingIn h.links (.peer i l) (nodesOf cs i l)
  array : ∀ i a n, h.channelsOf i = some (a, n) → ∃ channels,
    h.blocks a = some (.channels channels) ∧ channels.length = n ∧ 0 < n ∧
      ∀ j < n, ∀ l, RingIn h.links (.channel a j l) []
  apart : ∀ i j a m n, h.channelsOf i = some (a, m) → h.channelsOf j = some (a, n) → i = j
  used : ∀ a, h.blocks a ≠ none → a ∈ cs.map Queued.addr ∨ ∃ i n, h.channelsOf i = some (a, n)
  refs : ∀ k, h.referenceCount k =
    (refs k + cs.countP fun c => c.command.packet = some k) % 2 ^ 64

variable {ready : Nat → Prop} {refs : Nat → Nat} {cs pre post : List Queued} {c d : Queued}
  {i j : Nat} {t u : PeerList}

theorem mem_nodesOf {cs : List Queued} : p ∈ nodesOf cs i t ↔
    ∃ c ∈ cs, c.peer = i ∧ c.list = t ∧ .block c.addr = p := by
  simp [nodesOf, Queued.isIn, and_assoc]

theorem nodesOf_append (cs ds : List Queued) :
    nodesOf (cs ++ ds) i t = nodesOf cs i t ++ nodesOf ds i t := by
  simp [nodesOf]

theorem nodesOf_cons_self (c : Queued) (cs : List Queued) :
    nodesOf (c :: cs) c.peer c.list = .block c.addr :: nodesOf cs c.peer c.list := by
  simp [nodesOf, Queued.isIn]

theorem nodesOf_cons_of_not (hnot : ¬ (c.peer = i ∧ c.list = t)) (cs : List Queued) :
    nodesOf (c :: cs) i t = nodesOf cs i t := by
  simp [nodesOf, Queued.isIn, hnot]

theorem nodesOf_eq_nil (hnot : ∀ c ∈ cs, ¬ (c.peer = i ∧ c.list = t)) : nodesOf cs i t = [] := by
  rw [nodesOf, List.filter_eq_nil_iff.mpr fun c hc => by simpa [Queued.isIn] using hnot c hc]
  rfl

/-- The nodes of a list are there. -/
theorem Represents.isNode (hr : Represents ready refs h cs) (hi : ready i) :
    ∀ q ∈ .peer i t :: nodesOf cs i t, h.isNode q = true := by
  intro q hq
  rcases List.mem_cons.mp hq with rfl | hq
  · exact decide_eq_true (hr.bound i hi)
  · obtain ⟨c, hc, -, -, rfl⟩ := mem_nodesOf.mp hq
    simp [Host.isNode, hr.block c hc, Block.isNode]

/-- An address leads to one command. -/
theorem Represents.eq_of_addr (hr : Represents ready refs h cs) (hc : c ∈ cs) (hd : d ∈ cs)
    (heq : c.addr = d.addr) : c = d :=
  List.inj_on_of_nodup_map hr.nodup hc hd heq

/-- The lists of a memory have no node in common. -/
theorem Represents.disjoint (hr : Represents ready refs h cs) (hne : ¬ (i = j ∧ t = u)) :
    ∀ q ∈ .peer i t :: nodesOf cs i t, q ∉ .peer j u :: nodesOf cs j u := by
  intro q hq hq'
  rcases List.mem_cons.mp hq with rfl | hq <;> rcases List.mem_cons.mp hq' with hq' | hq'
  · cases hq'
    exact hne ⟨rfl, rfl⟩
  · obtain ⟨c, -, -, -, hc⟩ := mem_nodesOf.mp hq'
    cases hc
  · subst hq'
    obtain ⟨c, -, -, -, hc⟩ := mem_nodesOf.mp hq
    cases hc
  · obtain ⟨c, hc, rfl, rfl, rfl⟩ := mem_nodesOf.mp hq
    obtain ⟨d, hd, rfl, rfl, heq⟩ := mem_nodesOf.mp hq'
    cases hr.eq_of_addr hd hc (NodePtr.block.inj heq)
    exact hne ⟨rfl, rfl⟩

/-- A list of which no node changes. -/
theorem ring_of_links {links links' : NodePtr → ListNode} (hring : RingIn links s l)
    (hsame : ∀ q ∈ s :: l, links' q = links q) : RingIn links' s l :=
  hring.congr (fun c hc => by rw [nextIn, nextIn, hsame c hc]) fun c hc => by
    rw [previousIn, previousIn, hsame c hc]

/-- A command is not where an array of channels is. -/
theorem Represents.array_ne (hr : Represents ready refs h cs) {a n : Nat} (hc : c ∈ cs)
    (ha : h.channelsOf j = some (a, n)) : a ≠ c.addr := by
  obtain ⟨channels, hblock, -⟩ := hr.array j a n ha
  rintro rfl
  rw [hr.block c hc] at hblock
  cases hblock

/-- No command is at a free address. -/
theorem Represents.addr_ne_of_free (hr : Represents ready refs h cs) {a : Nat}
    (hfree : h.blocks a = none) (hc : c ∈ cs) : c.addr ≠ a := by
  rintro rfl
  rw [hr.block c hc] at hfree
  cases hfree

/-- No array of channels is at a free address. -/
theorem Represents.array_ne_of_free (hr : Represents ready refs h cs) {a b n : Nat}
    (hfree : h.blocks a = none) (hb : h.channelsOf j = some (b, n)) : b ≠ a := by
  obtain ⟨channels, hblock, -⟩ := hr.array j b n hb
  rintro rfl
  rw [hfree] at hblock
  cases hblock

/-- An array of channels in a memory where it and the nodes in it are the same. -/
theorem Represents.array_of (hr : Represents ready refs h cs) {a n : Nat}
    (ha : h.channelsOf j = some (a, n)) {blocks : Nat → Option Block} {links : NodePtr → ListNode}
    (hblocks : ∀ channels, h.blocks a = some (.channels channels) →
      blocks a = some (.channels channels))
    (hlinks : ∀ k u, links (.channel a k u) = h.links (.channel a k u)) :
    ∃ channels, blocks a = some (.channels channels) ∧ channels.length = n ∧ 0 < n ∧
      ∀ k < n, ∀ u, RingIn links (.channel a k u) [] := by
  obtain ⟨channels, hblock, hlen, hpos, hrings⟩ := hr.array j a n ha
  refine ⟨channels, hblocks channels hblock, hlen, hpos, fun k hk u => ?_⟩
  refine ring_of_links (hrings k hk u) fun q hq => ?_
  rw [List.mem_singleton.mp hq]
  exact hlinks k u

theorem release_referenceCount (h : Host) (packet : Option Nat) (k : Nat) :
    (h.release packet).referenceCount k =
      if packet = some k then (h.referenceCount k + (2 ^ 64 - 1)) % 2 ^ 64
      else h.referenceCount k := by
  cases packet with
  | none => simp [release]
  | some n =>
    by_cases hk : k = n
    · simp [release, hk]
    · simp [release, Function.update_of_ne hk, Ne.symm hk]

/-- **The first command of a list is taken out**, released and freed. -/
theorem Represents.pop (hr : Represents ready refs h (pre ++ c :: post)) (hpre : ∀ d ∈ pre,
    ¬ (d.peer = c.peer ∧ d.list = c.list)) :
    ∃ h1 h', h.listRemove (.block c.addr) = some (.block c.addr, h1) ∧
      dropOutgoing h1 (.block c.addr) = some h' ∧ h'.peers = h.peers ∧
      h'.outgoingBandwidth = h.outgoingBandwidth ∧ Represents ready refs h' (pre ++ post) := by
  have hmem : c ∈ pre ++ c :: post := by simp
  have hi := (hr.owner c hmem).1
  have hnone : nodesOf pre c.peer c.list = [] := nodesOf_eq_nil hpre
  have hself : nodesOf (pre ++ c :: post) c.peer c.list =
      [] ++ .block c.addr :: nodesOf post c.peer c.list := by
    rw [nodesOf_append, hnone, nodesOf_cons_self]
  have hring := hr.ring c.peer hi c.list
  rw [hself] at hring
  obtain ⟨links, hremove, hring', hframe⟩ := listRemove_spec hring
    (hself ▸ hr.isNode hi)
  -- the other lists have other nodes
  have hlinks : ∀ q, q ∉ .peer c.peer c.list :: nodesOf (pre ++ c :: post) c.peer c.list →
      links q = h.links q := by
    intro q hq
    refine hframe q fun hmem' => hq ?_
    rw [hself]
    simp only [List.mem_cons, List.nil_append] at hmem' ⊢
    tauto
  let h' : Host := { h with
    links := links
    blocks := Function.update h.blocks c.addr none
    referenceCount := (h.release c.command.packet).referenceCount }
  have hdrop : dropOutgoing (h.relink links) (.block c.addr) = some h' := by
    have hrelease : (h.relink links).release c.command.packet =
        { h with
          links := links
          referenceCount := (h.release c.command.packet).referenceCount } := by
      cases c.command.packet <;> rfl
    simp [dropOutgoing, hr.block c hmem, hrelease, free, h']
  have hnodup : ((c :: (pre ++ post)).map Queued.addr).Nodup :=
    ((List.perm_middle (a := c)).map Queued.addr).nodup_iff.mp hr.nodup
  obtain ⟨hnot, hrest⟩ := List.nodup_cons.mp hnodup
  have haddr : ∀ d ∈ pre ++ post, d.addr ≠ c.addr := fun d hd heq =>
    hnot (heq ▸ List.mem_map_of_mem hd)
  have hold : ∀ d, d ∈ pre ++ post → d ∈ pre ++ c :: post := by
    intro d hd
    simp only [List.mem_append, List.mem_cons] at hd ⊢
    tauto
  refine ⟨h.relink links, h', hremove, hdrop, rfl, rfl, hr.bound, hrest,
    fun d hd => hr.owner d (hold d hd), fun d hd => ?_, fun j hj u => ?_, fun j a n ha => ?_,
    hr.apart, fun a ha => ?_, fun k => ?_⟩
  · exact (Function.update_of_ne (haddr d hd) none h.blocks).trans (hr.block d (hold d hd))
  · by_cases hsame : c.peer = j ∧ c.list = u
    · obtain ⟨rfl, rfl⟩ := hsame
      rw [nodesOf_append, hnone]
      exact hring'
    · have hsplit : nodesOf (pre ++ post) j u = nodesOf (pre ++ c :: post) j u := by
        rw [nodesOf_append, nodesOf_append, nodesOf_cons_of_not hsame]
      rw [hsplit]
      exact ring_of_links (hr.ring j hj u) fun q hq =>
        hlinks q (hr.disjoint (fun heq => hsame ⟨heq.1.symm, heq.2.symm⟩) q hq)
  · have hne := hr.array_ne hmem ha
    exact hr.array_of ha (fun _ hb => (Function.update_of_ne hne none h.blocks).trans hb)
      fun k v => hlinks _ (by simp [mem_nodesOf])
  · have hne : a ≠ c.addr := by
      rintro rfl
      exact ha (Function.update_self _ _ _)
    rcases hr.used a (fun hnone => ha ((Function.update_of_ne hne none h.blocks).trans hnone)) with
      hmap | harray
    · left
      simp only [List.map_append, List.map_cons, List.mem_append, List.mem_cons, hne,
        false_or] at hmap ⊢
      exact hmap
    · exact .inr harray
  · have hcount := hr.refs k
    change (h.release c.command.packet).referenceCount k = _
    rw [release_referenceCount, hcount]
    simp only [List.countP_append, List.countP_cons, decide_eq_true_eq]
    split_ifs <;> omega

/-- `while (!enet_list_empty(queue))` ends at once on an empty list. -/
theorem untilEmpty_nil (body : Host → NodePtr → Option Host) {fuel : Nat} (hfuel : 0 < fuel)
    (hs : h.isNode s = true) (hring : RingIn h.links s []) : untilEmpty body s fuel h = some h := by
  obtain ⟨fuel, rfl⟩ := Nat.exists_eq_succ_of_ne_zero (Nat.ne_of_gt hfuel)
  have hempty : (h.links s).next = s := hring.eq_nil_iff.mpr rfl
  simp [untilEmpty, load_eq hs, hempty]

/-- **`enet_peer_reset_outgoing_commands`** takes out the commands of a list. -/
theorem resetOutgoing_spec (hi : ready i) (t : PeerList) {fuel : Nat}
    (hr : Represents ready refs h cs) (hfuel : cs.length < fuel) :
    ∃ h', h.resetOutgoingCommands fuel (.peer i t) = some h' ∧ h'.peers = h.peers ∧
      h'.outgoingBandwidth = h.outgoingBandwidth ∧
      Represents ready refs h' (cs.filter fun c => ¬ c.isIn i t) := by
  induction fuel generalizing h cs with
  | zero => exact absurd hfuel (Nat.not_lt_zero _)
  | succ fuel ih =>
    have hload := load_eq (hr.isNode hi (t := t) _ List.mem_cons_self)
    by_cases hany : ∃ c ∈ cs, c.isIn i t = true
    · obtain ⟨c0, hc0, hin0⟩ := hany
      obtain ⟨c, pre, post, hpre, hin, rfl, -⟩ :=
        List.exists_of_eraseP (p := (·.isIn i t)) hc0 hin0
      obtain ⟨rfl, rfl⟩ : c.peer = i ∧ c.list = t := by simpa [Queued.isIn] using hin
      have hbefore : ∀ d ∈ pre, ¬ (d.peer = c.peer ∧ d.list = c.list) := fun d hd => by
        simpa [Queued.isIn] using hpre d hd
      obtain ⟨h1, h2, hremove, hdrop, hpeers, hband, hr2⟩ := hr.pop hbefore
      have hfirst : (h.links (.peer c.peer c.list)).next = .block c.addr := by
        have hring := (hr.ring c.peer hi c.list).first
        rw [nodesOf_append, nodesOf_eq_nil hbefore, nodesOf_cons_self] at hring
        exact hring
      have hcount : (pre ++ post).length < fuel := by
        simp only [List.length_append, List.length_cons] at hfuel ⊢
        omega
      obtain ⟨h', hloop, hpeers', hband', hr'⟩ := ih hr2 hcount
      refine ⟨h', ?_, hpeers'.trans hpeers, hband'.trans hband, ?_⟩
      · simp only [resetOutgoingCommands] at hloop ⊢
        simp [untilEmpty, hload, hfirst, hremove, hdrop, hloop]
      · simpa [List.filter_append, List.filter_cons, hin] using hr'
    · have hnone : nodesOf cs i t = [] :=
        nodesOf_eq_nil fun d hd hin => hany ⟨d, hd, decide_eq_true hin⟩
      have hring := hr.ring i hi t
      rw [hnone] at hring
      have hsame : (cs.filter fun c => ¬ c.isIn i t) = cs :=
        List.filter_eq_self.mpr fun d hd => by simpa using fun hin => hany ⟨d, hd, hin⟩
      refine ⟨h, untilEmpty_nil dropOutgoing (Nat.succ_pos fuel)
        (hr.isNode hi _ List.mem_cons_self) hring, rfl, rfl, ?_⟩
      rwa [hsame]

theorem hold_referenceCount (h : Host) (packet : Option Nat) (k : Nat) :
    (h.hold packet).referenceCount k =
      if packet = some k then (h.referenceCount k + 1) % 2 ^ 64 else h.referenceCount k := by
  cases packet with
  | none => simp [hold]
  | some n =>
    by_cases hk : k = n
    · simp [hold, hk]
    · simp [hold, Function.update_of_ne hk, Ne.symm hk]

/-- **A new command is put in** behind the others of a list. -/
theorem Represents.push (hr : Represents ready refs h cs) (hi : ready c.peer)
    (hlist : c.list ≠ .acknowledgements) (hfree : h.blocks c.addr = none) :
    ∃ h', ((h.malloc c.addr (.outgoingCommand c.command)).hold c.command.packet).listInsert
        (.peer c.peer c.list) (.block c.addr) = some h' ∧ h'.peers = h.peers ∧
      h'.outgoingBandwidth = h.outgoingBandwidth ∧ Represents ready refs h' (cs ++ [c]) := by
  let h1 : Host := { h with
    blocks := Function.update h.blocks c.addr (some (.outgoingCommand c.command))
    referenceCount := (h.hold c.command.packet).referenceCount }
  have hhold : (h.malloc c.addr (.outgoingCommand c.command)).hold c.command.packet = h1 := by
    cases hp : c.command.packet <;> simp [hold, malloc, h1, hp]
  have hnew : ∀ d ∈ cs, d.addr ≠ c.addr := fun d hd => hr.addr_ne_of_free hfree hd
  have hkeep : ∀ a, a ≠ c.addr → h1.blocks a = h.blocks a :=
    fun a ha => Function.update_of_ne ha _ _
  have hblock : h1.blocks c.addr = some (.outgoingCommand c.command) := Function.update_self _ _ _
  have hnodes : ∀ q ∈ .peer c.peer c.list :: (nodesOf cs c.peer c.list ++ []),
      h1.isNode q = true := by
    intro q hq
    rw [List.append_nil] at hq
    have hold := hr.isNode hi q hq
    rcases List.mem_cons.mp hq with rfl | hq
    · exact hold
    · obtain ⟨d, hd, -, -, rfl⟩ := mem_nodesOf.mp hq
      simpa [Host.isNode, hkeep _ (hnew d hd)] using hold
  have hdata : h1.isNode (.block c.addr) = true := by simp [Host.isNode, hblock, Block.isNode]
  have hout : NodePtr.block c.addr ∉ .peer c.peer c.list :: (nodesOf cs c.peer c.list ++ []) := by
    simp only [List.append_nil, List.mem_cons, reduceCtorEq, false_or, mem_nodesOf]
    rintro ⟨d, hd, -, -, heq⟩
    exact hnew d hd (NodePtr.block.inj heq)
  obtain ⟨links, hinsert, hring, hframe⟩ := listInsert_spec (h := h1) (m := [])
    (by simpa using hr.ring c.peer hi c.list) hnodes hdata hout
  rw [List.append_nil] at hframe
  refine ⟨h1.relink links, by rw [hhold]; exact hinsert, rfl, rfl, hr.bound, ?_, fun d hd => ?_,
    fun d hd => ?_, fun j hj u => ?_, fun j a n ha => ?_, hr.apart, fun a ha => ?_, fun k => ?_⟩
  · rw [List.map_append, List.map_singleton, List.nodup_append]
    refine ⟨hr.nodup, List.nodup_singleton _, fun a ha b hb => ?_⟩
    obtain ⟨d, hd, rfl⟩ := List.mem_map.mp ha
    rw [List.mem_singleton.mp hb]
    exact hnew d hd
  · rcases List.mem_append.mp hd with hd | hd
    · exact hr.owner d hd
    · rw [List.mem_singleton.mp hd]
      exact ⟨hi, hlist⟩
  · rcases List.mem_append.mp hd with hd | hd
    · exact (hkeep _ (hnew d hd)).trans (hr.block d hd)
    · rw [List.mem_singleton.mp hd]
      exact hblock
  · by_cases hsame : c.peer = j ∧ c.list = u
    · obtain ⟨rfl, rfl⟩ := hsame
      rw [nodesOf_append, nodesOf_cons_self]
      exact hring
    · have hsplit : nodesOf (cs ++ [c]) j u = nodesOf cs j u := by
        rw [nodesOf_append, nodesOf_cons_of_not hsame]
        exact List.append_nil _
      rw [hsplit]
      refine ring_of_links (hr.ring j hj u) fun q hq => hframe q fun hmem => ?_
      rcases List.mem_cons.mp hmem with rfl | hmem
      · rcases List.mem_cons.mp hq with hq | hq
        · cases hq
        · obtain ⟨d, hd, -, -, heq⟩ := mem_nodesOf.mp hq
          exact hnew d hd (NodePtr.block.inj heq)
      · exact hr.disjoint (fun heq => hsame ⟨heq.1.symm, heq.2.symm⟩) q hq hmem
  · exact hr.array_of ha (fun _ hb => (hkeep a (hr.array_ne_of_free hfree ha)).trans hb)
      fun k v => hframe _ (by simp [mem_nodesOf])
  · by_cases hne : a = c.addr
    · exact .inl (by simp [hne])
    · refine (hr.used a fun hnone => ha ((hkeep a hne).trans hnone)).imp_left fun hmap => ?_
      simp only [List.map_append, List.mem_append]
      exact .inl hmap
  · have hcount := hr.refs k
    change (h.hold c.command.packet).referenceCount k = _
    rw [hold_referenceCount, hcount]
    simp only [List.countP_append, List.countP_cons, List.countP_nil, decide_eq_true_eq]
    split_ifs <;> omega

/-! ## Peers -/

/-- Only the number of peers and their channels matter. -/
theorem Represents.setPeers (hr : Represents ready refs h cs) {peers : List Peer}
    (hlen : peers.length = h.peers.length)
    (hsame : ∀ j, channelsOf { h with peers } j = h.channelsOf j) :
    Represents ready refs { h with peers } cs where
  bound j hj := hlen ▸ hr.bound j hj
  nodup := hr.nodup
  owner := hr.owner
  block := hr.block
  ring := hr.ring
  array j a n ha := hr.array j a n (hsame j ▸ ha)
  apart j k a m n hj hk := hr.apart j k a m n (hsame j ▸ hj) (hsame k ▸ hk)
  used a ha := by simpa only [hsame] using hr.used a ha
  refs := hr.refs

theorem channelsOf_setPeer {p : Peer} (hp : h.peers[i]? = some p) (p' : Peer) (j : Nat) :
    (h.setPeer i p').channelsOf j =
      if j = i then p'.channels.map (·, p'.channelCount) else h.channelsOf j := by
  have hlt := (List.getElem?_eq_some_iff.mp hp).1
  unfold channelsOf setPeer
  by_cases hj : j = i
  · subst hj
    simp [List.getElem?_set_self hlt]
  · simp [List.getElem?_set_ne (Ne.symm hj), hj]

theorem channelsOf_eq {p : Peer} (hp : h.peers[i]? = some p) :
    h.channelsOf i = p.channels.map (·, p.channelCount) := by
  simp [channelsOf, hp]

/-- A peer changes, but not its channels. -/
theorem Represents.setPeer (hr : Represents ready refs h cs) {p p' : Peer}
    (hp : h.peers[i]? = some p) (hchannels : p'.channels = p.channels)
    (hcount : p'.channelCount = p.channelCount) : Represents ready refs (h.setPeer i p') cs := by
  refine hr.setPeers (by simp) fun j => ?_
  refine (channelsOf_setPeer hp _ j).trans ?_
  split_ifs with hj
  · rw [hj, channelsOf_eq hp, hchannels, hcount]
  · rfl

/-- **The channels of a peer are given back.** -/
theorem Represents.dropChannels (hr : Represents ready refs h cs) {p : Peer} {fuel : Nat}
    (hp : h.peers[i]? = some p) (hfuel : 0 < fuel) :
    ∃ h1, h.resetChannels fuel p = some h1 ∧ h1.peers = h.peers ∧
      h1.outgoingBandwidth = h.outgoingBandwidth ∧
      Represents ready refs (h1.setPeer i { p with channels := none, channelCount := 0 }) cs := by
  cases hchannels : p.channels with
  | none =>
    refine ⟨h, by simp [resetChannels, hchannels], rfl, rfl, hr.setPeers (by simp) fun j => ?_⟩
    refine (channelsOf_setPeer hp _ j).trans ?_
    split_ifs with hj
    · rw [hj, channelsOf_eq hp, hchannels]
      rfl
    · rfl
  | some a =>
    have hof : h.channelsOf i = some (a, p.channelCount) := by rw [channelsOf_eq hp, hchannels]; rfl
    obtain ⟨channels, hblock, hlen, hpos, hrings⟩ := hr.array i a p.channelCount hof
    have hturn : ∀ j todo h', (h' = h ∧ ∀ k ∈ j :: todo, k < p.channelCount) →
        ∃ h'', resetChannel fuel a h' j = some h'' ∧ h'' = h ∧ ∀ k ∈ todo, k < p.channelCount := by
      rintro j todo h' ⟨rfl, hall⟩
      have hj := hall j List.mem_cons_self
      have hnode : ∀ u, h'.isNode (.channel a j u) = true := fun u => by
        simp [Host.isNode, hblock, hlen, hj]
      refine ⟨h', ?_, rfl, fun k hk => hall k (List.mem_cons_of_mem j hk)⟩
      simp [resetChannel, resetIncomingCommands,
        untilEmpty_nil dropIncoming hfuel (hnode _) (hrings j hj _)]
    obtain ⟨h', hloop, rfl, -⟩ := foldlM_todo
      (fun todo h' => h' = h ∧ ∀ k ∈ todo, k < p.channelCount) hturn (List.range p.channelCount) h
      ⟨rfl, fun j hj => List.mem_range.mp hj⟩
    refine ⟨{ h' with blocks := Function.update h'.blocks a none }, ?_, rfl, rfl, ?_⟩
    · simp only [resetChannels, hchannels, hpos, if_true, hloop]
      simp [free, hblock]
    · have hnew : ∀ j, channelsOf (h'.setPeer i { p with channels := none, channelCount := 0 }) j =
          if j = i then none else h'.channelsOf j := channelsOf_setPeer hp _
      have hkeep : ∀ b, b ≠ a → Function.update h'.blocks a none b = h'.blocks b := fun b hb =>
        Function.update_of_ne hb none h'.blocks
      refine ⟨fun j hj => by simpa [Host.setPeer] using hr.bound j hj, hr.nodup, hr.owner,
        fun c hc => (hkeep _ (hr.array_ne hc hof).symm).trans (hr.block c hc), hr.ring,
        fun j b n hb => ?_, fun j k b m n hj hk => ?_, fun b hb => ?_, hr.refs⟩
      · have hb' := (hnew j).symm.trans hb
        split_ifs at hb' with hj
        have hne : b ≠ a := by
          rintro rfl
          exact hj (hr.apart j i b n _ hb' hof)
        exact hr.array_of hb' (fun _ hb => (hkeep b hne).trans hb) fun _ _ => rfl
      · have hj' := (hnew j).symm.trans hj
        have hk' := (hnew k).symm.trans hk
        split_ifs at hj' hk'
        exact hr.apart j k b m n hj' hk'
      · have hne : b ≠ a := by
          rintro rfl
          exact hb (Function.update_self _ _ _)
        refine (hr.used b fun hnone => hb ((hkeep b hne).trans hnone)).imp_right ?_
        rintro ⟨j, n, hj⟩
        refine ⟨j, n, (hnew j).trans ?_⟩
        rw [if_neg, hj]
        rintro rfl
        rw [hof] at hj
        cases hj
        exact hne rfl

/-- **`enet_peer_reset`** frees all that was queued for a peer, and its channels. -/
theorem peerReset_spec (hr : Represents ready refs h cs) (hi : ready i) {fuel : Nat} {p : Peer}
    (hp : h.peers[i]? = some p) (hfuel : cs.length < fuel) :
    ∃ h', h.peerReset fuel i = some h' ∧
      h'.peers = h.peers.set i { resetFields p with channels := none, channelCount := 0 } ∧
      h'.outgoingBandwidth = h.outgoingBandwidth ∧
      Represents ready refs h' (cs.filter fun c => c.peer ≠ i) := by
  have hp0 : (h.setPeer i (resetFields p)).peers[i]? = some (resetFields p) :=
    List.getElem?_set_self (List.getElem?_eq_some_iff.mp hp).1
  have hr0 : Represents ready refs (h.setPeer i (resetFields p)) cs := hr.setPeer hp rfl rfl
  have hnone : nodesOf cs i .acknowledgements = [] :=
    nodesOf_eq_nil fun d hd hin => (hr.owner d hd).2 hin.2
  have hacks := untilEmpty_nil freeNode (Nat.zero_lt_of_lt hfuel)
    (hr0.isNode hi _ List.mem_cons_self) (hnone ▸ hr0.ring i hi .acknowledgements)
  have hless : ∀ {f : Queued → Bool} {cs' : List Queued}, cs'.length < fuel →
      (cs'.filter f).length < fuel := fun h => lt_of_le_of_lt (List.length_filter_le _ _) h
  obtain ⟨h1, hc1, hp1, hb1, hr1⟩ := resetOutgoing_spec hi .sentReliableCommands hr0 hfuel
  obtain ⟨h2, hc2, hp2, hb2, hr2⟩ :=
    resetOutgoing_spec hi .sentUnreliableCommands hr1 (hless hfuel)
  obtain ⟨h3, hc3, hp3, hb3, hr3⟩ :=
    resetOutgoing_spec hi .outgoingReliableCommands hr2 (hless (hless hfuel))
  obtain ⟨h4, hc4, hp4, hb4, hr4⟩ :=
    resetOutgoing_spec hi .outgoingUnreliableCommands hr3 (hless (hless (hless hfuel)))
  have hpeers : h4.peers = (h.setPeer i (resetFields p)).peers := by rw [hp4, hp3, hp2, hp1]
  obtain ⟨h5, hc5, hp5, hb5, hr5⟩ := hr4.dropChannels (hpeers ▸ hp0) (Nat.zero_lt_of_lt hfuel)
  have hleft : ((((cs.filter fun c => ¬ c.isIn i .sentReliableCommands).filter
      fun c => ¬ c.isIn i .sentUnreliableCommands).filter
      fun c => ¬ c.isIn i .outgoingReliableCommands).filter
      fun c => ¬ c.isIn i .outgoingUnreliableCommands) = cs.filter fun c => c.peer ≠ i := by
    simp only [List.filter_filter]
    refine List.filter_congr fun c hc => ?_
    have hack := (hr.owner c hc).2
    cases hlist : c.list <;> simp_all [Queued.isIn]
  refine ⟨_, ?_, ?_, ?_, hleft ▸ hr5⟩
  · simp only [peerReset, hp, Option.bind_eq_bind, Option.bind_some, peerResetQueues, hacks, hc1,
      hc2, hc3, hc4, hpeers ▸ hp0, hc5]
    rfl
  · simp [setPeer, hp5, hpeers]
  · exact hb5.trans (hb4.trans (hb3.trans (hb2.trans hb1)))

theorem listOf_ne (command : Protocol) : listOf command ≠ .acknowledgements := by
  unfold listOf
  split_ifs <;> decide

theorem connectCommand_size (p : Peer) (channelCount : Nat) :
    ((connectCommand p channelCount).header.command &&& 0x0f).toNat < 12 := by
  change ((2 : UInt8) &&& 0x0f).toNat < 12
  decide

/-- A command that is queued has the number that its peer has then. -/
theorem queuedBy_eq {p : Peer} (hp : h.peers[i]? = some p) (command : Protocol)
    (packet : Option Nat) (offset : UInt32) (length : UInt16) (addr : Nat) (raw : OutgoingCommand)
    (size : UInt32) : h.queuedBy i command packet offset length addr raw =
      [⟨i, listOf command, addr, makeCommand raw
        (countCommand p command size length).outgoingReliableSequenceNumber command packet offset
        length⟩] := by
  rw [queuedBy, hp]
  rfl

/-- **`enet_peer_queue_outgoing_command`** queues a command. -/
theorem queueOutgoingCommand_spec (hr : Represents ready refs h cs) (hi : ready i) {p : Peer}
    (hp : h.peers[i]? = some p) {command : Protocol}
    (hsize : (command.header.command &&& 0x0f).toNat < 12) {addr : Nat}
    (hfree : h.blocks addr = none) (packet : Option Nat) (offset : UInt32) (length : UInt16)
    (raw : OutgoingCommand) :
    ∃ size h', h.queueOutgoingCommand i command packet offset length addr raw = some h' ∧
      h'.peers = h.peers.set i (countCommand p command size length) ∧
      h'.outgoingBandwidth = h.outgoingBandwidth ∧
      Represents ready refs h' (cs ++ h.queuedBy i command packet offset length addr raw) := by
  obtain ⟨size, hs⟩ : ∃ size, protocolCommandSize command.header.command = some size :=
    ⟨_, List.getElem?_eq_getElem hsize⟩
  have hr0 : Represents ready refs (h.setPeer i (countCommand p command size length)) cs :=
    hr.setPeer hp rfl rfl
  let number := (countCommand p command size length).outgoingReliableSequenceNumber
  obtain ⟨h', hinsert, hpeers, hband, hr'⟩ := hr0.push
    (c := ⟨i, listOf command, addr, makeCommand raw number command packet offset length⟩) hi
    (listOf_ne command) hfree
  refine ⟨size, h', ?_, hpeers, hband, ?_⟩
  · simp only [queueOutgoingCommand, hp, hs, Option.bind_eq_bind, Option.bind_some]
    exact hinsert
  · rw [queuedBy_eq hp command packet offset length addr raw size]
    exact hr'

/-- Many lists are cleared. -/
theorem clearAll_spec {nodes : List NodePtr} (hnodes : ∀ s ∈ nodes, h.isNode s = true) :
    ∃ links, nodes.foldlM listClear h = some (h.relink links) ∧
      (∀ s ∈ nodes, RingIn links s []) ∧ ∀ q, q ∉ nodes → links q = h.links q := by
  induction nodes generalizing h with
  | nil => exact ⟨h.links, rfl, by simp, fun q _ => rfl⟩
  | cons s nodes ih =>
    obtain ⟨links1, hclear, hring, hframe⟩ := listClear_spec (hnodes s List.mem_cons_self)
    obtain ⟨links, hrest, hrings, hframe'⟩ := ih (h := h.relink links1) fun t ht => by
      simpa using hnodes t (List.mem_cons_of_mem s ht)
    refine ⟨links, ?_, fun t ht => ?_, fun q hq => ?_⟩
    · rw [List.foldlM_cons, hclear]
      exact hrest
    · by_cases hmem : t ∈ nodes
      · exact hrings t hmem
      · obtain rfl : t = s := (List.mem_cons.mp ht).resolve_right hmem
        refine ring_of_links hring fun q hq => ?_
        rw [List.mem_singleton.mp hq]
        exact hframe' t hmem
    · rw [List.mem_cons, not_or] at hq
      exact (hframe' q hq.2).trans (hframe q hq.1)

/-- The sentinels of a channel. -/
def channelNodes (a j : Nat) : List NodePtr :=
  [.channel a j .incomingReliableCommands, .channel a j .incomingUnreliableCommands]

theorem clearChannels_eq (a : Nat) (js : List Nat) (h : Host) :
    js.foldlM (clearChannel a) h = (js.flatMap (channelNodes a)).foldlM listClear h := by
  induction js generalizing h with
  | nil => rfl
  | cons j js ih =>
    have hone : clearChannel a h j = (channelNodes a j).foldlM listClear h := by
      simp [clearChannel, channelNodes]
    rw [List.flatMap_cons, List.foldlM_append, List.foldlM_cons, hone]
    exact congrArg _ (funext ih)

theorem mem_channelNodes {a j : Nat} {u : ChannelList} : .channel a j u ∈ channelNodes a j := by
  cases u <;> simp [channelNodes]

/-- **Channels are allocated** for a peer that has none, and their lists cleared. -/
theorem Represents.addChannels (hr : Represents ready refs h cs) {p : Peer} {a n : Nat}
    (hp : h.peers[i]? = some p) (hnone : p.channels = none) (hfree : h.blocks a = none)
    (hn : 0 < n) {p' : Peer} (hchannels : p'.channels = some a) (hcount : p'.channelCount = n) :
    ∃ h', clearChannels ((h.malloc a (.channels (List.replicate n ⟨0, 0⟩))).setPeer i p') a n =
        some h' ∧ h'.peers = h.peers.set i p' ∧ h'.outgoingBandwidth = h.outgoingBandwidth ∧
      (∀ b, b ≠ a → h'.blocks b = h.blocks b) ∧ Represents ready refs h' cs := by
  let h1 := (h.malloc a (.channels (List.replicate n ⟨0, 0⟩))).setPeer i p'
  have hblock : h1.blocks a = some (.channels (List.replicate n ⟨0, 0⟩)) :=
    Function.update_self _ _ _
  have hkeep : ∀ b, b ≠ a → h1.blocks b = h.blocks b := fun b hb => Function.update_of_ne hb _ _
  have hnodes : ∀ s ∈ (List.range n).flatMap (channelNodes a), h1.isNode s = true := by
    intro s hs
    obtain ⟨j, hj, hs⟩ := List.mem_flatMap.mp hs
    have hlt := List.mem_range.mp hj
    simp only [channelNodes, List.mem_cons, List.not_mem_nil, or_false] at hs
    rcases hs with rfl | rfl <;> simp [Host.isNode, hblock, hlt]
  obtain ⟨links, hclear, hrings, hframe⟩ := clearAll_spec hnodes
  have hother : ∀ q, (∀ j u, q ≠ .channel a j u) → links q = h.links q := by
    intro q hq
    refine hframe q fun hmem => ?_
    obtain ⟨j, -, hmem⟩ := List.mem_flatMap.mp hmem
    simp only [channelNodes, List.mem_cons, List.not_mem_nil, or_false] at hmem
    rcases hmem with rfl | rfl
    · exact hq j _ rfl
    · exact hq j _ rfl
  have hnew : ∀ j, (h1.relink links).channelsOf j =
      if j = i then some (a, n) else h.channelsOf j := by
    intro j
    refine (channelsOf_setPeer hp p' j).trans ?_
    rw [hchannels, hcount]
    rfl
  have hunused : ∀ j b m, h.channelsOf j = some (b, m) → b ≠ a := fun j b m hb =>
    hr.array_ne_of_free hfree hb
  refine ⟨h1.relink links, (clearChannels_eq a _ h1).trans hclear, rfl, rfl, hkeep,
    fun j hj => by simpa [h1, Host.setPeer, malloc] using hr.bound j hj, hr.nodup, hr.owner,
    fun c hc => (hkeep _ (hr.addr_ne_of_free hfree hc)).trans (hr.block c hc),
    fun j hj u => ring_of_links (hr.ring j hj u) fun q hq => hother q ?_,
    fun j b m hb => ?_, fun j k b m m' hj hk => ?_, fun b hb => ?_, hr.refs⟩
  · rintro k v rfl
    rcases List.mem_cons.mp hq with hq | hq
    · cases hq
    · obtain ⟨c, -, -, -, hc⟩ := mem_nodesOf.mp hq
      cases hc
  · rw [hnew] at hb
    split_ifs at hb with hj
    · cases hb
      refine ⟨_, hblock, List.length_replicate, hn, fun k hk u => hrings _ ?_⟩
      exact List.mem_flatMap.mpr ⟨k, List.mem_range.mpr hk, mem_channelNodes⟩
    · refine hr.array_of hb (fun _ hb' => (hkeep b (hunused j b m hb)).trans hb')
        fun k u => hother _ fun k' v heq => ?_
      cases heq
      exact hunused j a m hb rfl
  · rw [hnew] at hj hk
    split_ifs at hj hk with hj' hk' hk'
    · exact hj'.trans hk'.symm
    · cases hj
      exact absurd rfl (hunused k a m' hk)
    · cases hk
      exact absurd rfl (hunused j a m hj)
    · exact hr.apart j k b m m' hj hk
  · by_cases hne : b = a
    · exact .inr ⟨i, n, by rw [hnew, if_pos rfl, hne]⟩
    · refine (hr.used b fun hnone' => hb ((hkeep b hne).trans hnone')).imp_right ?_
      rintro ⟨j, m, hj⟩
      refine ⟨j, m, ?_⟩
      rw [hnew, if_neg, hj]
      rintro rfl
      rw [channelsOf_eq hp, hnone] at hj
      cases hj

/-- Sentinels of peers are written to. -/
theorem Represents.relink (hr : Represents ready refs h cs) {ready' : Nat → Prop}
    {links : NodePtr → ListNode} (hbound : ∀ j, ready' j → j < h.peers.length)
    (howner : ∀ c ∈ cs, ready' c.peer)
    (hring : ∀ j, ready' j → ∀ u, RingIn links (.peer j u) (nodesOf cs j u))
    (hother : ∀ q, (∀ j u, q ≠ .peer j u) → links q = h.links q) :
    Represents ready' refs (h.relink links) cs where
  bound := hbound
  nodup := hr.nodup
  owner c hc := ⟨howner c hc, (hr.owner c hc).2⟩
  block := hr.block
  ring := hring
  array j a n ha := hr.array_of ha (fun _ hb => hb) fun _ _ => hother _ fun j u heq => by cases heq
  apart := hr.apart
  used := hr.used
  refs := hr.refs

/-- The sentinels of a peer in the order of `enet_host_create`. -/
def peerNodes (i : Nat) : List NodePtr :=
  [.peer i .acknowledgements, .peer i .outgoingReliableCommands,
    .peer i .outgoingUnreliableCommands, .peer i .sentReliableCommands,
    .peer i .sentUnreliableCommands]

theorem createPeer_eq {p : Peer} (hp : h.peers[i]? = some p) :
    createPeer h i =
      (peerNodes i).foldlM listClear (h.setPeer i { p with incomingPeerID := i.toUInt16 }) >>=
        fun h => h.peerReset 1 i := by
  simp [createPeer, peerNodes, hp, Option.bind_assoc]

/-- A peer of a new host is set up, the ones in `todo` are not yet. -/
theorem createPeer_spec {todo : List Nat} {n : Nat}
    (hr : Represents (fun j => j < n ∧ j ∉ i :: todo) refs h []) (hlen : h.peers.length = n)
    (hi : i < n) (hnot : i ∉ todo) (hnone : ∀ p ∈ h.peers, p.channels = none) :
    ∃ h', createPeer h i = some h' ∧ Represents (fun j => j < n ∧ j ∉ todo) refs h' [] ∧
      h'.peers.length = n ∧ ∀ p ∈ h'.peers, p.channels = none := by
  obtain ⟨p, hp⟩ : ∃ p, h.peers[i]? = some p := ⟨_, List.getElem?_eq_getElem (hlen ▸ hi)⟩
  let h0 := h.setPeer i { p with incomingPeerID := i.toUInt16 }
  have hr0 : Represents (fun j => j < n ∧ j ∉ i :: todo) refs h0 [] := hr.setPeer hp rfl rfl
  have hlen0 : h0.peers.length = n := by simp [h0, Host.setPeer, hlen]
  have hnodes : ∀ s ∈ peerNodes i, h0.isNode s = true := by
    intro s hs
    simp only [peerNodes, List.mem_cons, List.not_mem_nil, or_false] at hs
    rcases hs with rfl | rfl | rfl | rfl | rfl <;> simp [Host.isNode, hlen0, hi]
  obtain ⟨links, hclear, hrings, hframe⟩ := clearAll_spec hnodes
  have hmem : ∀ j u, NodePtr.peer j u ∈ peerNodes i ↔ j = i := by
    intro j u
    cases u <;> simp [peerNodes]
  have hr1 : Represents (fun j => j < n ∧ j ∉ todo) refs (h0.relink links) [] := by
    refine hr0.relink (fun j hj => hlen0 ▸ hj.1) (by simp) (fun j hj u => ?_) fun q hq => ?_
    · by_cases hji : j = i
      · exact hrings _ ((hmem j u).mpr hji)
      · refine ring_of_links (hr0.ring j ⟨hj.1, by simp [hji, hj.2]⟩ u) fun q hq => ?_
        rw [List.mem_singleton.mp hq]
        exact hframe _ fun hin => hji ((hmem j u).mp hin)
    · refine hframe q fun hin => ?_
      simp only [peerNodes, List.mem_cons, List.not_mem_nil, or_false] at hin
      rcases hin with rfl | rfl | rfl | rfl | rfl <;> exact hq _ _ rfl
  have hp1 : (h0.relink links).peers[i]? = some { p with incomingPeerID := i.toUInt16 } :=
    List.getElem?_set_self (hlen ▸ hi)
  obtain ⟨h', hreset, hpeers, -, hr'⟩ := peerReset_spec hr1 ⟨hi, hnot⟩ hp1 (Nat.zero_lt_one)
  refine ⟨h', ?_, hr', ?_, fun q hq => ?_⟩
  · rw [createPeer_eq hp, hclear]
    exact hreset
  · rw [hpeers, List.length_set]
    exact hlen0
  · rw [hpeers] at hq
    rcases List.mem_or_eq_of_mem_set hq with hq | rfl
    · rcases List.mem_or_eq_of_mem_set hq with hq | rfl
      · exact hnone q hq
      · exact hnone p (List.mem_of_getElem? hp)
    · rfl

variable {links : NodePtr → ListNode} {outgoingBandwidth : UInt32} {n : Nat}

/-- **`enet_host_create`** gives a host with empty lists. -/
theorem create_spec {counts : Nat → Nat} (hn : n ≤ maximumPeerId)
    (hcounts : ∀ k, counts k < 2 ^ 64) :
    ∃ h, create links counts n outgoingBandwidth = some (some h) ∧
      Represents (· < n) counts h [] ∧ h.peers.length = n ∧ ∀ p ∈ h.peers, p.channels = none := by
  let h0 : Host := ⟨links, fun _ => none, counts, List.replicate n {}, outgoingBandwidth⟩
  have hnone : ∀ p ∈ h0.peers, p.channels = none := fun p hp => by
    rw [List.eq_of_mem_replicate hp]
  have hof : ∀ i, h0.channelsOf i = none := fun i => by
    cases hp : h0.peers[i]? with
    | none => simp [channelsOf, hp]
    | some p => rw [channelsOf_eq hp, hnone p (List.mem_of_getElem? hp), Option.map_none]
  have hr0 : Represents (fun j => j < n ∧ j ∉ List.range n) counts h0 [] :=
    ⟨fun j hj => absurd (List.mem_range.mpr hj.1) hj.2, List.nodup_nil, by simp, by simp,
      fun j hj => absurd (List.mem_range.mpr hj.1) hj.2,
      fun j a m ha => absurd ((hof j).symm.trans ha) (Option.some_ne_none _).symm,
      fun j k a m m' ha => absurd ((hof j).symm.trans ha) (Option.some_ne_none _).symm,
      fun a ha => absurd rfl ha, fun k => (Nat.mod_eq_of_lt (hcounts k)).symm⟩
  obtain ⟨h, hfold, -, -, hr, hlen, hnone'⟩ := foldlM_todo
    (fun todo h => todo.Nodup ∧ (∀ i ∈ todo, i < n) ∧
      Represents (fun j => j < n ∧ j ∉ todo) counts h [] ∧ h.peers.length = n ∧
      ∀ p ∈ h.peers, p.channels = none)
    (fun i todo h hinv => by
      obtain ⟨hnodup, hlt, hr, hlen, hnone⟩ := hinv
      obtain ⟨hnot, hnodup⟩ := List.nodup_cons.mp hnodup
      obtain ⟨h', hcode, hr', hlen', hnone'⟩ :=
        createPeer_spec hr hlen (hlt i List.mem_cons_self) hnot hnone
      exact ⟨h', hcode, hnodup, fun j hj => hlt j (List.mem_cons_of_mem i hj), hr', hlen', hnone'⟩)
    (List.range n) h0
    ⟨List.nodup_range, fun i hi => List.mem_range.mp hi, hr0, List.length_replicate, hnone⟩
  refine ⟨h, ?_, by simpa using hr, hlen, hnone'⟩
  rw [create, if_neg (Nat.not_lt.mpr hn)]
  exact congrArg (Option.map some) hfold

theorem clampChannels_pos (channelCount : Nat) : 0 < clampChannels channelCount := by
  unfold clampChannels
  split_ifs <;> omega

/-- The command of a connect has the next number of its peer and goes to the unreliable ones. -/
theorem queuedBy_connectCommand {p p' : Peer} (hp : h.peers[i]? = some p) (channelCount addr : Nat)
    (raw : OutgoingCommand) :
    h.queuedBy i (connectCommand p' channelCount) none 0 0 addr raw =
      [⟨i, .outgoingUnreliableCommands, addr, makeCommand raw
        (p.outgoingReliableSequenceNumber + 1) (connectCommand p' channelCount) none 0 0⟩] := by
  have hlist : listOf (connectCommand p' channelCount) = .outgoingUnreliableCommands := by
    have hflag : ¬ (2 : UInt8) &&& 0x80 ≠ 0 := by decide
    exact if_neg hflag
  rw [queuedBy_eq hp _ none 0 0 addr raw 0, hlist]
  rfl

/-- **`enet_host_connect`** takes the first disconnected peer and queues the command for it. -/
theorem connect_spec (hr : Represents ready refs h cs) (hi : ready i) {p : Peer}
    (hfind : h.peers.findIdx? (·.state = .disconnected) = some i) (hp : h.peers[i]? = some p)
    (hnone : p.channels = none) {channels command : Nat} (hchannels : h.blocks channels = none)
    (hcommand : h.blocks command = none) (hne : channels ≠ command) (address : Address)
    (channelCount : Nat) (rand : UInt32) (raw : OutgoingCommand) :
    ∃ size h', h.connect address channelCount rand channels command raw = some (some i, h') ∧
      let p' := connecting p h.outgoingBandwidth address (clampChannels channelCount) rand channels
      let request := connectCommand p' (clampChannels channelCount)
      h'.peers = h.peers.set i (countCommand p' request size 0) ∧
      Represents ready refs h' (cs ++ [⟨i, .outgoingUnreliableCommands, command,
        makeCommand raw (p.outgoingReliableSequenceNumber + 1) request none 0 0⟩]) := by
  let n := clampChannels channelCount
  let p' := connecting p h.outgoingBandwidth address n rand channels
  obtain ⟨h1, hclear, hpeers, -, hkeep, hr1⟩ := hr.addChannels hp hnone hchannels
    (clampChannels_pos channelCount) (rfl : p'.channels = _) rfl
  have hp1 : h1.peers[i]? = some p' :=
    hpeers ▸ List.getElem?_set_self (List.getElem?_eq_some_iff.mp hp).1
  obtain ⟨size, h', hqueue, hpeers', -, hr'⟩ := queueOutgoingCommand_spec hr1 hi hp1
    (connectCommand_size p' n) ((hkeep command hne.symm).trans hcommand) none 0 0 raw
  refine ⟨size, h', ?_, ?_, ?_⟩
  · rw [connect, hfind]
    simp only [hp, Option.bind_eq_bind, Option.bind_some]
    rw [hclear, Option.bind_some, hqueue, Option.bind_some]
    rfl
  · rw [hpeers', hpeers, List.set_set]
  · rw [queuedBy_connectCommand hp1] at hr'
    exact hr'

end Host

/-! ## Runs -/

/-- The numbers of the commands on channel `0xff` that are queued for a peer, in the order they were
queued in. -/
def numbersOf (cs : List Queued) (i : Nat) : List UInt16 :=
  (cs.filter fun c => c.peer = i ∧ c.command.command.header.channelID = 0xff).map
    (·.command.reliableSequenceNumber)

/-- The numbers follow each other up to the last one. -/
def Following (last : UInt16) (ns : List UInt16) : Prop :=
  ∃ first : UInt16, last + 1 = first + ns.length.toUInt16 ∧
    ns = (List.range ns.length).map fun k => first + k.toUInt16

theorem following_nil (last : UInt16) : Following last [] :=
  ⟨last + 1, (UInt16.add_zero _).symm, rfl⟩

theorem Following.snoc {last : UInt16} {ns : List UInt16} (h : Following last ns) :
    Following (last + 1) (ns ++ [last + 1]) := by
  obtain ⟨first, hlast, hns⟩ := h
  refine ⟨first, ?_, ?_⟩
  · have hlen : (ns.length + 1).toUInt16 = ns.length.toUInt16 + 1 := UInt16.ofNat_add _ _
    rw [List.length_append, List.length_singleton, hlen, hlast, UInt16.add_assoc]
  · rw [List.length_append, List.length_singleton, List.range_succ, List.map_append, ← hns]
    simp [hlast]

/-- What holds in every state of a run: the memory holds what is queued and no more, a peer that is
not connected has no channels, the numbers of a peer follow each other up to its last one, and each
command carries its own in network order. -/
structure HostRun.Kept (refs : Nat → Nat) (s : HostRun) : Prop where
  memory : s.host.Represents (· < s.host.peers.length) refs s.queued
  idle : ∀ p ∈ s.host.peers, p.state = .disconnected → p.channels = none
  numbers : ∀ i p, s.host.peers[i]? = some p →
    Following p.outgoingReliableSequenceNumber (numbersOf s.queued i)
  header : ∀ c ∈ s.queued, c.command.command.header.reliableSequenceNumber =
    Host.hostToNet16 c.command.reliableSequenceNumber

variable {refs : Nat → Nat} {s : HostRun}

open Host

theorem numbersOf_append (cs ds : List Queued) (i : Nat) :
    numbersOf (cs ++ ds) i = numbersOf cs i ++ numbersOf ds i := by
  simp [numbersOf]

/-- A peer is changed and a command with its next number, or one on another channel, queued. -/
theorem HostRun.Kept.queue (hk : s.Kept refs) {host : Host} {i : Nat} {p p' : Peer}
    {l : PeerList} {addr : Nat} {raw : OutgoingCommand} {command : Protocol} {packet : Option Nat}
    {offset : UInt32} {length : UInt16} (hp : s.host.peers[i]? = some p)
    (hpeers : host.peers = s.host.peers.set i p')
    (hidle : p'.state = .disconnected → p'.channels = none)
    (hnumber : p'.outgoingReliableSequenceNumber = if command.header.channelID = 0xff then
      p.outgoingReliableSequenceNumber + 1 else p.outgoingReliableSequenceNumber)
    (hmemory : host.Represents (· < s.host.peers.length) refs (s.queued ++
      [⟨i, l, addr, makeCommand raw p'.outgoingReliableSequenceNumber command packet offset
        length⟩])) :
    HostRun.Kept refs ⟨host, s.queued ++ [⟨i, l, addr,
      makeCommand raw p'.outgoingReliableSequenceNumber command packet offset length⟩]⟩ where
  memory := by
    rw [hpeers, List.length_set]
    exact hmemory
  idle q hq := by
    rw [hpeers] at hq
    rcases List.mem_or_eq_of_mem_set hq with hq | rfl
    · exact hk.idle q hq
    · exact hidle
  numbers j q hq := by
    rw [hpeers] at hq
    rw [numbersOf_append]
    by_cases hji : j = i
    · subst hji
      rw [List.getElem?_set_self (List.getElem?_eq_some_iff.mp hp).1] at hq
      cases hq
      by_cases hcontrol : command.header.channelID = 0xff
      · rw [if_pos hcontrol] at hnumber
        have hone : numbersOf [⟨j, l, addr, makeCommand raw p'.outgoingReliableSequenceNumber
            command packet offset length⟩] j = [p.outgoingReliableSequenceNumber + 1] := by
          simp [numbersOf, makeCommand, hcontrol, hnumber]
        rw [hone, hnumber]
        exact (hk.numbers j p hp).snoc
      · rw [if_neg hcontrol] at hnumber
        have hnone : numbersOf [⟨j, l, addr, makeCommand raw p'.outgoingReliableSequenceNumber
            command packet offset length⟩] j = [] := by
          simp [numbersOf, makeCommand, hcontrol]
        rw [hnone, List.append_nil, hnumber]
        exact hk.numbers j p hp
    · rw [List.getElem?_set_ne (Ne.symm hji)] at hq
      have hnone : numbersOf [⟨i, l, addr, makeCommand raw p'.outgoingReliableSequenceNumber
          command packet offset length⟩] j = [] := by
        simp [numbersOf, Ne.symm hji]
      rw [hnone, List.append_nil]
      exact hk.numbers j q hq
  header c hc := by
    rcases List.mem_append.mp hc with hc | hc
    · exact hk.header c hc
    · rw [List.mem_singleton.mp hc]
      rfl

theorem numbersOf_reset (cs : List Queued) (i j : Nat) :
    numbersOf (cs.filter (·.peer ≠ i)) j = if j = i then [] else numbersOf cs j := by
  unfold numbersOf
  rw [List.filter_filter]
  split_ifs with hji
  · subst hji
    rw [List.filter_eq_nil_iff.mpr fun c _ => by simp +contextual]
    rfl
  · congr 1
    refine List.filter_congr fun c _ => ?_
    by_cases hc : c.peer = j
    · simp [hc, hji]
    · simp [hc]

/-- A peer is changed and its commands are gone. -/
theorem HostRun.Kept.reset (hk : s.Kept refs) {host : Host} {i : Nat} {p' : Peer}
    (hpeers : host.peers = s.host.peers.set i p')
    (hnone : p'.channels = none)
    (hmemory : host.Represents (· < s.host.peers.length) refs (s.queued.filter (·.peer ≠ i))) :
    HostRun.Kept refs ⟨host, s.queued.filter (·.peer ≠ i)⟩ where
  memory := by
    rw [hpeers, List.length_set]
    exact hmemory
  idle q hq := by
    rw [hpeers] at hq
    rcases List.mem_or_eq_of_mem_set hq with hq | rfl
    · exact hk.idle q hq
    · exact fun _ => hnone
  numbers j q hq := by
    rw [numbersOf_reset]
    split_ifs with hji
    · exact following_nil _
    · rw [hpeers, List.getElem?_set_ne (Ne.symm hji)] at hq
      exact hk.numbers j q hq
  header c hc := hk.header c (List.mem_of_mem_filter hc)

/-- **A reset** with turns for all that is queued. -/
theorem HostRun.Kept.resetStep (hk : s.Kept refs) {i fuel : Nat} (hi : i < s.host.peers.length)
    (hfuel : s.queued.length < fuel) : ∃ s', hostStep s (.reset i fuel) = some s' ∧ s'.Kept refs ∧
      s'.host.peers.length = s.host.peers.length ∧ s'.queued = s.queued.filter (·.peer ≠ i) ∧
      ∀ j, s'.host.channelsOf j = if j = i then none else s.host.channelsOf j := by
  have hp : s.host.peers[i]? = some s.host.peers[i] := List.getElem?_eq_getElem hi
  obtain ⟨host, hreset, hpeers, -, hr⟩ := peerReset_spec hk.memory hi hp hfuel
  refine ⟨⟨host, _⟩, ?_, hk.reset hpeers rfl hr, by simp [hpeers], rfl, fun j => ?_⟩
  · simp only [hostStep, hreset, Option.bind_eq_bind, Option.bind_some]
    rfl
  · have hset := channelsOf_setPeer hp { resetFields s.host.peers[i] with
      channels := none, channelCount := 0 } j
    rw [channelsOf, hpeers]
    exact hset

/-- **A call** does not go wrong. -/
theorem hostStep_kept (hk : s.Kept refs) {a : HostAct} (hok : HostOk s a) :
    ∃ s', hostStep s a = some s' ∧ s'.Kept refs ∧
      s'.host.peers.length = s.host.peers.length := by
  cases a with
  | connect address channelCount rand channels command raw =>
    cases hfind : s.host.peers.findIdx? (·.state = .disconnected) with
    | none => exact ⟨s, by simp [hostStep, Host.connect, hfind], hk, rfl⟩
    | some i =>
      obtain ⟨hi, hidle, -⟩ := List.findIdx?_eq_some_iff_getElem.mp hfind
      have hp : s.host.peers[i]? = some s.host.peers[i] := List.getElem?_eq_getElem hi
      obtain ⟨hchannels, hcommand, hne⟩ := hok
      obtain ⟨size, host, hconnect, hpeers, hr⟩ := connect_spec hk.memory hi hfind hp
        (hk.idle _ (List.getElem_mem hi) (of_decide_eq_true hidle)) hchannels hcommand hne address
        channelCount rand raw
      refine ⟨_, ?_, hk.queue hp hpeers (fun hstate => ?_) rfl hr, by simp [hpeers]⟩
      · have hp' := hpeers ▸ List.getElem?_set_self hi
        simp only [hostStep, hconnect, Option.bind_eq_bind, Option.bind_some, hp']
        rfl
      · cases hstate
  | queue i command packet offset length addr raw =>
    obtain ⟨hi, hsize, hfree⟩ := hok
    have hp : s.host.peers[i]? = some s.host.peers[i] := List.getElem?_eq_getElem hi
    obtain ⟨size, host, hqueue, hpeers, -, hr⟩ := queueOutgoingCommand_spec hk.memory hi hp hsize
      hfree packet offset length raw
    have hqueued := queuedBy_eq hp command packet offset length addr raw size
    rw [hqueued] at hr
    refine ⟨⟨host, _⟩, ?_, hk.queue hp hpeers (hk.idle s.host.peers[i]
      (List.getElem_mem hi)) rfl hr, by simp [hpeers]⟩
    simp only [hostStep, hqueue, Option.bind_eq_bind, Option.bind_some, hqueued]
    rfl
  | reset i fuel =>
    obtain ⟨hi, hfuel⟩ := hok
    obtain ⟨s', hs', hk', hlen, -⟩ := hk.resetStep hi hfuel
    exact ⟨s', hs', hk', hlen⟩

/-- Calls on a new host that are right never go wrong. -/
theorem host_kept (links : NodePtr → ListNode) {n : Nat} (outgoingBandwidth : UInt32)
    (hn : n ≤ maximumPeerId) (hrefs : ∀ k, refs k < 2 ^ 64) :
    ∃ h, create links refs n outgoingBandwidth = some (some h) ∧ h.peers.length = n ∧
      ∀ as, AllSteps hostStep HostOk ⟨h, []⟩ as →
        ∃ s, run hostStep ⟨h, []⟩ as = some s ∧ s.Kept refs ∧ s.host.peers.length = n := by
  obtain ⟨h, hcreate, hr, hlen, hnone⟩ := create_spec hn hrefs
  have hkept : HostRun.Kept refs ⟨h, []⟩ :=
    ⟨hlen ▸ hr, fun p hp _ => hnone p hp, fun i p _ => following_nil _, by simp⟩
  have hstep : ∀ s a, s.Kept refs ∧ s.host.peers.length = n → HostOk s a →
      ∃ s', hostStep s a = some s' ∧ s'.Kept refs ∧ s'.host.peers.length = n := by
    rintro s a ⟨hk, hlen⟩ hok
    obtain ⟨s', hs', hk', hlen'⟩ := hostStep_kept hk hok
    exact ⟨s', hs', hk', hlen'.trans hlen⟩
  exact ⟨h, hcreate, hlen, fun as has => run_of_allSteps hstep ⟨hkept, hlen⟩ has⟩

/-- A host for two peers, and calls that connect both, find none for a third, reset one and connect
it again. -/
def twoPeers : Option (Option Host) := create (fun p => ⟨p, p⟩) (fun _ => 1) 2 0

def twoCalls : List HostAct :=
  let raw : OutgoingCommand := ⟨7, 7, 7, 7, 7, 7, 7, 7, ⟨⟨7, 7, 7⟩, 7, 7, 7⟩, none⟩
  [.connect ⟨1, 2⟩ 3 9 10 11 raw, .queue 0 ⟨⟨0x81, 0xff, 0⟩, 0, 0, 0⟩ (some 5) 0 4 12 raw,
    .connect ⟨1, 2⟩ 0 9 13 14 raw, .connect ⟨1, 2⟩ 1 9 15 16 raw, .reset 0 4,
    .queue 1 ⟨⟨1, 0, 0⟩, 0, 0, 0⟩ (some 6) 0 4 12 raw, .connect ⟨1, 2⟩ 1 9 10 15 raw]

theorem twoCalls_ok {h : Host} (hcreate : twoPeers = some (some h)) :
    AllSteps hostStep HostOk ⟨h, []⟩ twoCalls := by
  have hall : ∀ h ∈ twoPeers.join, AllSteps hostStep HostOk ⟨h, []⟩ twoCalls := by decide +kernel
  exact hall h (by rw [hcreate]; rfl)

/-- **The numbers of a peer** follow each other in every run, also past a reset and past `65535`,
and each command has its own in network order. -/
theorem numbers_follow (links : NodePtr → ListNode) {n : Nat} (outgoingBandwidth : UInt32)
    (hn : n ≤ maximumPeerId) (hrefs : ∀ k, refs k < 2 ^ 64) :
    ∃ h, create links refs n outgoingBandwidth = some (some h) ∧
      ∀ as, AllSteps hostStep HostOk ⟨h, []⟩ as → ∃ s, run hostStep ⟨h, []⟩ as = some s ∧
        (∀ i p, s.host.peers[i]? = some p →
          Following p.outgoingReliableSequenceNumber (numbersOf s.queued i)) ∧
        ∀ c ∈ s.queued, s.host.blocks c.addr = some (.outgoingCommand c.command) ∧
          c.command.command.header.reliableSequenceNumber =
            hostToNet16 c.command.reliableSequenceNumber := by
  obtain ⟨h, hcreate, -, hruns⟩ := host_kept links outgoingBandwidth hn hrefs
  refine ⟨h, hcreate, fun as has => ?_⟩
  obtain ⟨s, hrun, hk, -⟩ := hruns as has
  exact ⟨s, hrun, hk.numbers, fun c hc => ⟨hk.memory.block c hc, hk.header c hc⟩⟩

theorem numbers_follow_two : ∃ h s, twoPeers = some (some h) ∧
    run hostStep ⟨h, []⟩ twoCalls = some s ∧ ∀ i p, s.host.peers[i]? = some p →
      Following p.outgoingReliableSequenceNumber (numbersOf s.queued i) := by
  obtain ⟨h, hcreate, hruns⟩ := numbers_follow (fun p => ⟨p, p⟩) 0
    (show 2 ≤ maximumPeerId by decide) (show ∀ _ : Nat, 1 < 2 ^ 64 from fun _ => by decide)
  obtain ⟨s, hrun, hnumbers, -⟩ := hruns twoCalls (twoCalls_ok hcreate)
  exact ⟨h, s, hcreate, hrun, hnumbers⟩

/-- Some peers are reset one after the other. -/
theorem HostRun.Kept.resets (hk : s.Kept refs) {is : List Nat} {fuel : Nat}
    (his : ∀ i ∈ is, i < s.host.peers.length) (hfuel : s.queued.length < fuel) :
    ∃ s', run hostStep s (is.map (.reset · fuel)) = some s' ∧ s'.Kept refs ∧
      s'.queued = s.queued.filter (·.peer ∉ is) ∧
      ∀ j, s'.host.channelsOf j = if j ∈ is then none else s.host.channelsOf j := by
  induction is generalizing s with
  | nil => exact ⟨s, rfl, hk, by simp, by simp⟩
  | cons i is ih =>
    obtain ⟨s1, hs1, hk1, hlen, hqueued, hof⟩ := hk.resetStep (his i List.mem_cons_self) hfuel
    have hfuel1 : s1.queued.length < fuel := by
      rw [hqueued]
      exact lt_of_le_of_lt (List.length_filter_le _ _) hfuel
    obtain ⟨s', hrun, hk', hqueued', hof'⟩ :=
      ih hk1 (fun j hj => hlen ▸ his j (List.mem_cons_of_mem i hj)) hfuel1
    refine ⟨s', by rw [List.map_cons, run, hs1]; exact hrun, hk', ?_, fun j => ?_⟩
    · rw [hqueued', hqueued, List.filter_filter]
      refine List.filter_congr fun c _ => ?_
      simp [Bool.and_comm]
    · rw [hof', hof]
      by_cases hj : j = i <;> by_cases hmem : j ∈ is <;> simp [hj, hmem]

/-- **Nothing leaks**: in every state of a run, a reset of each peer frees all that is allocated,
and the packets have the counts that they had before the host was created. -/
theorem resets_free_all (links : NodePtr → ListNode) {n : Nat} (outgoingBandwidth : UInt32)
    (hn : n ≤ maximumPeerId) (hrefs : ∀ k, refs k < 2 ^ 64) :
    ∃ h, create links refs n outgoingBandwidth = some (some h) ∧
      ∀ as, AllSteps hostStep HostOk ⟨h, []⟩ as → ∃ s, run hostStep ⟨h, []⟩ as = some s ∧
        ∀ fuel, s.queued.length < fuel →
          ∃ t, run hostStep s ((List.range n).map (.reset · fuel)) = some t ∧
            (∀ a, t.host.blocks a = none) ∧ t.host.referenceCount = refs := by
  obtain ⟨h, hcreate, -, hruns⟩ := host_kept links outgoingBandwidth hn hrefs
  refine ⟨h, hcreate, fun as has => ?_⟩
  obtain ⟨s, hrun, hk, hlen⟩ := hruns as has
  refine ⟨s, hrun, fun fuel hfuel => ?_⟩
  obtain ⟨t, ht, hkt, hqueued, hof⟩ := hk.resets
    (fun i (hi : i ∈ List.range n) => hlen ▸ List.mem_range.mp hi) hfuel
  have hempty : t.queued = [] := by
    rw [hqueued, List.filter_eq_nil_iff]
    intro c hc
    have hlt := (hk.memory.owner c hc).1
    rw [hlen] at hlt
    simp [hlt]
  refine ⟨t, ht, fun a => ?_, funext fun k => ?_⟩
  · by_contra hused
    rcases hkt.memory.used a hused with hmem | ⟨i, m, hi⟩
    · rw [hempty] at hmem
      cases hmem
    · rw [hof] at hi
      split_ifs at hi with hrange
      have hbeyond : s.host.peers[i]? = none :=
        List.getElem?_eq_none (by simpa [hlen] using hrange)
      rw [channelsOf, hbeyond] at hi
      cases hi
  · rw [hkt.memory.refs, hempty]
    exact Nat.mod_eq_of_lt (hrefs k)

theorem resets_free_all_two : ∃ h s, twoPeers = some (some h) ∧
    run hostStep ⟨h, []⟩ twoCalls = some s ∧ ∃ t,
      run hostStep s ((List.range 2).map (.reset · (s.queued.length + 1))) = some t ∧
        (∀ a, t.host.blocks a = none) ∧ t.host.referenceCount = fun _ => 1 := by
  obtain ⟨h, hcreate, hruns⟩ := resets_free_all (fun p => ⟨p, p⟩) 0
    (show 2 ≤ maximumPeerId by decide) (show ∀ _ : Nat, 1 < 2 ^ 64 from fun _ => by decide)
  obtain ⟨s, hrun, hresets⟩ := hruns twoCalls (twoCalls_ok hcreate)
  exact ⟨h, s, hcreate, hrun, hresets (s.queued.length + 1) (Nat.lt_succ_self _)⟩

end Donkeyji.Enet
