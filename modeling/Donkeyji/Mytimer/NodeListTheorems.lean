/-
Donkeyji.Mytimer.NodeListTheorems — what the insertions into the two lists of
the timer module and the removals from them leave.

`list_insert` links the new node to the old head and writes no `prev` field,
so a list of two nodes is not doubly linked. Forwards it is a list in any
case, until a node behind the head is removed: `list_remove` follows its
`prev`, which holds what it held before the node was inserted, unless a
removal has written it since. `links_iff` says when a run keeps the lists
doubly linked, and when it keeps them lists.
-/
import Donkeyji.Lib.DoubleChain
import Donkeyji.Lib.Runs
import Donkeyji.Mytimer.NodeList

namespace Donkeyji.Mytimer

open LinkedList Runs

variable {l : NodeList} {q : List Addr} {t w : Addr}

/-! ## The two writes of a removal -/

section Writes

variable (l : NodeList) (t : Addr) (x : Option Addr)

@[simp] theorem NodeList.setPrevOfNext_next : (l.setPrevOfNext t x).next = l.next := by
  unfold NodeList.setPrevOfNext
  split <;> rfl

@[simp] theorem NodeList.setPrevOfNext_head : (l.setPrevOfNext t x).head = l.head := by
  unfold NodeList.setPrevOfNext
  split <;> rfl

@[simp] theorem NodeList.setPrevOfNext_len : (l.setPrevOfNext t x).len = l.len := by
  unfold NodeList.setPrevOfNext
  split <;> rfl

@[simp] theorem NodeList.setNextOfPrev_prev : (l.setNextOfPrev t).prev = l.prev := by
  unfold NodeList.setNextOfPrev
  split <;> rfl

@[simp] theorem NodeList.setNextOfPrev_head : (l.setNextOfPrev t).head = l.head := by
  unfold NodeList.setNextOfPrev
  split <;> rfl

@[simp] theorem NodeList.setNextOfPrev_len : (l.setNextOfPrev t).len = l.len := by
  unfold NodeList.setNextOfPrev
  split <;> rfl

variable {l t x}

/-- The node behind `t` points back to `x`. -/
theorem NodeList.setPrevOfNext_prev (h : l.next t = some w) :
    (l.setPrevOfNext t x).prev w = x := by
  simp [NodeList.setPrevOfNext, h]

theorem NodeList.setPrevOfNext_prev_of_ne (h : l.next t ≠ some w) :
    (l.setPrevOfNext t x).prev w = l.prev w := by
  unfold NodeList.setPrevOfNext
  split
  · rfl
  · rename_i n hn
    have hne : w ≠ n := fun he => h (by rw [hn, he])
    exact Function.update_of_ne hne _ _

/-- The node before `t` links to the one behind it. -/
theorem NodeList.setNextOfPrev_next (h : l.prev t = some w) :
    (l.setNextOfPrev t).next = Function.update l.next w (l.next t) := by
  simp [NodeList.setNextOfPrev, h]

theorem NodeList.setNextOfPrev_next_of_ne (h : l.prev t ≠ some w) :
    (l.setNextOfPrev t).next w = l.next w := by
  unfold NodeList.setNextOfPrev
  split
  · rfl
  · rename_i p hp
    have hne : w ≠ p := fun he => h (by rw [hp, he])
    exact Function.update_of_ne hne _ _

/-- A removal of the head. -/
theorem NodeList.remove_first (hlen : l.len ≠ 0) (hhead : l.head = some t) :
    (l.remove t).head = l.next t ∧ (l.remove t).next = l.next ∧
      (l.remove t).prev = (l.setPrevOfNext t none).prev ∧ (l.remove t).len = l.len - 1 := by
  have hprev : ({ l with head := l.next t }.setPrevOfNext t none).prev =
      (l.setPrevOfNext t none).prev := by
    unfold NodeList.setPrevOfNext
    cases l.next t <;> rfl
  simp [NodeList.remove, hlen, hhead, hprev]

/-- A removal behind the head. -/
theorem NodeList.remove_inner (hlen : l.len ≠ 0) (hhead : l.head ≠ some t) :
    (l.remove t).head = l.head ∧ (l.remove t).next = (l.setNextOfPrev t).next ∧
      (l.remove t).prev = ((l.setNextOfPrev t).setPrevOfNext t (l.prev t)).prev ∧
      (l.remove t).len = l.len - 1 := by
  simp [NodeList.remove, hlen, hhead]

end Writes

/-! ## One way -/

/-- The list holds exactly these nodes, in this order. -/
structure NodeList.Holds (l : NodeList) (q : List Addr) : Prop where
  chain : Chain l.next l.head q
  len : l.len = q.length

/-- A list that holds a node is not empty. -/
theorem NodeList.Holds.len_ne_zero (h : l.Holds q) (ht : t ∈ q) : l.len ≠ 0 := by
  have hpos := List.length_pos_of_mem ht
  rw [h.len]
  omega

/-- Taking the first node out of a list. -/
theorem NodeList.Holds.remove_head (h : l.Holds (w :: q)) :
    (l.remove w).Holds q := by
  obtain ⟨hhead, hrest⟩ := chain_cons.mp h.chain
  obtain ⟨hhead', hnext, -, hlen⟩ :=
    NodeList.remove_first (h.len_ne_zero List.mem_cons_self) hhead
  refine ⟨by rwa [hhead', hnext], ?_⟩
  rw [hlen, h.len]
  simp

/-- Putting a new node in front of a list. -/
theorem NodeList.Holds.insert (h : l.Holds q) (hw : w ∉ q) :
    (l.insert w).Holds (w :: q) := by
  refine ⟨chain_cons.mpr ⟨rfl, ?_⟩, ?_⟩
  · show Chain (Function.update l.next w l.head) (Function.update l.next w l.head w) q
    rw [Function.update_self]
    refine h.chain.congr ?_
    intro a ha
    have hne : a ≠ w := fun he => hw (he ▸ ha)
    rw [Function.update_of_ne hne]
  · show l.len + 1 = ((w :: q).length : Int)
    rw [h.len]
    simp


/-- A change of the links of another node is not noticed. -/
theorem NodeList.Holds.setLinks (h : l.Holds q) (ht : t ∉ q) (next prev : Option Addr) :
    (l.setLinks t next prev).Holds q := by
  refine ⟨h.chain.congr fun a ha => ?_, h.len⟩
  have hne : a ≠ t := fun he => ht (he ▸ ha)
  exact Function.update_of_ne hne _ _

/-- A node behind another one is not the head. -/
theorem NodeList.Holds.head_ne {m k : List Addr} (h : l.Holds (m ++ w :: t :: k)) :
    l.head ≠ some t := by
  have hnodup := h.chain.nodup
  rw [h.chain.head]
  intro heq
  cases m with
  | nil =>
    cases heq
    simp at hnodup
  | cons c m =>
    cases heq
    simp at hnodup

/-- The node behind `w` is removed rightly exactly if its `prev` field points to `w`. -/
theorem NodeList.Holds.remove_inner_iff {m k : List Addr} (h : l.Holds (m ++ w :: t :: k)) :
    (l.remove t).Holds (m ++ w :: k) ↔ l.prev t = some w := by
  have hnodup := h.chain.nodup
  have hlen := h.len_ne_zero (t := t) (by simp)
  obtain ⟨x, hm, hx⟩ := chain_append.mp h.chain
  obtain ⟨rfl, hwt⟩ := chain_cons.mp hx
  obtain ⟨hwnext, hk⟩ := chain_cons.mp hwt
  have hhead := h.head_ne
  obtain ⟨hhead', hnext, -, hlen'⟩ := NodeList.remove_inner hlen hhead
  constructor
  · intro hr
    obtain ⟨y, -, hy⟩ := chain_append.mp hr.chain
    obtain ⟨rfl, hk'⟩ := chain_cons.mp hy
    by_contra hprev
    -- the link of `w` still leads to `t`
    rw [hnext, NodeList.setNextOfPrev_next_of_ne hprev, hwnext] at hk'
    have hmem : t ∈ k := List.mem_of_mem_head? hk'.head.symm
    exact (List.nodup_cons.mp (List.nodup_cons.mp hnodup.of_append_right).2).1 hmem
  · intro hprev
    refine ⟨?_, ?_⟩
    · rw [hhead', hnext, NodeList.setNextOfPrev_next hprev]
      refine h.chain.unlink (Function.update_self ..) ?_
      intro c hc
      have hne : c ≠ w := by
        rintro rfl
        simp [List.nodup_append] at hnodup hc
        grind
      exact Function.update_of_ne hne _ _
    · rw [hlen', h.len]
      simp
      omega

/-! ## Both ways -/

/-- The list is doubly linked and holds exactly these nodes, in this order. -/
structure NodeList.Linked (l : NodeList) (q : List Addr) : Prop where
  chain : DoubleChain l.next l.prev none l.head q
  len : l.len = q.length

theorem NodeList.Linked.holds (h : l.Linked q) : l.Holds q := ⟨h.chain.chain, h.len⟩

/-- `list_insert` leaves a doubly linked list only if it is the first node and its `prev` field
was NULL before. -/
theorem NodeList.Linked.insert_iff (h : l.Linked q) (ht : t ∉ q) (next prev : Option Addr) :
    ((l.setLinks t next prev).insert t).Linked (t :: q) ↔ l.head = none ∧ prev = none := by
  have hhead := h.chain.head
  have hprev : ((l.setLinks t next prev).insert t).prev = Function.update l.prev t prev := rfl
  constructor
  · intro hl
    obtain ⟨-, hnone, hrest⟩ := doubleChain_cons.mp hl.chain
    rw [hprev, Function.update_self] at hnone
    refine ⟨?_, hnone⟩
    cases q with
    | nil => exact hhead
    | cons b q =>
      -- the old head still points to NULL
      have hb := (doubleChain_cons.mp h.chain).2.1
      have hb' := (doubleChain_cons.mp hrest).2.1
      have hne : b ≠ t := fun he => ht (by simp [he])
      rw [hprev, Function.update_of_ne hne, hb] at hb'
      cases hb'
  · rintro ⟨hnone, rfl⟩
    have hq : q = [] := by
      rw [hnone, eq_comm, List.head?_eq_none_iff] at hhead
      exact hhead
    subst hq
    have hone := (h.holds.setLinks ht next none).insert ht
    refine ⟨⟨rfl, ?_, ?_⟩, hone.len⟩
    · rw [hprev, Function.update_self]
    · exact (chain_cons.mp hone.chain).2

/-- The list without the node behind `w`. -/
theorem erase_inner {m k : List Addr} (h : (m ++ w :: t :: k).Nodup) :
    (m ++ w :: t :: k).erase t = m ++ w :: k := by
  have hsplit : m ++ w :: t :: k = (m ++ [w]) ++ t :: k := by simp
  rw [hsplit] at h ⊢
  have hnot : t ∉ m ++ [w] := fun hmem =>
    (List.nodup_append.mp h).2.2 t hmem t List.mem_cons_self rfl
  rw [List.erase_append_right _ hnot, List.erase_cons_head]
  simp

/-- `list_remove` keeps a doubly linked list. -/
theorem NodeList.Linked.remove (h : l.Linked q) (ht : t ∈ q) :
    (l.remove t).Linked (q.erase t) := by
  have hlen := h.holds.len_ne_zero ht
  have hnodup := h.chain.nodup
  obtain ⟨m, k, rfl⟩ := List.append_of_mem ht
  rcases m.eq_nil_or_concat' with rfl | ⟨m, w, rfl⟩
  · rw [List.nil_append, List.erase_cons_head]
    obtain ⟨hhead', hnext, hprev, -⟩ :=
      NodeList.remove_first hlen (doubleChain_cons.mp h.chain).1
    refine ⟨?_, (NodeList.Holds.remove_head h.holds).len⟩
    rw [hhead']
    refine h.chain.popFront (fun b _ => by rw [hnext]) ?_ ?_
    · intro b hb
      rw [hprev, NodeList.setPrevOfNext_prev hb]
    · intro b _ hb
      rw [hprev, NodeList.setPrevOfNext_prev_of_ne hb]
  · rw [List.append_assoc, List.singleton_append] at h hnodup ⊢
    rw [erase_inner hnodup]
    have hw : l.prev t = some w := h.chain.prev_eq
    have hwt : t ≠ w := by
      rintro rfl
      simp [List.nodup_append] at hnodup
    obtain ⟨hhead', hnext, hprev, -⟩ := NodeList.remove_inner hlen h.holds.head_ne
    rw [NodeList.setNextOfPrev_next hw] at hnext
    have ht' : (l.setNextOfPrev t).next t = l.next t := by
      rw [NodeList.setNextOfPrev_next hw, Function.update_of_ne hwt]
    refine ⟨?_, ((NodeList.Holds.remove_inner_iff h.holds).mpr hw).len⟩
    rw [hhead']
    refine h.chain.unlink (by rw [hnext, Function.update_self]) ?_ ?_ ?_
    · intro c hc
      have hne : c ≠ w := by
        rintro rfl
        simp [List.nodup_append] at hnodup hc
        grind
      rw [hnext, Function.update_of_ne hne]
    · intro c hc
      rw [hprev, NodeList.setPrevOfNext_prev (ht'.trans hc), hw]
    · intro c _ hc
      rw [hprev, NodeList.setPrevOfNext_prev_of_ne (by rwa [ht']), NodeList.setNextOfPrev_prev]

/-! ## Runs -/

/-- A list with the nodes that should be in it. -/
structure Tracked where
  list : NodeList
  nodes : List Addr

/-- An operation on the list, and what it should do to its nodes. -/
def trackedStep (kind : ListKind) (s : Tracked) (op : ListOp) : Option Tracked :=
  some ⟨kind.apply s.list op,
    match op with
    | .insert t _ _ => t :: s.nodes
    | .remove t => s.nodes.erase t⟩

/-- The operations that are asked for: insertions of nodes that are not in the list and removals
of nodes that are. -/
def Allowed (s : Tracked) : ListOp → Prop
  | .insert t _ _ => t ∉ s.nodes
  | .remove t => t ∈ s.nodes

/-- The condition for a doubly linked list: every node is inserted into an empty list, with a
`prev` field that is NULL. -/
def KeepsLinks (s : Tracked) : ListOp → Prop
  | .insert _ _ prev => s.list.head = none ∧ prev = none
  | .remove _ => True

/-- The condition for a list: a node that is removed is the head, or its `prev` field points to the
node of the list before it. -/
def KeepsList (s : Tracked) : ListOp → Prop
  | .insert _ _ _ => True
  | .remove t =>
    s.list.head = some t ∨ ∃ w ∈ s.nodes, s.list.prev t = some w ∧ s.list.next w = some t

instance (s : Tracked) : ∀ op, Decidable (Allowed s op)
  | .insert _ _ _ => inferInstanceAs (Decidable (_ ∉ _))
  | .remove _ => inferInstanceAs (Decidable (_ ∈ _))

instance (s : Tracked) : ∀ op, Decidable (KeepsLinks s op)
  | .insert _ _ _ => inferInstanceAs (Decidable (_ ∧ _))
  | .remove _ => inferInstanceAs (Decidable True)

instance (s : Tracked) : ∀ op, Decidable (KeepsList s op)
  | .insert _ _ _ => inferInstanceAs (Decidable True)
  | .remove _ => inferInstanceAs (Decidable (_ ∨ _))

/-- A list keeps its nodes exactly under the condition. -/
theorem trackedStep_holds {s s' : Tracked} {op : ListOp} {kind : ListKind}
    (h : s.list.Holds s.nodes) (hop : Allowed s op) (hstep : trackedStep kind s op = some s') :
    s'.list.Holds s'.nodes ↔ KeepsList s op := by
  cases hstep
  cases op with
  | insert t next prev =>
    refine iff_of_true ?_ trivial
    cases kind <;> exact (h.setLinks hop next prev).insert hop
  | remove t =>
    have happly : kind.apply s.list (.remove t) = s.list.remove t := by cases kind <;> rfl
    show (kind.apply s.list (.remove t)).Holds (s.nodes.erase t) ↔ _
    rw [happly]
    obtain ⟨m, k, hsplit⟩ := List.append_of_mem (show t ∈ s.nodes from hop)
    rcases m.eq_nil_or_concat' with rfl | ⟨m, w, rfl⟩
    · rw [List.nil_append] at hsplit
      rw [hsplit] at h ⊢
      rw [List.erase_cons_head]
      exact iff_of_true h.remove_head (Or.inl (chain_cons.mp h.chain).1)
    · rw [List.append_assoc, List.singleton_append] at hsplit
      rw [hsplit] at h ⊢
      rw [erase_inner h.chain.nodup, h.remove_inner_iff]
      constructor
      · intro hprev
        refine Or.inr ⟨w, by rw [hsplit]; simp, hprev, ?_⟩
        obtain ⟨x, -, hx⟩ := chain_append.mp h.chain
        exact (chain_cons.mp (chain_cons.mp hx).2).1
      · rintro (hhead | ⟨v, hv, hprev, hnext⟩)
        · exact absurd hhead h.head_ne
        · rw [hsplit] at hv
          rw [hprev, h.chain.pred_unique hv hnext]

/-- A doubly linked list stays one exactly under the condition. -/
theorem trackedStep_linked {s s' : Tracked} {op : ListOp} {kind : ListKind}
    (h : s.list.Linked s.nodes) (hop : Allowed s op) (hstep : trackedStep kind s op = some s') :
    s'.list.Linked s'.nodes ↔ KeepsLinks s op := by
  cases hstep
  cases op with
  | insert t next prev =>
    cases kind <;> exact h.insert_iff hop next prev
  | remove t =>
    refine iff_of_true ?_ trivial
    cases kind <;> exact h.remove hop

/-- **Timer lists.** A run keeps the list doubly linked exactly if nodes are inserted only into the
empty list, and with a NULL in `prev`. It keeps its nodes and their order exactly if every node that
is removed is the head or points back to the node before it. -/
theorem links_iff (kind : ListKind) {l : NodeList} (hhead : l.head = none) (hlen : l.len = 0)
    {ops : List ListOp} (hops : AllSteps (trackedStep kind) Allowed ⟨l, []⟩ ops) :
    (AllStates (trackedStep kind) (fun s => s.list.Linked s.nodes) ⟨l, []⟩ ops ↔
        AllSteps (trackedStep kind) KeepsLinks ⟨l, []⟩ ops) ∧
      (AllStates (trackedStep kind) (fun s => s.list.Holds s.nodes) ⟨l, []⟩ ops ↔
        AllSteps (trackedStep kind) KeepsList ⟨l, []⟩ ops) := by
  have hstart : l.Linked [] := ⟨hhead, hlen⟩
  constructor
  · refine allStates_iff_allSteps (fun s => s.list.Linked s.nodes) Allowed ?_ ?_ ?_ hstart hops
    · exact fun s op s' h hop hkeep hstep => (trackedStep_linked h hop hstep).mpr hkeep
    · exact fun _ h => h
    · exact fun s op h hop hnot => ⟨_, rfl, fun h' => hnot ((trackedStep_linked h hop rfl).mp h')⟩
  · refine allStates_iff_allSteps (fun s => s.list.Holds s.nodes) Allowed ?_ ?_ ?_ hstart.holds hops
    · exact fun s op s' h hop hkeep hstep => (trackedStep_holds h hop hstep).mpr hkeep
    · exact fun _ h => h
    · exact fun s op h hop hnot => ⟨_, rfl, fun h' => hnot ((trackedStep_holds h hop rfl).mp h')⟩

/-- A new list. -/
def nodeListNew : NodeList := ⟨none, 0, fun _ => none, fun _ => none⟩

/-- One node at a time is doubly linked, and a node that happens to point back to the next one is
removed rightly. -/
theorem links_one :
    AllStates (trackedStep .list) (fun s => s.list.Linked s.nodes) ⟨nodeListNew, []⟩
        [.insert 1 (some 7) none, .remove 1, .insert 2 none none] ∧
      AllStates (trackedStep .list) (fun s => s.list.Holds s.nodes) ⟨nodeListNew, []⟩
        [.insert 1 none (some 2), .insert 2 none none, .remove 1] := by
  constructor
  · exact (links_iff .list rfl rfl (by decide)).1.mpr (by decide)
  · exact (links_iff .list rfl rfl (by decide)).2.mpr (by decide)

/-- A node that is inserted in front of another one is not linked from it, and if the other one is
removed, `list_remove` follows the NULL that it holds. -/
theorem not_linked_two :
    ¬ AllStates (trackedStep .list) (fun s => s.list.Linked s.nodes) ⟨nodeListNew, []⟩
        [.insert 1 none none, .insert 2 none none] ∧
      none ∈ (listInsert (listInsert nodeListNew 1) 2).removeDerefs 1 := by
  refine ⟨?_, by decide⟩
  intro h
  have hlinked : (listInsert ((listInsert (nodeListNew.setLinks 1 none none) 1).setLinks 2
      none none) 2).Linked [2, 1] := h.last rfl
  have hback : (none : Option Addr) = some 2 := hlinked.chain.2.2.2.1
  cases hback

end Donkeyji.Mytimer
