/-
Donkeyji.Rank.ScoreListTheorems — the lists of score nodes.

`ScoreLists` is the invariant: the list of every entry of the index leads
through allocated nodes of this entry, with falling scores, so a walk along it
ends, and the entry counts the nodes that were ever made for it. `score_get`
finds a score of a list, `score_new` puts one into it, unless it becomes the
head: then it is the whole list.
-/
import Mathlib.Data.List.TakeWhile
import Donkeyji.Lib.DoubleChain
import Donkeyji.Rank.Core

namespace Donkeyji.Rank

open LinkedList

namespace Core

/-! ## The fields of the nodes -/

/-- The scores of the score nodes. -/
def score (s : Core) : ScorePtr → Int := column s.scores ScoreNode.score 0

/-- The counts of the score nodes. -/
def cnt (s : Core) : ScorePtr → Int := column s.scores ScoreNode.cnt 0

/-- The links of the score nodes. -/
def nextScore (s : Core) : ScorePtr → Option ScorePtr := column s.scores ScoreNode.nextScore none

/-- The first uids of the score nodes. -/
def uidHead (s : Core) : ScorePtr → Option UidPtr := column s.scores ScoreNode.uidHead none

/-- The links of the uid nodes. -/
def nextUid (s : Core) : UidPtr → Option UidPtr := column s.uids UidNode.nextUid none

/-- The back links of the uid nodes. -/
def preUid (s : Core) : UidPtr → Option UidPtr := column s.uids UidNode.preUid none

/-- The score nodes that the uid nodes know. -/
def owner (s : Core) : UidPtr → Option ScorePtr := column s.uids UidNode.ownerScore none

/-- The list of its entry leads to the score node. -/
def Linked (s : Core) (sn : ScorePtr) : Prop :=
  Reach s.nextScore (s.array (idxOf (s.score sn))).scoreHead sn

end Core

/-- The score nodes on the list of every entry. -/
structure ScoreLists (s : Core) (bucket : Int → List ScorePtr) : Prop where
  chain : ∀ i, Chain s.nextScore (s.array i).scoreHead (bucket i)
  node : ∀ i, ∀ p ∈ bucket i, p < s.scores.length ∧ Core.idxOf (s.score p) = i
  desc : ∀ i, (bucket i).Pairwise fun p q => s.score q < s.score p
  cnt : ∀ i, (s.array i).cnt = (s.scores.map ScoreNode.score).countP fun v => Core.idxOf v = i

open Core

variable {s s' : Core} {sc : Int} {bucket : Int → List ScorePtr} {i : Int}

theorem get_score {p : ScorePtr} (h : p < s.scores.length) :
    ∃ node, s.scores[p]? = some node ∧ node.score = s.score p ∧ node.nextScore = s.nextScore p ∧
      node.cnt = s.cnt p ∧ node.uidHead = s.uidHead p := by
  have hget := List.getElem?_eq_getElem h
  exact ⟨_, hget, (column_of_get hget).symm, (column_of_get hget).symm, (column_of_get hget).symm,
    (column_of_get hget).symm⟩

/-- The linked nodes are those on the list. -/
theorem ScoreLists.linked_iff (h : ScoreLists s bucket) {sn : ScorePtr} :
    s.Linked sn ↔ sn ∈ bucket (idxOf (s.score sn)) := (h.chain _).reach_iff

/-- A list is no longer than there are nodes. -/
theorem ScoreLists.length_le (h : ScoreLists s bucket) (i : Int) :
    (bucket i).length ≤ s.scores.length := by
  have hsub : (bucket i).Subperm (List.range s.scores.length) :=
    (h.chain i).nodup.subperm fun p hp => List.mem_range.mpr (h.node i p hp).1
  simpa using hsub.length_le

/-- A list has one node of a score. -/
theorem ScoreLists.score_inj (h : ScoreLists s bucket) {p q : ScorePtr} (hp : p ∈ bucket i)
    (hq : q ∈ bucket i) (heq : s.score p = s.score q) : p = q := by
  have hnd : ((bucket i).map s.score).Nodup :=
    List.pairwise_map.mpr ((h.desc i).imp fun hlt => hlt.ne')
  exact List.inj_on_of_nodup_map hnd hp hq heq

/-- No entry is above the index. -/
theorem idxOf_lt (sc : Int) : idxOf sc < idxLen := by
  unfold idxOf
  simp only
  split <;> omega

/-- The quotient rounds toward zero. -/
theorem tdiv_base (sc : Int) : sc.tdiv base = if 0 ≤ sc then sc / 1000 else -(-sc / 1000) := by
  unfold base
  split
  · rename_i h
    exact Int.tdiv_eq_ediv_of_nonneg h
  · rename_i h
    have hneg : sc.tdiv 1000 = -((-sc).tdiv 1000) := by rw [Int.neg_tdiv, neg_neg]
    rw [hneg, Int.tdiv_eq_ediv_of_nonneg (by omega)]

/-- Below the end of the index the entry is the quotient. -/
theorem idxOf_eq_tdiv (h : sc < 10000000) : idxOf sc = sc.tdiv base := by
  have hlt : ¬ sc.tdiv base ≥ idxLen := by
    rw [tdiv_base]
    unfold idxLen
    split <;> omega
  simp only [idxOf, if_neg hlt]

/-- The scores that have an entry. -/
theorem idxOf_nonneg : 0 ≤ idxOf sc ↔ -1000 < sc := by
  have hdiv := tdiv_base sc
  unfold idxOf
  simp only [hdiv]
  unfold idxLen
  split <;> split <;> omega

/-- A greater score is not in a lower entry. -/
theorem idxOf_mono {v : Int} (h : sc ≤ v) : idxOf sc ≤ idxOf v := by
  have hsc := tdiv_base sc
  have hv := tdiv_base v
  unfold idxOf
  simp only [hsc, hv]
  unfold idxLen
  split <;> split <;> split <;> split <;> omega

/-- The lists depend on the entries, the scores and the links. -/
theorem ScoreLists.congr (h : ScoreLists s bucket) (harray : s'.array = s.array)
    (hscores : s'.scores.map ScoreNode.score = s.scores.map ScoreNode.score)
    (hnext : s'.nextScore = s.nextScore) : ScoreLists s' bucket := by
  have hlen : s'.scores.length = s.scores.length := by simpa using congrArg List.length hscores
  have hscore : s'.score = s.score := by
    rw [Core.score, Core.score, column_eq_map, hscores, ← column_eq_map]
  refine ⟨fun i => ?_, fun i p hp => ?_, fun i => ?_, fun i => ?_⟩
  · rw [hnext, harray]
    exact h.chain i
  · rw [hlen, hscore]
    exact h.node i p hp
  · rw [hscore]
    exact h.desc i
  · rw [harray, hscores]
    exact h.cnt i

/-! ## `score_get` -/

/-- The walk of `score_get` along a list of falling scores. -/
theorem getLoop_eq {l : List ScorePtr} {cur : Option ScorePtr} (hl : Chain s.nextScore cur l)
    (hlt : ∀ p ∈ l, p < s.scores.length) (hdesc : l.Pairwise fun p q => s.score q < s.score p)
    {fuel : Nat} (hfuel : l.length < fuel) :
    getLoop s sc fuel cur = some (l.find? fun p => s.score p = sc) := by
  induction l generalizing cur fuel with
  | nil =>
    obtain ⟨fuel, rfl⟩ := Nat.exists_eq_add_of_lt hfuel
    rw [chain_nil.mp hl]
    simp [getLoop]
  | cons p l ih =>
    obtain ⟨fuel, rfl⟩ := Nat.exists_eq_add_of_lt hfuel
    obtain ⟨rfl, hrest⟩ := chain_cons.mp hl
    obtain ⟨node, hget, hscore, hnext, -⟩ := get_score (hlt p (by simp))
    obtain ⟨hbelow, hdesc⟩ := List.pairwise_cons.mp hdesc
    simp only [getLoop, hget, Option.bind_eq_bind, Option.bind_some, hscore, hnext]
    rcases lt_trichotomy (s.score p) sc with hless | heq | hmore
    · -- all later scores are smaller still
      have hnone : (p :: l).find? (fun q => s.score q = sc) = none := by
        refine List.find?_eq_none.mpr fun q hq => ?_
        rcases List.mem_cons.mp hq with rfl | hq
        · simpa using hless.ne
        · simpa using ((hbelow q hq).trans hless).ne
      rw [if_neg (not_lt_of_gt hless), if_neg hless.ne, hnone]
    · rw [if_neg (by simp [heq]), if_pos heq]
      simp [heq]
    · rw [if_pos hmore, ih hrest (fun q hq => hlt q (by simp [hq])) hdesc (by simp at hfuel ⊢; omega)]
      simp [hmore.ne']

/-- `score_get` finds the node of the score on the list of its entry. -/
theorem scoreGet_eq (h : ScoreLists s bucket) (hin : 0 ≤ idxOf sc) :
    s.scoreGet sc = some ((bucket (idxOf sc)).find? fun p => s.score p = sc) := by
  have hlt := idxOf_lt sc
  simp only [scoreGet, idx, hin, hlt, and_self, if_true, Option.bind_eq_bind, Option.bind_some]
  exact getLoop_eq (h.chain _) (fun p hp => (h.node _ p hp).1) (h.desc _)
    (Nat.lt_succ_of_le (h.length_le _))

/-- Outside the index there is no answer. -/
theorem scoreGet_none (hout : idxOf sc < 0) : s.scoreGet sc = none := by
  simp [scoreGet, idx, Int.not_le.mpr hout]

/-! ## `score_new` -/

/-- The walk of `score_new` passes the greater scores. -/
theorem newLoop_eq {l : List ScorePtr} {pre cur : Option ScorePtr} (hl : Chain s.nextScore cur l)
    (hlt : ∀ p ∈ l, p < s.scores.length) {fuel : Nat} (hfuel : l.length < fuel) :
    newLoop s sc fuel pre cur =
      some ((l.takeWhile fun p => sc < s.score p).getLast?.or pre,
        (l.dropWhile fun p => sc < s.score p).head?) := by
  induction l generalizing pre cur fuel with
  | nil =>
    obtain ⟨fuel, rfl⟩ := Nat.exists_eq_add_of_lt hfuel
    rw [chain_nil.mp hl]
    simp [newLoop]
  | cons p l ih =>
    obtain ⟨fuel, rfl⟩ := Nat.exists_eq_add_of_lt hfuel
    obtain ⟨rfl, hrest⟩ := chain_cons.mp hl
    obtain ⟨node, hget, hscore, hnext, -⟩ := get_score (hlt p (by simp))
    simp only [newLoop, hget, Option.bind_eq_bind, Option.bind_some, hscore, hnext]
    by_cases hmore : sc < s.score p
    · rw [if_pos hmore, ih hrest (fun q hq => hlt q (by simp [hq])) (by simp at hfuel ⊢; omega)]
      simp only [List.takeWhile_cons, List.dropWhile_cons, hmore, decide_true, if_true]
      cases hlast : (l.takeWhile fun p => sc < s.score p).getLast? with
      | none => simp [List.getLast?_eq_none_iff.mp hlast]
      | some q => simp [List.getLast?_cons, hlast]
    · rw [if_neg hmore]
      simp [hmore]

/-- A node of the score was made, and the uids were let alone. -/
structure Grown (s s' : Core) (sc : Int) : Prop where
  uids : s'.uids = s.uids
  ght : s'.ght = s.ght
  scores : s'.scores.map ScoreNode.score = s.scores.map ScoreNode.score ++ [sc]
  cnt : s'.cnt = Function.update s.cnt s.scores.length 0
  uidHead : s'.uidHead = Function.update s.uidHead s.scores.length none

theorem Grown.length (h : Grown s s' sc) : s'.scores.length = s.scores.length + 1 := by
  simpa using congrArg List.length h.scores

theorem Grown.score (h : Grown s s' sc) :
    s'.score = Function.update s.score s.scores.length sc := by
  have hnew : column (s.scores.map ScoreNode.score ++ [sc]) id 0 = _ := column_append sc
  rw [← h.scores, ← column_eq_map, ← column_eq_map, List.length_map] at hnew
  exact hnew

/-- A node that is made leaves the others as they are. -/
theorem Grown.score_old (h : Grown s s' sc) {p : ScorePtr} (hp : p < s.scores.length) :
    s'.score p = s.score p := by
  rw [h.score, Function.update_of_ne hp.ne]

/-- A node of the score was made and only the list of its entry changed, to `l`. -/
theorem ScoreLists.grown (h : ScoreLists s bucket) (g : Grown s s' sc) {l : List ScorePtr}
    (hchain : Chain s'.nextScore (s'.array (idxOf sc)).scoreHead l)
    (hmem : ∀ p ∈ l, p = s.scores.length ∨ p ∈ bucket (idxOf sc))
    (hdesc : l.Pairwise fun p q => s'.score q < s'.score p)
    (hcnt : (s'.array (idxOf sc)).cnt = (s.array (idxOf sc)).cnt + 1)
    (hother : ∀ j, j ≠ idxOf sc → s'.array j = s.array j)
    (hnext : ∀ j, j ≠ idxOf sc → ∀ p ∈ bucket j, s'.nextScore p = s.nextScore p) :
    ScoreLists s' (Function.update bucket (idxOf sc) l) where
  chain := by
    intro j
    by_cases hj : j = idxOf sc
    · subst hj
      simpa using hchain
    · rw [Function.update_of_ne hj, hother j hj]
      exact (h.chain j).congr (hnext j hj)
  node := by
    intro j p hp
    rw [g.length]
    have hold : p ∈ bucket j → p < s.scores.length + 1 ∧ idxOf (s'.score p) = j := by
      intro hp
      obtain ⟨hlt, hidx⟩ := h.node j p hp
      rw [g.score_old hlt]
      exact ⟨Nat.lt_succ_of_lt hlt, hidx⟩
    by_cases hj : j = idxOf sc
    · subst hj
      rw [Function.update_self] at hp
      rcases hmem p hp with rfl | hp
      · rw [g.score, Function.update_self]
        exact ⟨Nat.lt_succ_self _, rfl⟩
      · exact hold hp
    · rw [Function.update_of_ne hj] at hp
      exact hold hp
  desc := by
    intro j
    by_cases hj : j = idxOf sc
    · subst hj
      simpa using hdesc
    · rw [Function.update_of_ne hj]
      refine (h.desc j).imp_of_mem fun hp hq hlt => ?_
      rw [g.score_old (h.node j _ hp).1, g.score_old (h.node j _ hq).1]
      exact hlt
  cnt := by
    intro j
    rw [g.scores, List.countP_append, List.countP_singleton]
    by_cases hj : j = idxOf sc
    · subst hj
      rw [hcnt, h.cnt]
      simp
    · rw [hother j hj, h.cnt]
      simp [Ne.symm hj]

/-- The list of an entry after a node of the score was made for it. -/
def inserted (s : Core) (sc : Int) (new : ScorePtr) (l : List ScorePtr) : List ScorePtr :=
  if (l.takeWhile fun p => sc < s.score p) = [] then [new]
  else (l.takeWhile fun p => sc < s.score p) ++ new :: l.dropWhile fun p => sc < s.score p

/-- Behind the greater scores are the smaller ones. -/
theorem dropWhile_lt {l : List ScorePtr} (hdesc : l.Pairwise fun p q => s.score q < s.score p)
    (hnone : ∀ p ∈ l, s.score p ≠ sc) : ∀ p ∈ l.dropWhile fun p => sc < s.score p, s.score p < sc := by
  induction l with
  | nil => simp
  | cons p l ih =>
    obtain ⟨hbelow, hdesc⟩ := List.pairwise_cons.mp hdesc
    by_cases hmore : sc < s.score p
    · simpa [hmore] using ih hdesc fun q hq => hnone q (by simp [hq])
    · have hp : s.score p < sc := lt_of_le_of_ne (not_lt.mp hmore) (hnone p (by simp))
      simp only [List.dropWhile_cons, hmore, decide_false, Bool.false_eq_true, if_false]
      intro q hq
      rcases List.mem_cons.mp hq with rfl | hq
      · exact hp
      · exact (hbelow q hq).trans hp

/-- The new node becomes the head of the list of its entry. -/
def Core.newHead (s : Core) (sc : Int) : Core :=
  setIdx { s with scores := s.scores ++ [⟨sc, 0, none, none⟩] } (idxOf sc)
    ⟨(s.array (idxOf sc)).cnt + 1, some s.scores.length⟩

theorem ScoreLists.newHead (h : ScoreLists s bucket) (sc : Int) : Grown s (s.newHead sc) sc ∧
    ScoreLists (s.newHead sc) (Function.update bucket (idxOf sc) [s.scores.length]) := by
  have hgrown : Grown s (s.newHead sc) sc :=
    ⟨rfl, rfl, List.map_append, column_append _, column_append _⟩
  refine ⟨hgrown, h.grown hgrown ?_ (by simp) (by simp) (by simp [Core.newHead, setIdx]) ?_ ?_⟩
  · simp [Core.newHead, setIdx, nextScore, column_append]
  · intro j hj
    simp [Core.newHead, setIdx, hj]
  · intro j _ p hp
    simp [Core.newHead, setIdx, nextScore, column_append, (h.node j p hp).1.ne]

/-- The new node comes between `pre` and `cur`. -/
def Core.newBehind (s : Core) (sc : Int) (pre : ScorePtr) (node : ScoreNode)
    (cur : Option ScorePtr) : Core :=
  setIdx (setScore { s with scores := s.scores ++ [⟨sc, 0, cur, none⟩] } pre
    { node with nextScore := some s.scores.length }) (idxOf sc)
    { s.array (idxOf sc) with cnt := (s.array (idxOf sc)).cnt + 1 }

section

variable {before behind : List ScorePtr} {pre : ScorePtr} {node : ScoreNode}

theorem newBehind_nextScore (hnode : s.scores[pre]? = some node) (cur : Option ScorePtr)
    (p : ScorePtr) : (s.newBehind sc pre node cur).nextScore p =
      if p = pre then some s.scores.length
      else if p = s.scores.length then cur else s.nextScore p := by
  have hlt : pre < s.scores.length := (List.getElem?_eq_some_iff.mp hnode).1
  have hlen : pre < (s.scores ++ [(⟨sc, 0, cur, none⟩ : ScoreNode)]).length := by
    simpa using Nat.lt_succ_of_lt hlt
  simp [newBehind, setIdx, setScore, nextScore, column_set hlen, column_append,
    Function.update_apply]

theorem newBehind_grown (hnode : s.scores[pre]? = some node) (cur : Option ScorePtr) :
    Grown s (s.newBehind sc pre node cur) sc := by
  have hlt : pre < s.scores.length := (List.getElem?_eq_some_iff.mp hnode).1
  have hnode' : (s.scores ++ [(⟨sc, 0, cur, none⟩ : ScoreNode)])[pre]? = some node := by
    rw [List.getElem?_append_left hlt, hnode]
  refine ⟨rfl, rfl, ?_, ?_, ?_⟩
  · exact Eq.trans (map_set_same (f := ScoreNode.score) hnode' rfl) List.map_append
  · exact Eq.trans (column_set_same (f := ScoreNode.cnt) hnode' rfl) (column_append _)
  · exact Eq.trans (column_set_same (f := ScoreNode.uidHead) hnode' rfl) (column_append _)

theorem ScoreLists.newBehind (h : ScoreLists s bucket)
    (hsplit : bucket (idxOf sc) = before ++ pre :: behind)
    (hbefore : ∀ p ∈ before ++ [pre], sc < s.score p) (hbehind : ∀ p ∈ behind, s.score p < sc)
    (hnode : s.scores[pre]? = some node) :
    ScoreLists (s.newBehind sc pre node behind.head?)
      (Function.update bucket (idxOf sc) (before ++ pre :: s.scores.length :: behind)) := by
  have hgrown : Grown s (s.newBehind sc pre node behind.head?) sc := newBehind_grown hnode _
  have hnext : ∀ p, (s.newBehind sc pre node behind.head?).nextScore p = _ :=
    newBehind_nextScore hnode behind.head?
  have hchain := h.chain (idxOf sc)
  have hold : ∀ p ∈ bucket (idxOf sc), p < s.scores.length := fun p hp => (h.node _ p hp).1
  have hnd := hchain.nodup
  have hdesc := h.desc (idxOf sc)
  rw [hsplit] at hchain hold hnd hdesc
  have hlink : s.nextScore pre = behind.head? := by
    obtain ⟨x, -, hx⟩ := chain_append.mp hchain
    exact (chain_cons.mp hx).2.head
  have hpre : pre < s.scores.length := hold pre (by simp)
  refine h.grown hgrown ?_ ?_ ?_ (by simp [Core.newBehind, setIdx]) ?_ ?_
  · have hsame : (s.newBehind sc pre node behind.head?).array (idxOf sc) =
        { s.array (idxOf sc) with cnt := (s.array (idxOf sc)).cnt + 1 } := by
      simp [Core.newBehind, setIdx]
    rw [hsame]
    refine hchain.insert ?_ ?_ fun c hc => ?_
    · rw [hnext, if_pos rfl]
    · rw [hnext, if_neg hpre.ne', if_pos rfl, hlink]
    · have hne : c ≠ pre := by
        rintro rfl
        simp only [List.nodup_append, List.nodup_cons, List.mem_append, List.mem_cons] at hnd hc
        grind
      have hlt : c < s.scores.length := hold c (by simp at hc ⊢; tauto)
      rw [hnext, if_neg hne, if_neg hlt.ne]
  · intro p hp
    rw [hsplit]
    simp at hp ⊢
    tauto
  · have hnew : (s.newBehind sc pre node behind.head?).score s.scores.length = sc := by
      rw [hgrown.score, Function.update_self]
    have hscore : ∀ p ∈ before ++ pre :: behind,
        (s.newBehind sc pre node behind.head?).score p = s.score p :=
      fun p hp => hgrown.score_old (hold p hp)
    have hdesc' : (before ++ [pre] ++ behind).Pairwise fun p q =>
        (s.newBehind sc pre node behind.head?).score q <
          (s.newBehind sc pre node behind.head?).score p := by
      rw [List.append_assoc, List.singleton_append]
      refine hdesc.imp_of_mem fun hp hq hlt => ?_
      rw [hscore _ hp, hscore _ hq]
      exact hlt
    obtain ⟨hfirst, hlast, hcross⟩ := List.pairwise_append.mp hdesc'
    rw [← List.singleton_append, ← List.append_assoc]
    refine List.pairwise_append.mpr ⟨hfirst, List.pairwise_cons.mpr ⟨?_, hlast⟩, ?_⟩
    · intro q hq
      rw [hnew, hscore q (by simp [hq])]
      exact hbehind q hq
    · intro p hp q hq
      rcases List.mem_cons.mp hq with rfl | hq
      · rw [hnew, hscore p (by simp at hp ⊢; tauto)]
        exact hbefore p hp
      · exact hcross p hp q hq
  · intro j hj
    simp [Core.newBehind, setIdx, setScore, hj]
  · intro j hj p hp
    obtain ⟨hlt, hidx⟩ := h.node j p hp
    have hne : p ≠ pre := by
      rintro rfl
      exact hj (hidx.symm.trans (h.node _ p (by simp [hsplit])).2)
    rw [hnext, if_neg hne, if_neg hlt.ne]

end

/-- **`score_new`** for a score that has no node. -/
theorem scoreNew_eq (h : ScoreLists s bucket) (hin : 0 ≤ idxOf sc)
    (hget : s.scoreGet sc = some none) :
    ∃ s', s.scoreNew sc = some (s.scores.length, s') ∧ Grown s s' sc ∧
      ScoreLists s' (Function.update bucket (idxOf sc)
        (inserted s sc s.scores.length (bucket (idxOf sc)))) := by
  have hlt := idxOf_lt sc
  have hnone : ∀ p ∈ bucket (idxOf sc), s.score p ≠ sc := by
    rw [scoreGet_eq h hin] at hget
    simpa using hget
  have hchain := h.chain (idxOf sc)
  have hloop : newLoop s sc (s.scores.length + 1) (s.array (idxOf sc)).scoreHead
      (s.array (idxOf sc)).scoreHead = _ :=
    newLoop_eq hchain (fun p hp => (h.node _ p hp).1) (Nat.lt_succ_of_le (h.length_le _))
  have hsplit := List.takeWhile_append_dropWhile (p := fun p => decide (sc < s.score p))
    (l := bucket (idxOf sc))
  have hbehind := dropWhile_lt (h.desc (idxOf sc)) hnone
  have hbefore : ∀ p ∈ (bucket (idxOf sc)).takeWhile fun p => sc < s.score p, sc < s.score p :=
    fun p hp => by simpa using List.mem_takeWhile_imp hp
  simp only [scoreNew, hget, idx, hin, hlt, and_self, if_true, Option.bind_eq_bind,
    Option.bind_some, hloop]
  unfold inserted
  generalize (bucket (idxOf sc)).takeWhile (fun p => decide (sc < s.score p)) = before at *
  generalize (bucket (idxOf sc)).dropWhile (fun p => decide (sc < s.score p)) = behind at *
  rcases List.eq_nil_or_concat before with rfl | ⟨init, pre, rfl⟩
  · have hhead : (s.array (idxOf sc)).scoreHead = behind.head? := by
      rw [hchain.head, ← hsplit]
      rfl
    obtain ⟨hgrown, hlists⟩ := h.newHead sc
    refine ⟨_, ?_, hgrown, hlists⟩
    simp [hhead, Core.newHead]
  · rw [List.concat_eq_append] at hsplit hbefore ⊢
    have hpre : pre ∈ bucket (idxOf sc) := by simp [← hsplit]
    obtain ⟨node, hnode, -⟩ := get_score (h.node _ pre hpre).1
    have hnode' : (s.scores ++ [⟨sc, 0, behind.head?, none⟩])[pre]? = some node := by
      rw [List.getElem?_append_left (h.node _ pre hpre).1, hnode]
    have hne : some pre ≠ behind.head? := by
      intro heq
      have hmore := hbefore pre (by simp)
      have hless := hbehind pre (List.mem_of_mem_head? heq.symm)
      omega
    have hlists := h.newBehind (hsplit.symm.trans (List.append_assoc ..)) hbefore hbehind hnode
    refine ⟨_, ?_, newBehind_grown hnode behind.head?, ?_⟩
    · simp [hne, hnode', Core.newBehind]
    · simpa using hlists

/-! ## Both together -/

/-- The node of the score was found on its list, or it was made and its list is changed. -/
inductive FoundOrMade (s : Core) (bucket : Int → List ScorePtr) (sc : Int) : ScorePtr → Core → Prop
  | found (sn : ScorePtr) : sn ∈ bucket (idxOf sc) → s.score sn = sc → FoundOrMade s bucket sc sn s
  | made (s' : Core) : (∀ p ∈ bucket (idxOf sc), s.score p ≠ sc) → Grown s s' sc →
      ScoreLists s' (Function.update bucket (idxOf sc)
        (inserted s sc s.scores.length (bucket (idxOf sc)))) →
      FoundOrMade s bucket sc s.scores.length s'

/-- **`score_get` and `score_new`.** A score of the index has a node afterwards. -/
theorem scoreFor_eq (h : ScoreLists s bucket) (hin : 0 ≤ idxOf sc) :
    ∃ sn s', s.scoreFor sc = some (sn, s') ∧ FoundOrMade s bucket sc sn s' := by
  have hget := scoreGet_eq h hin
  cases hfind : (bucket (idxOf sc)).find? fun p => s.score p = sc with
  | some sn =>
    rw [hfind] at hget
    refine ⟨sn, s, by simp [scoreFor, hget], .found sn (List.mem_of_find?_eq_some hfind) ?_⟩
    simpa using List.find?_some hfind
  | none =>
    rw [hfind] at hget
    obtain ⟨s', hnew, hgrown, hlists⟩ := scoreNew_eq h hin hget
    refine ⟨s.scores.length, s', by simp [scoreFor, hget, hnew], .made s' ?_ hgrown hlists⟩
    simpa using List.find?_eq_none.mp hfind

/-- Outside the index there is no node. -/
theorem scoreFor_none (hout : idxOf sc < 0) : s.scoreFor sc = none := by
  simp [scoreFor, scoreGet_none hout]

end Donkeyji.Rank
