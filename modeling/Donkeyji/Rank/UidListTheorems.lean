/-
Donkeyji.Rank.UidListTheorems — the lists of uids.

`UidLists` is the invariant: the uids of every score node are a doubly linked
list of the length of its counter, no uid is on two lists, and a uid that
knows its score node is the last one there, since only the first uid of an
empty list is told. `bind_score_uid` puts a uid in front, `unbind_score_uid`
takes one out from anywhere.
-/
import Donkeyji.Rank.ScoreListTheorems

namespace Donkeyji.Rank

open LinkedList Core

variable {s s' : Core} {on : ScorePtr → List UidPtr} {sn : ScorePtr} {un : UidPtr}

/-- The uids on the list of every score node. -/
structure UidLists (s : Core) (on : ScorePtr → List UidPtr) : Prop where
  chain : ∀ sn, DoubleChain s.nextUid s.preUid none (s.uidHead sn) (on sn)
  cnt : ∀ sn, s.cnt sn = (on sn).length
  node : ∀ sn, ∀ un ∈ on sn, sn < s.scores.length ∧ un < s.uids.length
  one : ∀ sn sn' un, un ∈ on sn → un ∈ on sn' → sn = sn'
  owner : ∀ un sn, s.owner un = some sn → (on sn).getLast? = some un

/-- The index, the table, the scores and the uids are the same. -/
structure Kept (s s' : Core) : Prop where
  array : s'.array = s.array
  ght : s'.ght = s.ght
  scores : s'.scores.map ScoreNode.score = s.scores.map ScoreNode.score
  nextScore : s'.nextScore = s.nextScore
  uids : s'.uids.map UidNode.uid = s.uids.map UidNode.uid

theorem get_uid (h : un < s.uids.length) :
    ∃ u, s.uids[un]? = some u ∧ u.nextUid = s.nextUid un ∧ u.preUid = s.preUid un ∧
      u.ownerScore = s.owner un := by
  have hget := List.getElem?_eq_getElem h
  exact ⟨_, hget, (column_of_get hget).symm, (column_of_get hget).symm, (column_of_get hget).symm⟩

/-- A uid that is on no list knows no score node. -/
theorem UidLists.owner_none (h : UidLists s on) (hfree : ∀ sn, un ∉ on sn) : s.owner un = none := by
  cases hown : s.owner un with
  | none => rfl
  | some sn => exact absurd (List.mem_of_getLast? (h.owner un sn hown)) (hfree sn)

theorem Kept.score (h : Kept s s') : s'.score = s.score := by
  rw [Core.score, Core.score, column_eq_map, h.scores, ← column_eq_map]

theorem Kept.scores_length (h : Kept s s') : s'.scores.length = s.scores.length := by
  simpa using congrArg List.length h.scores

theorem Kept.uids_length (h : Kept s s') : s'.uids.length = s.uids.length := by
  simpa using congrArg List.length h.uids

theorem Kept.refl (s : Core) : Kept s s := ⟨rfl, rfl, rfl, rfl, rfl⟩

theorem Kept.trans {s'' : Core} (h : Kept s s') (h' : Kept s' s'') : Kept s s'' :=
  ⟨h'.array.trans h.array, h'.ght.trans h.ght, h'.scores.trans h.scores,
    h'.nextScore.trans h.nextScore, h'.uids.trans h.uids⟩

theorem ScoreLists.kept {bucket : Int → List ScorePtr} (h : ScoreLists s bucket) (k : Kept s s') :
    ScoreLists s' bucket := h.congr k.array k.scores k.nextScore

/-! ## Writing nodes -/

/-- Writing the counter and the first uid of a score node. -/
theorem Kept.setScore (h : Kept s s') {node : ScoreNode} (hget : s'.scores[sn]? = some node)
    (c : Int) (head : Option UidPtr) :
    Kept s (s'.setScore sn { node with cnt := c, uidHead := head }) :=
  h.trans ⟨rfl, rfl, map_set_same hget rfl,
    column_set_same (f := ScoreNode.nextScore) hget rfl, rfl⟩

/-- Writing the links and the owner of a uid node. -/
theorem Kept.setUid (h : Kept s s') {u : UidNode} (hget : s'.uids[un]? = some u)
    (next pre : Option UidPtr) (own : Option ScorePtr) :
    Kept s (s'.setUid un { u with nextUid := next, preUid := pre, ownerScore := own }) :=
  h.trans ⟨rfl, rfl, rfl, rfl, map_set_same hget rfl⟩

/-! ## `bind_score_uid` -/

/-- What `bind_score_uid` writes. -/
structure Bound (s s' : Core) (sn : ScorePtr) (un : UidPtr) : Prop where
  kept : Kept s s'
  cnt : s'.cnt = Function.update s.cnt sn (s.cnt sn + 1)
  uidHead : s'.uidHead = Function.update s.uidHead sn (some un)
  nextUid : s'.nextUid = Function.update s.nextUid un (s.uidHead sn)
  preSelf : s'.preUid un = none
  preHead : ∀ b, s.uidHead sn = some b → s'.preUid b = some un
  preOther : ∀ c, c ≠ un → s.uidHead sn ≠ some c → s'.preUid c = s.preUid c
  owner : s'.owner = if s.uidHead sn = none then Function.update s.owner un (some sn) else s.owner

theorem bindScoreUid_eq (hsn : sn < s.scores.length) (hun : un < s.uids.length)
    (hhead : ∀ b, s.uidHead sn = some b → b < s.uids.length ∧ b ≠ un) :
    ∃ s', s.bindScoreUid sn un = some s' ∧ Bound s s' sn un := by
  obtain ⟨node, hnode, -, -, hcnt, huidHead⟩ := get_score hsn
  obtain ⟨u, hu, -, -, huown⟩ := get_uid hun
  cases hh : s.uidHead sn with
  | none =>
    rw [hh] at huidHead
    have hpre : (setUid (s.setScore sn { node with cnt := node.cnt + 1, uidHead := some un }) un
        { u with nextUid := none, preUid := none, ownerScore := some sn }).preUid =
        Function.update s.preUid un none := column_set hun _
    refine ⟨setUid (s.setScore sn { node with cnt := node.cnt + 1, uidHead := some un }) un
      { u with nextUid := none, preUid := none, ownerScore := some sn }, ?_,
      ⟨?_, ?_, ?_, ?_, ?_, ?_, ?_, ?_⟩⟩
    · simp [bindScoreUid, hnode, hu, huidHead]
    · exact ((Kept.refl s).setScore hnode _ _).setUid hu _ _ _
    · rw [← hcnt]
      exact column_set hsn _
    · exact column_set hsn _
    · rw [hh]
      exact column_set hun _
    · rw [hpre, Function.update_self]
    · simp [hh]
    · intro c hc _
      rw [hpre, Function.update_of_ne hc]
    · rw [if_pos hh]
      exact column_set hun _
  | some b =>
    rw [hh] at huidHead
    obtain ⟨hb, hne⟩ := hhead b hh
    obtain ⟨v, hv, -, -, hvown⟩ := get_uid hb
    have hb' : b < (s.uids.set un { u with nextUid := some b, preUid := none }).length := by
      simpa using hb
    have hv' : (s.uids.set un { u with nextUid := some b, preUid := none })[b]? = some v := by
      rw [List.getElem?_set_ne hne.symm, hv]
    have hnext : (column (s.uids.set un { u with nextUid := some b, preUid := none })
        UidNode.nextUid none) = Function.update s.nextUid un (some b) := column_set hun _
    have hpre : (setUid (setUid (s.setScore sn { node with cnt := node.cnt + 1, uidHead := some un })
        un { u with nextUid := some b, preUid := none }) b { v with preUid := some un }).preUid =
        Function.update (Function.update s.preUid un none) b (some un) :=
      (column_set hb' _).trans (congrArg (Function.update · b (some un)) (column_set hun _))
    refine ⟨setUid (setUid (s.setScore sn { node with cnt := node.cnt + 1, uidHead := some un }) un
      { u with nextUid := some b, preUid := none }) b { v with preUid := some un }, ?_,
      ⟨?_, ?_, ?_, ?_, ?_, ?_, ?_, ?_⟩⟩
    · simp [bindScoreUid, hnode, hu, huidHead, setUid, setScore, hv']
    · exact (((Kept.refl s).setScore hnode _ _).setUid hu _ _ _).setUid hv' _ _ _
    · rw [← hcnt]
      exact column_set hsn _
    · exact column_set hsn _
    · rw [hh, ← hnext]
      exact column_set_same (f := UidNode.nextUid) hv' rfl
    · rw [hpre, Function.update_of_ne hne.symm, Function.update_self]
    · intro c hc
      cases hh.symm.trans hc
      rw [hpre, Function.update_self]
    · intro c hc hcb
      have hcb' : c ≠ b := fun heq => hcb (by rw [hh, heq])
      rw [hpre, Function.update_of_ne hcb', Function.update_of_ne hc]
    · rw [if_neg (by simp [hh])]
      refine Eq.trans (column_set_same (f := UidNode.ownerScore) hv' ?_) ?_
      · rfl
      · exact column_set_same (f := UidNode.ownerScore) hu rfl

/-- A list gets the uid in front. -/
theorem UidLists.bind (h : UidLists s on) (hsn : sn < s.scores.length) (hun : un < s.uids.length)
    (hfree : ∀ sn, un ∉ on sn) :
    ∃ s', s.bindScoreUid sn un = some s' ∧ Bound s s' sn un ∧
      UidLists s' (Function.update on sn (un :: on sn)) := by
  have hfirst : ∀ b, s.uidHead sn = some b → b ∈ on sn := by
    intro b hb
    rw [(h.chain sn).head] at hb
    exact List.mem_of_mem_head? hb
  obtain ⟨s', hs', b⟩ := bindScoreUid_eq hsn hun fun b hb =>
    ⟨(h.node sn b (hfirst b hb)).2, fun heq => hfree sn (heq ▸ hfirst b hb)⟩
  have hne : ∀ sn' c, c ∈ on sn' → c ≠ un := fun sn' c hc heq => hfree sn' (heq ▸ hc)
  refine ⟨s', hs', b, ⟨?_, ?_, ?_, ?_, ?_⟩⟩
  · intro sn'
    rw [b.uidHead, b.nextUid]
    by_cases heq : sn' = sn
    · subst heq
      rw [Function.update_self, Function.update_self]
      refine (h.chain sn').pushFront (Function.update_self ..) b.preSelf ?_ b.preHead ?_
      · exact fun c hc => Function.update_of_ne (hne sn' c hc) _ _
      · exact fun c hc hcb => b.preOther c (hne sn' c hc) hcb
    · rw [Function.update_of_ne heq, Function.update_of_ne heq]
      refine (h.chain sn').congr (fun c hc => Function.update_of_ne (hne sn' c hc) _ _) ?_
      exact fun c hc => b.preOther c (hne sn' c hc) fun hcb =>
        heq (h.one sn' sn c hc (hfirst c hcb))
  · intro sn'
    rw [b.cnt]
    by_cases heq : sn' = sn
    · subst heq
      simp [h.cnt]
    · simp [heq, h.cnt]
  · intro sn' c hc
    rw [b.kept.scores_length, b.kept.uids_length]
    by_cases heq : sn' = sn
    · subst heq
      rw [Function.update_self] at hc
      rcases List.mem_cons.mp hc with rfl | hc
      · exact ⟨hsn, hun⟩
      · exact h.node sn' c hc
    · rw [Function.update_of_ne heq] at hc
      exact h.node sn' c hc
  · intro sn1 sn2 c h1 h2
    simp only [Function.update_apply] at h1 h2
    have hone := h.one sn1 sn2 c
    grind
  · intro c sn' hown
    rw [b.owner] at hown
    split at hown
    · rename_i hempty
      have hnil : on sn = [] := by
        rw [(h.chain sn).head] at hempty
        exact List.head?_eq_none_iff.mp hempty
      by_cases hc : c = un
      · subst hc
        rw [Function.update_self] at hown
        cases hown
        simp [hnil]
      · rw [Function.update_of_ne hc] at hown
        have hlast := h.owner c sn' hown
        have heq : sn' ≠ sn := by
          rintro rfl
          simp [hnil] at hlast
        rwa [Function.update_of_ne heq]
    · have hlast := h.owner c sn' hown
      by_cases heq : sn' = sn
      · subst heq
        rw [Function.update_self, List.getLast?_cons, hlast]
        rfl
      · rwa [Function.update_of_ne heq]

/-! ## `unbind_score_uid` -/

/-- What `unbind_score_uid` writes before it clears the uid. -/
structure Relinked (s s' : Core) (sn : ScorePtr) (un : UidPtr) : Prop where
  kept : Kept s s'
  cnt : s'.cnt = Function.update s.cnt sn (s.cnt sn - 1)
  uidHead : s'.uidHead = Function.update s.uidHead sn
    (if s.uidHead sn = some un then s.nextUid un else s.uidHead sn)
  owner : s'.owner = s.owner
  nextPre : ∀ b, s.uidHead sn ≠ some un → s.preUid un = some b → s'.nextUid b = s.nextUid un
  nextOther : ∀ c, (s.uidHead sn ≠ some un → s.preUid un ≠ some c) → s'.nextUid c = s.nextUid c
  preNext : ∀ n, s.nextUid un = some n → s'.preUid n = s.preUid un
  preOther : ∀ c, s.nextUid un ≠ some c → s'.preUid c = s.preUid c

/-- What `unbind_score_uid` writes. -/
structure Unbound (s s' : Core) (sn : ScorePtr) (un : UidPtr) : Prop where
  kept : Kept s s'
  cnt : s'.cnt = Function.update s.cnt sn (s.cnt sn - 1)
  uidHead : s'.uidHead = Function.update s.uidHead sn
    (if s.uidHead sn = some un then s.nextUid un else s.uidHead sn)
  owner : s'.owner = Function.update s.owner un none
  nextPre : ∀ b, s.uidHead sn ≠ some un → s.preUid un = some b → s'.nextUid b = s.nextUid un
  nextOther : ∀ c, c ≠ un → (s.uidHead sn ≠ some un → s.preUid un ≠ some c) →
    s'.nextUid c = s.nextUid c
  preNext : ∀ n, s.nextUid un = some n → s'.preUid n = s.preUid un
  preOther : ∀ c, c ≠ un → s.nextUid un ≠ some c → s'.preUid c = s.preUid c

theorem Relinked.clear (h : Relinked s s' sn un) (hun : un < s.uids.length)
    (hpre : s.preUid un ≠ some un) (hnext : s.nextUid un ≠ some un) :
    ∃ u, s'.uids[un]? = some u ∧ Unbound s
      (s'.setUid un { u with preUid := none, nextUid := none, ownerScore := none }) sn un := by
  have hlt : un < s'.uids.length := by rwa [h.kept.uids_length]
  obtain ⟨u, hu, -⟩ := get_uid hlt
  have hnextUid : (s'.setUid un
      { u with preUid := none, nextUid := none, ownerScore := none }).nextUid =
      Function.update s'.nextUid un none := column_set hlt _
  have hpreUid : (s'.setUid un
      { u with preUid := none, nextUid := none, ownerScore := none }).preUid =
      Function.update s'.preUid un none := column_set hlt _
  refine ⟨u, hu, ⟨h.kept.setUid hu _ _ _, h.cnt, h.uidHead, ?_, ?_, ?_, ?_, ?_⟩⟩
  · rw [← h.owner]
    exact column_set hlt _
  · intro b hhead hb
    have hne : b ≠ un := fun heq => hpre (heq ▸ hb)
    rw [hnextUid, Function.update_of_ne hne]
    exact h.nextPre b hhead hb
  · intro c hc hother
    rw [hnextUid, Function.update_of_ne hc]
    exact h.nextOther c hother
  · intro n hn
    have hne : n ≠ un := fun heq => hnext (heq ▸ hn)
    rw [hpreUid, Function.update_of_ne hne]
    exact h.preNext n hn
  · intro c hc hother
    rw [hpreUid, Function.update_of_ne hc]
    exact h.preOther c hother

/-- The first uid has none before it, any other one has. -/
structure Between (s : Core) (sn : ScorePtr) (un : UidPtr) : Prop where
  first : s.uidHead sn = some un → s.preUid un = none
  later : s.uidHead sn ≠ some un → ∃ b, s.preUid un = some b
  pre : ∀ b, s.preUid un = some b → b < s.uids.length ∧ b ≠ un ∧ s.nextUid un ≠ some b
  next : ∀ n, s.nextUid un = some n → n < s.uids.length ∧ n ≠ un

/-- Clearing the fields of the uid is the last thing that is done. -/
theorem Relinked.unbound (hun : un < s.uids.length) (h : Between s sn un) (hrel : Relinked s s' sn un) :
    ∃ u, s'.uids[un]? = some u ∧ Unbound s
      (s'.setUid un { u with preUid := none, nextUid := none, ownerScore := none }) sn un :=
  hrel.clear hun (fun heq => (h.pre un heq).2.1 rfl) fun heq => (h.next un heq).2 rfl

/-- The first uid of the list goes. -/
theorem unbindScoreUid_first (hsn : sn < s.scores.length) (hun : un < s.uids.length)
    (h : Between s sn un) (hfirst : s.uidHead sn = some un) :
    ∃ s', s.unbindScoreUid sn un = some s' ∧ Unbound s s' sn un := by
  obtain ⟨node, hnode, -, -, hcnt, huidHead⟩ := get_score hsn
  obtain ⟨u, hu, hunext, -⟩ := get_uid hun
  have hpre := h.first hfirst
  cases hnext : s.nextUid un with
  | none =>
    have hrel : Relinked s (s.setScore sn { node with cnt := node.cnt - 1, uidHead := none })
        sn un := by
      refine ⟨(Kept.refl s).setScore hnode _ _, ?_, ?_, rfl, ?_, ?_, ?_, ?_⟩
      · rw [← hcnt]
        exact column_set hsn _
      · rw [if_pos hfirst, hnext]
        exact column_set hsn _
      · exact fun b hne => absurd hfirst hne
      · exact fun c _ => rfl
      · simp [hnext]
      · exact fun c _ => rfl
    obtain ⟨v, hv, hunbound⟩ := hrel.unbound hun h
    refine ⟨_, ?_, hunbound⟩
    rw [huidHead.symm] at hfirst
    rw [← hunext] at hnext
    simp [unbindScoreUid, hnode, hu, hfirst, hnext, hv]
  | some n =>
    obtain ⟨v, hv, -⟩ := get_uid (h.next n hnext).1
    have hpreUid : (setUid (s.setScore sn { node with cnt := node.cnt - 1, uidHead := some n }) n
        { v with preUid := none }).preUid = Function.update s.preUid n none :=
      column_set (h.next n hnext).1 _
    have hsame : (setUid (s.setScore sn { node with cnt := node.cnt - 1, uidHead := some n }) n
        { v with preUid := none }).nextUid = s.nextUid :=
      column_set_same (f := UidNode.nextUid) hv rfl
    have hrel : Relinked s (setUid (s.setScore sn
        { node with cnt := node.cnt - 1, uidHead := some n }) n { v with preUid := none }) sn un := by
      refine ⟨((Kept.refl s).setScore hnode _ _).setUid hv _ _ _, ?_, ?_, ?_, ?_, ?_, ?_, ?_⟩
      · rw [← hcnt]
        exact column_set hsn _
      · rw [if_pos hfirst, hnext]
        exact column_set hsn _
      · exact column_set_same (f := UidNode.ownerScore) hv rfl
      · exact fun b hne => absurd hfirst hne
      · exact fun c _ => congrFun hsame c
      · intro m hm
        cases hnext.symm.trans hm
        rw [hpreUid, Function.update_self, hpre]
      · intro c hc
        have hne : c ≠ n := fun heq => hc (by rw [hnext, heq])
        rw [hpreUid, Function.update_of_ne hne]
    obtain ⟨w, hw, hunbound⟩ := hrel.unbound hun h
    refine ⟨_, ?_, hunbound⟩
    rw [huidHead.symm] at hfirst
    rw [← hunext] at hnext
    simp only [setUid, setScore] at hw ⊢
    simp only [unbindScoreUid, hnode, hu, hfirst, hnext, hv, hw, setUid, setScore,
      Option.bind_eq_bind, Option.bind_some, if_true, Option.pure_def]

/-- A later uid of the list goes. -/
theorem unbindScoreUid_later (hsn : sn < s.scores.length) (hun : un < s.uids.length)
    (h : Between s sn un) (hfirst : s.uidHead sn ≠ some un) :
    ∃ s', s.unbindScoreUid sn un = some s' ∧ Unbound s s' sn un := by
  obtain ⟨node, hnode, -, -, hcnt, huidHead⟩ := get_score hsn
  obtain ⟨u, hu, hunext, hupre, -⟩ := get_uid hun
  obtain ⟨b, hb⟩ := h.later hfirst
  obtain ⟨hblt, hbne, hbnext⟩ := h.pre b hb
  obtain ⟨p, hp, -⟩ := get_uid hblt
  have hfirst' : node.uidHead ≠ some un := by rwa [huidHead]
  have hb' : u.preUid = some b := hupre.trans hb
  have hnextUid : (setUid (s.setScore sn { node with cnt := node.cnt - 1 }) b
      { p with nextUid := s.nextUid un }).nextUid = Function.update s.nextUid b (s.nextUid un) :=
    column_set hblt _
  have hrel : ∀ s2, Kept (setUid (s.setScore sn { node with cnt := node.cnt - 1 }) b
      { p with nextUid := s.nextUid un }) s2 → s2.scores = s.scores.set sn { node with cnt := node.cnt - 1 } →
      s2.owner = s.owner → s2.nextUid = Function.update s.nextUid b (s.nextUid un) →
      (∀ n, s.nextUid un = some n → s2.preUid n = s.preUid un) →
      (∀ c, s.nextUid un ≠ some c → s2.preUid c = s.preUid c) → Relinked s s2 sn un := by
    intro s2 hkept hscores howner hnext2 hpre2 hother2
    refine ⟨(((Kept.refl s).setScore hnode _ _).setUid hp _ _ _).trans hkept, ?_, ?_, howner, ?_, ?_,
      hpre2, hother2⟩
    · rw [← hcnt, Core.cnt, hscores]
      exact column_set hsn _
    · rw [if_neg hfirst, ← huidHead, Core.uidHead, hscores]
      exact column_set hsn _
    · intro c _ hc
      cases hb.symm.trans hc
      rw [hnext2, Function.update_self]
    · intro c hc
      have hne : c ≠ b := fun heq => hc hfirst (by rw [hb, heq])
      rw [hnext2, Function.update_of_ne hne]
  cases hnext : s.nextUid un with
  | none =>
    rw [hnext] at hrel hnextUid
    have hsame : (setUid (s.setScore sn { node with cnt := node.cnt - 1 }) b
        { p with nextUid := none }).preUid = s.preUid :=
      column_set_same (f := UidNode.preUid) hp rfl
    obtain ⟨w, hw, hunbound⟩ := Relinked.unbound hun h (hrel _ (Kept.refl _) rfl
      (column_set_same (f := UidNode.ownerScore) hp rfl) hnextUid (by simp)
      fun c _ => congrFun hsame c)
    refine ⟨_, ?_, hunbound⟩
    rw [← hunext] at hnext
    simp only [setUid, setScore] at hw ⊢
    simp only [unbindScoreUid, hnode, hu, hnext, hb', hp, hw, setUid, setScore, if_neg hfirst',
      Option.bind_eq_bind, Option.bind_some, Option.pure_def]
  | some n =>
    rw [hnext] at hrel hnextUid
    have hne : b ≠ n := fun heq => hbnext (by rw [hnext, heq])
    obtain ⟨v, hv, -⟩ := get_uid (h.next n hnext).1
    have hv' : (s.uids.set b { p with nextUid := some n })[n]? = some v := by
      rw [List.getElem?_set_ne hne, hv]
    have hnlt : n < (s.uids.set b { p with nextUid := some n }).length := by
      simpa using (h.next n hnext).1
    have howner : (setUid (setUid (s.setScore sn { node with cnt := node.cnt - 1 }) b
        { p with nextUid := some n }) n { v with preUid := some b }).owner =
        column (s.uids.set b { p with nextUid := some n }) UidNode.ownerScore none :=
      column_set_same (f := UidNode.ownerScore) hv' rfl
    have hlinks : (setUid (setUid (s.setScore sn { node with cnt := node.cnt - 1 }) b
        { p with nextUid := some n }) n { v with preUid := some b }).nextUid =
        column (s.uids.set b { p with nextUid := some n }) UidNode.nextUid none :=
      column_set_same (f := UidNode.nextUid) hv' rfl
    have hsame : column (s.uids.set b { p with nextUid := some n }) UidNode.preUid none =
        s.preUid := column_set_same (f := UidNode.preUid) hp rfl
    have hback : (setUid (setUid (s.setScore sn { node with cnt := node.cnt - 1 }) b
        { p with nextUid := some n }) n { v with preUid := some b }).preUid =
        Function.update s.preUid n (some b) := by
      rw [← hsame]
      exact column_set hnlt _
    obtain ⟨w, hw, hunbound⟩ := Relinked.unbound hun h (hrel _ ((Kept.refl _).setUid hv' _ _ _) rfl
      (howner.trans (column_set_same (f := UidNode.ownerScore) hp rfl)) (hlinks.trans hnextUid)
      (by
        intro m hm
        cases hm
        rw [hback, Function.update_self, hb])
      (by
        intro c hc
        have hne : c ≠ n := fun heq => hc (by rw [heq])
        rw [hback, Function.update_of_ne hne]))
    refine ⟨_, ?_, hunbound⟩
    rw [← hunext] at hnext
    simp only [setUid, setScore] at hw ⊢
    simp only [unbindScoreUid, hnode, hu, hnext, hb', hp, hv', hw, setUid, setScore, if_neg hfirst',
      Option.bind_eq_bind, Option.bind_some, Option.pure_def]

theorem unbindScoreUid_eq (hsn : sn < s.scores.length) (hun : un < s.uids.length)
    (h : Between s sn un) : ∃ s', s.unbindScoreUid sn un = some s' ∧ Unbound s s' sn un := by
  by_cases hfirst : s.uidHead sn = some un
  · exact unbindScoreUid_first hsn hun h hfirst
  · exact unbindScoreUid_later hsn hun h hfirst

/-- The neighbours of a uid of a list. -/
theorem UidLists.neighbours (h : UidLists s on) {A C : List UidPtr} (hsplit : on sn = A ++ un :: C) :
    s.nextUid un = C.head? ∧ s.preUid un = A.getLast? ∧ s.uidHead sn = (A ++ [un]).head? ∧
      Between s sn un := by
  have hchain := h.chain sn
  rw [hsplit] at hchain
  have hnd := hchain.nodup
  have hnode : ∀ c ∈ A ++ un :: C, c < s.uids.length := by
    intro c hc
    exact (h.node sn c (hsplit ▸ hc)).2
  have hnext : s.nextUid un = C.head? := by
    obtain ⟨x, -, hx⟩ := chain_append.mp hchain.chain
    exact (chain_cons.mp hx).2.head
  have hhead : s.uidHead sn = (A ++ [un]).head? := by
    rw [hchain.head]
    cases A <;> rfl
  have hpre : s.preUid un = A.getLast? := by
    rcases List.eq_nil_or_concat A with rfl | ⟨A, b, rfl⟩
    · exact hchain.2.1
    · rw [List.concat_eq_append, List.append_assoc] at hchain
      simpa using hchain.prev_eq
  refine ⟨hnext, hpre, hhead, ?_, ?_, ?_, ?_⟩
  · intro hfirst
    rw [hhead] at hfirst
    cases A with
    | nil => exact hpre
    | cons a A =>
      cases hfirst
      simp at hnd
  · intro hlater
    rw [hhead] at hlater
    rw [hpre]
    cases A with
    | nil => exact absurd rfl hlater
    | cons a A => exact ⟨_, List.getLast?_cons⟩
  · intro b hb
    rw [hpre] at hb
    have hmem : b ∈ A := List.mem_of_getLast? hb
    refine ⟨hnode b (by simp [hmem]), ?_, ?_⟩
    · rintro rfl
      simp only [List.nodup_append, List.mem_cons] at hnd
      exact hnd.2.2 b hmem b (.inl rfl) rfl
    · rw [hnext]
      intro hc
      have hc' : b ∈ C := List.mem_of_mem_head? hc
      simp only [List.nodup_append, List.mem_cons] at hnd
      exact hnd.2.2 b hmem b (.inr hc') rfl
  · intro n hn
    rw [hnext] at hn
    have hmem : n ∈ C := List.mem_of_mem_head? hn
    refine ⟨hnode n (by simp [hmem]), ?_⟩
    rintro rfl
    simp only [List.nodup_append, List.nodup_cons] at hnd
    exact hnd.2.1.1 hmem

/-- A uid of a list is in no other place of it. -/
theorem UidLists.split_unique (h : UidLists s on) {A C : List UidPtr} (hsplit : on sn = A ++ un :: C) :
    un ∉ A ∧ un ∉ C ∧ ∀ c ∈ A ++ C, c ∈ on sn ∧ c ≠ un := by
  have hnd := (h.chain sn).nodup
  rw [hsplit] at hnd
  have hA : un ∉ A := by
    intro hmem
    simp only [List.nodup_append, List.mem_cons] at hnd
    exact hnd.2.2 un hmem un (.inl rfl) rfl
  have hC : un ∉ C := by
    simp only [List.nodup_append, List.nodup_cons] at hnd
    exact hnd.2.1.1
  refine ⟨hA, hC, ?_⟩
  intro c hc
  refine ⟨by rw [hsplit]; simp at hc ⊢; tauto, ?_⟩
  rintro rfl
  simp [hA, hC] at hc

/-- The links after a uid has left its list. -/
theorem UidLists.chain_unbound (h : UidLists s on) {A C : List UidPtr} (hsplit : on sn = A ++ un :: C)
    (u : Unbound s s' sn un) (sn' : ScorePtr) :
    DoubleChain s'.nextUid s'.preUid none (s'.uidHead sn') (Function.update on sn (A ++ C) sn') := by
  obtain ⟨hnext, hpre, hhead, hbetween⟩ := h.neighbours hsplit
  obtain ⟨-, -, hmem⟩ := h.split_unique hsplit
  have hun : un ∈ on sn := by simp [hsplit]
  have hchain := h.chain sn
  rw [hsplit] at hchain
  have hnd := hchain.nodup
  rw [u.uidHead]
  by_cases heq : sn' = sn
  · subst heq
    rw [Function.update_self, Function.update_self]
    rcases List.eq_nil_or_concat A with rfl | ⟨A, b, rfl⟩
    · rw [hhead, List.nil_append, List.head?_cons, if_pos rfl]
      refine hchain.popFront (fun c hc => u.nextOther c ?_ ?_) (fun n hn => ?_) fun c hc hcn => ?_
      · exact (hmem c hc).2
      · exact fun hne => absurd hhead hne
      · rw [u.preNext n hn]
        exact hpre
      · exact u.preOther c (hmem c hc).2 hcn
    · rw [List.concat_eq_append] at hchain hmem hpre hhead ⊢
      rw [List.append_assoc, List.singleton_append] at hchain ⊢
      have hb : s.preUid un = some b := by simpa using hpre
      have hlater : s.uidHead sn' ≠ some un := fun hfirst => by
        rw [hbetween.first hfirst] at hb
        cases hb
      rw [if_neg hlater]
      refine hchain.unlink ?_ (fun c hc => u.nextOther c ?_ ?_) (fun n hn => ?_) fun c hc hcn => ?_
      · exact u.nextPre b hlater hb
      · exact (hmem c (by simp at hc ⊢; tauto)).2
      · intro _ hcb
        rw [hb] at hcb
        cases hcb
        rw [List.append_cons, List.nodup_append] at hnd
        simp at hnd hc
        grind
      · rw [u.preNext n hn, hb]
      · exact u.preOther c (hmem c (by simp at hc ⊢; tauto)).2 hcn
  · rw [Function.update_of_ne heq, Function.update_of_ne heq]
    have hother : ∀ c ∈ on sn', c ∉ on sn := fun c hc hc' => heq (h.one sn' sn c hc hc')
    refine (h.chain sn').congr (fun c hc => u.nextOther c ?_ ?_) fun c hc => u.preOther c ?_ ?_
    · exact fun hcu => hother c hc (hcu ▸ hun)
    · intro _ hcb
      rw [hpre] at hcb
      exact hother c hc (hmem c (by simp [List.mem_of_getLast? hcb])).1
    · exact fun hcu => hother c hc (hcu ▸ hun)
    · intro hcn
      rw [hnext] at hcn
      exact hother c hc (hmem c (by simp [List.mem_of_mem_head? hcn])).1

/-- A list loses the uid. -/
theorem UidLists.unbind (h : UidLists s on) (hun : un ∈ on sn) :
    ∃ s', s.unbindScoreUid sn un = some s' ∧ Unbound s s' sn un ∧
      UidLists s' (Function.update on sn ((on sn).erase un)) := by
  obtain ⟨A, C, hsplit⟩ := List.append_of_mem hun
  obtain ⟨-, -, -, hbetween⟩ := h.neighbours hsplit
  obtain ⟨hsn, hunlt⟩ := h.node sn un hun
  obtain ⟨s', hs', u⟩ := unbindScoreUid_eq hsn hunlt hbetween
  obtain ⟨hA, -, hmem⟩ := h.split_unique hsplit
  have herase : (on sn).erase un = A ++ C := by
    rw [hsplit, List.erase_append_right _ hA, List.erase_cons_head]
  rw [herase]
  refine ⟨s', hs', u, ⟨h.chain_unbound hsplit u, ?_, ?_, ?_, ?_⟩⟩
  · intro sn'
    rw [u.cnt]
    by_cases heq : sn' = sn
    · subst heq
      simp [h.cnt, hsplit]
      omega
    · simp [heq, h.cnt]
  · intro sn' c hc
    rw [u.kept.scores_length, u.kept.uids_length]
    by_cases heq : sn' = sn
    · subst heq
      rw [Function.update_self] at hc
      exact h.node sn' c (hmem c hc).1
    · rw [Function.update_of_ne heq] at hc
      exact h.node sn' c hc
  · intro sn1 sn2 c h1 h2
    simp only [Function.update_apply] at h1 h2
    have hone := h.one sn1 sn2 c
    grind
  · intro c sn' hown
    rw [u.owner] at hown
    by_cases hc : c = un
    · rw [hc, Function.update_self] at hown
      cases hown
    · rw [Function.update_of_ne hc] at hown
      have hlast := h.owner c sn' hown
      by_cases heq : sn' = sn
      · subst heq
        rw [Function.update_self]
        rw [hsplit] at hlast
        cases C with
        | nil =>
          simp at hlast
          exact absurd hlast.symm hc
        | cons d C => simpa [List.getLast?_append, List.getLast?_cons] using hlast
      · rwa [Function.update_of_ne heq]

end Donkeyji.Rank
