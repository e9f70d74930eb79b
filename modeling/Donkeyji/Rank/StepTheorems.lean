/-
Donkeyji.Rank.StepTheorems — what the calls do to the lists.

`Wf` is the invariant of the ranking: its score lists and uid lists are well
formed, the table knows every uid node, and every one of them is on a list. A
call for an unknown uid makes a node and hangs it up, one for a known uid
moves it (`Placed`); a call for a uid that does not know its score node never
returns.
-/
import Donkeyji.Lib.Runs
import Donkeyji.Rank.UidListTheorems

namespace Donkeyji.Rank

open LinkedList Core

variable {s s' : Core} {bucket : Int → List ScorePtr} {on : ScorePtr → List UidPtr}
  {sn : ScorePtr} {un : UidPtr} {uid sc : Int}

/-- The score nodes and the uid nodes are on the lists they belong to. -/
structure Wf (s : Core) (bucket : Int → List ScorePtr) (on : ScorePtr → List UidPtr) : Prop where
  scores : ScoreLists s bucket
  uids : UidLists s on
  index : ∀ p < s.scores.length, 0 ≤ idxOf (s.score p)
  table : ∀ uid un, s.ght uid = some un ↔ (s.uids.map UidNode.uid)[un]? = some uid
  placed : ∀ un < s.uids.length, ∃ sn, un ∈ on sn

theorem wf_init : Wf coreInit (fun _ => []) fun _ => [] where
  scores := ⟨fun _ => rfl, nofun, fun _ => List.Pairwise.nil, fun _ => rfl⟩
  uids := ⟨fun _ => rfl, fun _ => rfl, nofun, nofun, nofun⟩
  index := nofun
  table := by simp [coreInit]
  placed := nofun

theorem Wf.uid_lt (h : Wf s bucket on) (hght : s.ght uid = some un) : un < s.uids.length := by
  have hget := (h.table uid un).mp hght
  simpa using (List.getElem?_eq_some_iff.mp hget).1

/-- A uid that knows its score node hangs there. -/
theorem UidLists.mem_of_owner (h : UidLists s on) (hown : s.owner un = some sn) : un ∈ on sn :=
  List.mem_of_getLast? (h.owner un sn hown)

/-- The first uid of a score node. -/
theorem UidLists.head_none (h : UidLists s on) (sn : ScorePtr) : s.uidHead sn = none ↔ on sn = [] := by
  rw [(h.chain sn).head, List.head?_eq_none_iff]

/-! ## New nodes -/

/-- A node of an unknown uid is made. -/
def Core.addUid (s : Core) (uid : Int) : Core :=
  { s with
    uids := s.uids ++ [⟨uid, none, none, none⟩]
    ght := Function.update s.ght uid (some s.uids.length) }

theorem addUid_owner (uid : Int) : (s.addUid uid).owner = s.owner := by
  have hnew : (s.addUid uid).owner = Function.update s.owner s.uids.length none :=
    column_append _
  rw [hnew]
  exact Function.update_eq_self_iff.mpr (column_of_le (Nat.le_refl _)).symm

theorem UidLists.addUid (h : UidLists s on) (uid : Int) : UidLists (s.addUid uid) on := by
  have hold : ∀ sn, ∀ c ∈ on sn, c ≠ s.uids.length := fun sn c hc => (h.node sn c hc).2.ne
  refine ⟨fun sn => ?_, h.cnt, fun sn c hc => ?_, h.one, fun c sn hown => ?_⟩
  · refine (h.chain sn).congr (fun c hc => ?_) fun c hc => ?_
    · exact (congrFun (column_append _) c).trans (Function.update_of_ne (hold sn c hc) _ _)
    · exact (congrFun (column_append _) c).trans (Function.update_of_ne (hold sn c hc) _ _)
  · obtain ⟨hsn, hc⟩ := h.node sn c hc
    refine ⟨hsn, ?_⟩
    simpa [Core.addUid] using Nat.lt_succ_of_lt hc
  · rw [addUid_owner] at hown
    exact h.owner c sn hown

/-- The table of the nodes with one more of them. -/
theorem addUid_table (htable : ∀ uid un, s.ght uid = some un ↔
    (s.uids.map UidNode.uid)[un]? = some uid) (hnone : s.ght uid = none) (v : Int) (un : UidPtr) :
    (s.addUid uid).ght v = some un ↔ ((s.addUid uid).uids.map UidNode.uid)[un]? = some v := by
  change Function.update s.ght uid (some s.uids.length) v = some un ↔
    ((s.uids ++ [(⟨uid, none, none, none⟩ : UidNode)]).map UidNode.uid)[un]? = some v
  rw [List.map_append, List.getElem?_append, List.length_map]
  by_cases hlt : un < s.uids.length
  · rw [if_pos hlt]
    by_cases hv : v = uid
    · subst hv
      have hget := htable v un
      rw [hnone] at hget
      simp only [Function.update_self, Option.some.injEq]
      exact iff_of_false hlt.ne' fun hc => by cases hget.mpr hc
    · rw [Function.update_of_ne hv]
      exact htable v un
  · rw [if_neg hlt]
    by_cases hv : v = uid
    · subst hv
      simp only [Function.update_self, Option.some.injEq, List.map_cons, List.map_nil]
      by_cases hun : un = s.uids.length
      · simp [hun]
      · have hmore : s.uids.length < un := lt_of_le_of_ne (not_lt.mp hlt) (Ne.symm hun)
        rw [List.getElem?_singleton, if_neg (Nat.sub_ne_zero_of_lt hmore)]
        exact iff_of_false (Ne.symm hun) nofun
    · rw [Function.update_of_ne hv]
      have hout : s.ght v ≠ some un := by
        rw [ne_eq, htable v un, List.getElem?_eq_none_iff.mpr (by simpa using hlt)]
        nofun
      refine iff_of_false hout ?_
      simp only [List.map_cons, List.map_nil, List.getElem?_singleton]
      split
      · simpa using Ne.symm hv
      · nofun

/-- A new score node has no uids. -/
theorem UidLists.grown (h : UidLists s on) (g : Grown s s' sc) : UidLists s' on := by
  have hnew : on s.scores.length = [] := by
    refine List.eq_nil_iff_forall_not_mem.mpr fun c hc => ?_
    exact absurd (h.node _ c hc).1 (Nat.lt_irrefl _)
  have hown : s'.owner = s.owner := by rw [Core.owner, Core.owner, g.uids]
  refine ⟨fun sn => ?_, fun sn => ?_, fun sn c hc => ?_, h.one, fun c sn hc => ?_⟩
  · have hnext : s'.nextUid = s.nextUid := by rw [Core.nextUid, Core.nextUid, g.uids]
    have hpre : s'.preUid = s.preUid := by rw [Core.preUid, Core.preUid, g.uids]
    rw [g.uidHead, hnext, hpre]
    by_cases hsn : sn = s.scores.length
    · subst hsn
      rw [Function.update_self, hnew]
      rfl
    · rw [Function.update_of_ne hsn]
      exact h.chain sn
  · rw [g.cnt]
    by_cases hsn : sn = s.scores.length
    · subst hsn
      rw [Function.update_self, hnew]
      rfl
    · rw [Function.update_of_ne hsn]
      exact h.cnt sn
  · rw [g.length, g.uids]
    exact ⟨Nat.lt_succ_of_lt (h.node sn c hc).1, (h.node sn c hc).2⟩
  · rw [hown] at hc
    exact h.owner c sn hc

/-! ## Hanging a uid on a score -/

/-- The uid was hung on the node `sn` of the score. -/
structure Placed (s s' : Core) (bucket : Int → List ScorePtr) (on : ScorePtr → List UidPtr)
    (un : UidPtr) (sc : Int) (sn : ScorePtr) : Prop where
  score : s'.score sn = sc
  scoreOld : ∀ p < s.scores.length, s'.score p = s.score p
  node : sn ∈ bucket (idxOf sc) ∧ s.score sn = sc ∨
    sn = s.scores.length ∧ ∀ p ∈ bucket (idxOf sc), s.score p ≠ sc
  owner : s'.owner un = if on sn = [] then some sn else none
  ownerOther : ∀ c, c ≠ un → s'.owner c = s.owner c

/-- The state `s1` has the node `sn` of the score, and the uids of `s`. -/
structure Ready (s s1 : Core) (on : ScorePtr → List UidPtr) (sc : Int) (sn : ScorePtr) : Prop where
  scores : ∃ bucket, ScoreLists s1 bucket
  uidLists : UidLists s1 on
  index : ∀ p < s1.scores.length, 0 ≤ idxOf (s1.score p)
  uids : s1.uids = s.uids
  ght : s1.ght = s.ght
  lt : sn < s1.scores.length
  score : s1.score sn = sc
  scoreOld : ∀ p < s.scores.length, s1.score p = s.score p

theorem FoundOrMade.ready {s1 : Core} (hf : FoundOrMade s bucket sc sn s1) (hs : ScoreLists s bucket)
    (hu : UidLists s on) (hindex : ∀ p < s.scores.length, 0 ≤ idxOf (s.score p))
    (hin : 0 ≤ idxOf sc) : Ready s s1 on sc sn := by
  cases hf with
  | found _ hmem hscore =>
    exact ⟨⟨bucket, hs⟩, hu, hindex, rfl, rfl, (hs.node _ sn hmem).1, hscore, fun _ _ => rfl⟩
  | made _ hnone g hs1 =>
    have hself : s1.score s.scores.length = sc := by rw [g.score, Function.update_self]
    refine ⟨⟨_, hs1⟩, hu.grown g, fun p hp => ?_, g.uids, g.ght, ?_, hself, fun p hp => g.score_old hp⟩
    · rw [g.length] at hp
      rcases Nat.lt_succ_iff_lt_or_eq.mp hp with hp | rfl
      · rw [g.score_old hp]
        exact hindex p hp
      · rwa [hself]
    · rw [g.length]
      exact Nat.lt_succ_self _

theorem FoundOrMade.node {s1 : Core} (hf : FoundOrMade s bucket sc sn s1) :
    sn ∈ bucket (idxOf sc) ∧ s.score sn = sc ∨
      sn = s.scores.length ∧ ∀ p ∈ bucket (idxOf sc), s.score p ≠ sc := by
  cases hf with
  | found _ hmem hscore => exact .inl ⟨hmem, hscore⟩
  | made _ hnone _ _ => exact .inr ⟨rfl, hnone⟩

/-- The owners after a uid without an owner was hung up. -/
theorem Bound.owners (b : Bound s s' sn un) (h : UidLists s on) (hfree : ∀ sn, un ∉ on sn) :
    s'.owner un = (if on sn = [] then some sn else none) ∧ ∀ c, c ≠ un → s'.owner c = s.owner c := by
  rw [b.owner]
  by_cases hempty : s.uidHead sn = none
  · rw [if_pos hempty, if_pos ((h.head_none sn).mp hempty)]
    exact ⟨Function.update_self .., fun c hc => Function.update_of_ne hc _ _⟩
  · rw [if_neg hempty, if_neg fun hnil => hempty ((h.head_none sn).mpr hnil)]
    exact ⟨h.owner_none hfree, fun _ _ => rfl⟩

/-- **The insertion of an unknown uid.** -/
theorem insertNew_eq (h : Wf s bucket on) (hnone : s.ght uid = none) (hin : 0 ≤ idxOf sc) :
    ∃ s' sn bucket', s.insertNew uid sc = some (0, s') ∧
      Placed s s' bucket on s.uids.length sc sn ∧
      s'.ght = Function.update s.ght uid (some s.uids.length) ∧
      Wf s' bucket' (Function.update on sn (s.uids.length :: on sn)) := by
  have hlists : ScoreLists (s.addUid uid) bucket := h.scores.congr rfl rfl rfl
  have huids : UidLists (s.addUid uid) on := h.uids.addUid uid
  obtain ⟨sn, s1, hfor, hf⟩ : ∃ sn s1, (s.addUid uid).scoreFor sc = some (sn, s1) ∧ _ :=
    scoreFor_eq hlists hin
  have r := hf.ready hlists huids h.index hin
  have hfree : ∀ sn, s.uids.length ∉ on sn :=
    fun sn hmem => Nat.lt_irrefl _ (h.uids.node sn _ hmem).2
  have hun : s.uids.length < s1.uids.length := by
    rw [r.uids]
    simp [Core.addUid]
  obtain ⟨s2, hbind, b, hlists2⟩ := r.uidLists.bind r.lt hun hfree
  obtain ⟨hself, hother⟩ := b.owners r.uidLists hfree
  obtain ⟨bucket', hb'⟩ := r.scores
  have hown1 : s1.owner = s.owner := by
    rw [Core.owner, r.uids]
    exact addUid_owner uid
  refine ⟨s2, sn, bucket', ?_, ⟨?_, ?_, hf.node, hself, ?_⟩, ?_, ?_⟩
  · simp only [insertNew, uidNew, uidGet, hnone]
    change (scoreFor (s.addUid uid) sc).bind _ = _
    rw [hfor]
    simp [hbind]
  · rw [b.kept.score, r.score]
  · intro p hp
    rw [b.kept.score, r.scoreOld p hp]
    rfl
  · intro c hc
    rw [hother c hc, hown1]
  · rw [b.kept.ght, r.ght]
    rfl
  · refine ⟨hb'.kept b.kept, hlists2, ?_, ?_, ?_⟩
    · intro p hp
      rw [b.kept.scores_length] at hp
      rw [b.kept.score]
      exact r.index p hp
    · intro v un
      rw [b.kept.ght, b.kept.uids, r.ght, r.uids]
      exact addUid_table h.table hnone v un
    · intro c hc
      rw [b.kept.uids_length, r.uids] at hc
      by_cases hnew : c = s.uids.length
      · exact ⟨sn, by rw [Function.update_self, hnew]; exact List.mem_cons_self⟩
      · have hlt : c < s.uids.length := by
          have hle : c < s.uids.length + 1 := by simpa [Core.addUid] using hc
          exact lt_of_le_of_ne (Nat.lt_succ_iff.mp hle) hnew
        obtain ⟨sn', hmem⟩ := h.placed c hlt
        refine ⟨sn', ?_⟩
        by_cases heq : sn' = sn
        · subst heq
          rw [Function.update_self]
          exact List.mem_cons_of_mem _ hmem
        · rwa [Function.update_of_ne heq]

/-- **The update of a known uid that knows its score node**, to another score. -/
theorem move_eq (h : Wf s bucket on) (hght : s.ght uid = some un) {old : ScorePtr}
    (hown : s.owner un = some old) (hne : s.score old ≠ sc) (hin : 0 ≤ idxOf sc) :
    ∃ s' sn bucket', s.coreUpdate uid sc = some (0, s') ∧ sn ≠ old ∧
      Placed s s' bucket on un sc sn ∧ s'.ght = s.ght ∧
      Wf s' bucket' (Function.update (Function.update on old ((on old).erase un)) sn
        (un :: on sn)) := by
  have hun := h.uid_lt hght
  have hmem := h.uids.mem_of_owner hown
  have hold := (h.uids.node old un hmem).1
  obtain ⟨u, hu, -, -, huown⟩ := get_uid hun
  obtain ⟨node, hnode, hnscore, -⟩ := get_score hold
  obtain ⟨sn, s1, hfor, hf⟩ : ∃ sn s1, s.scoreFor sc = some (sn, s1) ∧ _ :=
    scoreFor_eq h.scores hin
  have r := hf.ready h.scores h.uids h.index hin
  have hsn : sn ≠ old := by
    rintro rfl
    exact hne ((r.scoreOld sn hold).symm.trans r.score)
  obtain ⟨s2, hunbind, d, hlists2⟩ := r.uidLists.unbind hmem
  have hfree : ∀ sn', un ∉ Function.update on old ((on old).erase un) sn' := by
    intro sn' hin'
    by_cases heq : sn' = old
    · subst heq
      rw [Function.update_self] at hin'
      exact (h.uids.chain sn').nodup.not_mem_erase hin'
    · rw [Function.update_of_ne heq] at hin'
      exact heq (h.uids.one sn' old un hin' hmem)
  have hsnlt : sn < s2.scores.length := by
    rw [d.kept.scores_length]
    exact r.lt
  have hunlt : un < s2.uids.length := by
    rw [d.kept.uids_length, r.uids]
    exact hun
  obtain ⟨s3, hbind, b, hlists3⟩ := hlists2.bind hsnlt hunlt hfree
  obtain ⟨hself, hother⟩ := b.owners hlists2 hfree
  have hon : Function.update on old ((on old).erase un) sn = on sn := Function.update_of_ne hsn _ _
  rw [hon] at hlists3 hself
  obtain ⟨bucket', hb'⟩ := r.scores
  have k : Kept s1 s3 := d.kept.trans b.kept
  refine ⟨s3, sn, bucket', ?_, hsn, ⟨?_, ?_, hf.node, hself, ?_⟩, ?_, ?_⟩
  · simp only [coreUpdate, uidGet, hght, hu, huown, hown, hnode, Option.bind_eq_bind,
      Option.bind_some, hnscore, if_neg hne.symm, hfor, hunbind, hbind]
    rfl
  · rw [k.score, r.score]
  · intro p hp
    rw [k.score, r.scoreOld p hp]
  · intro c hc
    rw [hother c hc, d.owner, Function.update_of_ne hc, Core.owner, r.uids]
    rfl
  · rw [k.ght, r.ght]
  · refine ⟨hb'.kept k, hlists3, ?_, ?_, ?_⟩
    · intro p hp
      rw [k.scores_length] at hp
      rw [k.score]
      exact r.index p hp
    · intro v c
      rw [k.ght, k.uids, r.ght, r.uids]
      exact h.table v c
    · intro c hc
      rw [k.uids_length, r.uids] at hc
      by_cases heq : c = un
      · exact ⟨sn, by rw [Function.update_self, heq]; exact List.mem_cons_self⟩
      · obtain ⟨sn', hmem'⟩ := h.placed c hc
        refine ⟨sn', ?_⟩
        simp only [Function.update_apply]
        split
        · rename_i hsn'
          subst hsn'
          exact List.mem_cons_of_mem _ hmem'
        · split
          · rename_i hold'
            subst hold'
            exact (List.mem_erase_of_ne heq).mpr hmem'
          · exact hmem'

/-! ## Calls that fail, and calls that do nothing -/

/-- A uid that does not know its score node cannot be updated. -/
theorem coreUpdate_lost (hun : un < s.uids.length) (hght : s.ght uid = some un)
    (hown : s.owner un = none) : s.coreUpdate uid sc = none := by
  obtain ⟨u, hu, -, -, huown⟩ := get_uid hun
  simp [coreUpdate, uidGet, hght, hu, huown, hown]

/-- After the insertion of an unknown uid `core_update` reads through NULL. -/
theorem coreUpdate_unknown (hnone : s.ght uid = none) : s.coreUpdate uid sc = none := by
  simp only [coreUpdate, uidGet, hnone]
  cases s.insertNew uid sc <;> rfl

/-- An update to the present score. -/
theorem coreUpdate_same (h : Wf s bucket on) (hght : s.ght uid = some un)
    (hown : s.owner un = some sn) : s.coreUpdate uid (s.score sn) = some (0, s) := by
  have hsn := (h.uids.node sn un (h.uids.mem_of_owner hown)).1
  obtain ⟨u, hu, -, -, huown⟩ := get_uid (h.uid_lt hght)
  obtain ⟨node, hnode, hnscore, -⟩ := get_score hsn
  simp [coreUpdate, uidGet, hght, hu, huown, hown, hnode, hnscore]

/-- A new score outside the index has no result. -/
theorem coreUpdate_out (h : Wf s bucket on) (hght : s.ght uid = some un)
    (hown : s.owner un = some sn) (hne : s.score sn ≠ sc) (hout : idxOf sc < 0) :
    s.coreUpdate uid sc = none := by
  have hsn := (h.uids.node sn un (h.uids.mem_of_owner hown)).1
  obtain ⟨u, hu, -, -, huown⟩ := get_uid (h.uid_lt hght)
  obtain ⟨node, hnode, hnscore, -⟩ := get_score hsn
  simp [coreUpdate, uidGet, hght, hu, huown, hown, hnode, hnscore, Ne.symm hne, scoreFor_none hout]

theorem insertNew_out (hnone : s.ght uid = none) (hout : idxOf sc < 0) :
    s.insertNew uid sc = none := by
  simp only [insertNew, uidNew, uidGet, hnone]
  change (scoreFor (s.addUid uid) sc).bind _ = _
  rw [scoreFor_none hout]
  rfl

/-! ## Steps -/

/-- What a call that returns did. -/
inductive Stepped (s : Core) (bucket : Int → List ScorePtr) (on : ScorePtr → List UidPtr)
    (c : RankCall) : Core → Prop
  | inserted (s' : Core) (sn : ScorePtr) (bucket' : Int → List ScorePtr) :
      s.ght c.uid = none → Placed s s' bucket on s.uids.length c.score sn →
      s'.ght = Function.update s.ght c.uid (some s.uids.length) →
      Wf s' bucket' (Function.update on sn (s.uids.length :: on sn)) → Stepped s bucket on c s'
  | same (un : UidPtr) (sn : ScorePtr) : s.ght c.uid = some un → s.owner un = some sn →
      s.score sn = c.score → Stepped s bucket on c s
  | moved (s' : Core) (un : UidPtr) (old sn : ScorePtr) (bucket' : Int → List ScorePtr) :
      s.ght c.uid = some un → s.owner un = some old → s.score old ≠ c.score → sn ≠ old →
      Placed s s' bucket on un c.score sn → s'.ght = s.ght →
      Wf s' bucket' (Function.update (Function.update on old ((on old).erase un)) sn
        (un :: on sn)) → Stepped s bucket on c s'

theorem coreUpdate_stepped (h : Wf s bucket on) {c : RankCall} {ret : Int}
    (hs : s.coreUpdate c.uid c.score = some (ret, s')) : Stepped s bucket on c s' := by
  cases hght : s.ght c.uid with
  | none =>
    rw [coreUpdate_unknown hght] at hs
    cases hs
  | some un =>
    cases hown : s.owner un with
    | none =>
      rw [coreUpdate_lost (h.uid_lt hght) hght hown] at hs
      cases hs
    | some old =>
      by_cases hsame : s.score old = c.score
      · rw [← hsame, coreUpdate_same h hght hown] at hs
        cases hs
        exact .same un old hght hown hsame
      · by_cases hin : 0 ≤ idxOf c.score
        · obtain ⟨s1, sn, bucket', hs1, hne, hplaced, hght', hwf⟩ := move_eq h hght hown hsame hin
          rw [hs1] at hs
          cases hs
          exact .moved _ un old sn bucket' hght hown hsame hne hplaced hght' hwf
        · rw [coreUpdate_out h hght hown hsame (not_le.mp hin)] at hs
          cases hs

/-- **What the calls do**: a call that returns inserts its uid, finds it at its score or moves
it. -/
theorem rankStep_cases (h : Wf s bucket on) {c : RankCall} (hs : rankStep s c = some s') :
    Stepped s bucket on c s' := by
  cases c with
  | update uid sc =>
    obtain ⟨⟨ret, s1⟩, hs1, rfl⟩ := Option.map_eq_some_iff.mp hs
    exact coreUpdate_stepped (c := .update uid sc) h hs1
  | insert uid sc =>
    obtain ⟨⟨ret, s1⟩, hs1, rfl⟩ := Option.map_eq_some_iff.mp hs
    unfold coreInsert at hs1
    cases hght : s.uidGet uid with
    | some un =>
      rw [hght] at hs1
      exact coreUpdate_stepped (c := .insert uid sc) h hs1
    | none =>
      rw [hght] at hs1
      by_cases hin : 0 ≤ idxOf sc
      · obtain ⟨s2, sn, bucket', hs2, hplaced, hght', hwf⟩ := insertNew_eq h hght hin
        rw [hs2] at hs1
        cases hs1
        exact .inserted (c := .insert uid sc) _ sn bucket' hght hplaced hght' hwf
      · simp only [insertNew_out hght (not_le.mp hin)] at hs1
        cases hs1

/-- The call finds its uid with a score node, or it inserts an unknown uid. -/
def CallOk (s : Core) (c : RankCall) : Prop :=
  match s.ght c.uid with
  | some un => (s.owner un).isSome
  | none => c = .insert c.uid c.score

instance (s : Core) (c : RankCall) : Decidable (CallOk s c) := by
  unfold CallOk
  split <;> infer_instance

/-- **When a call returns**, if its score is in the index. -/
theorem rankStep_returns (h : Wf s bucket on) {c : RankCall} (hin : 0 ≤ idxOf c.score) :
    (∃ s', rankStep s c = some s') ↔ CallOk s c := by
  constructor
  · rintro ⟨s', hs⟩
    unfold CallOk
    cases rankStep_cases h hs with
    | inserted _ sn bucket' hnone =>
      rw [hnone]
      cases c with
      | insert uid sc => rfl
      | update uid sc =>
        have hlost : s.coreUpdate uid sc = none := coreUpdate_unknown hnone
        rw [rankStep, hlost] at hs
        cases hs
    | same un sn hght hown =>
      rw [hght]
      exact Option.isSome_iff_exists.mpr ⟨sn, hown⟩
    | moved _ un old sn bucket' hght hown =>
      rw [hght]
      exact Option.isSome_iff_exists.mpr ⟨old, hown⟩
  · intro hok
    unfold CallOk at hok
    have hupdate : ∀ un, s.ght c.uid = some un → (s.owner un).isSome →
        ∃ s', s.coreUpdate c.uid c.score = some (0, s') := by
      intro un hght hsome
      obtain ⟨old, hown⟩ := Option.isSome_iff_exists.mp hsome
      by_cases hsame : s.score old = c.score
      · rw [← hsame]
        exact ⟨s, coreUpdate_same h hght hown⟩
      · obtain ⟨s', sn, bucket', hs', -⟩ := move_eq h hght hown hsame hin
        exact ⟨s', hs'⟩
    cases hght : s.ght c.uid with
    | some un =>
      rw [hght] at hok
      obtain ⟨s', hs'⟩ := hupdate un hght hok
      refine ⟨s', ?_⟩
      cases c with
      | insert uid sc =>
        have hget : s.uidGet uid = some un := hght
        simp only [rankStep, coreInsert, hget]
        exact congrArg (Option.map Prod.snd) hs'
      | update uid sc => exact congrArg (Option.map Prod.snd) hs'
    | none =>
      rw [hght] at hok
      obtain ⟨s', sn, bucket', hs', -⟩ := insertNew_eq h hght hin
      refine ⟨s', ?_⟩
      cases c with
      | insert uid sc =>
        have hget : s.uidGet uid = none := hght
        simp only [rankStep, coreInsert, hget]
        exact congrArg (Option.map Prod.snd) hs'
      | update uid sc => cases hok

/-- Every uid of the table hangs on the score that is known of it. -/
structure Tracks (s : Core) (on : ScorePtr → List UidPtr) (last : Int → Option Int) : Prop where
  known : ∀ uid, (last uid).isSome → (s.ght uid).isSome
  score : ∀ uid un sn, s.ght uid = some un → un ∈ on sn → last uid = some (s.score sn)

theorem tracks_init : Tracks coreInit (fun _ => []) fun _ => none := ⟨nofun, nofun⟩

/-- Two uids of the table are two nodes. -/
theorem Wf.table_inj (h : Wf s bucket on) {v : Int} (hu : s.ght uid = some un)
    (hv : s.ght v = some un) : uid = v := by
  have hget := (h.table uid un).mp hu
  rw [(h.table v un).mp hv] at hget
  exact (Option.some.inj hget).symm

/-- A uid that is hung up is tracked, if the others are. -/
theorem Placed.tracks {last : Int → Option Int} (ht : Tracks s on last)
    (hp : Placed s s' bucket on un sc sn) (hght : ∀ v, v ≠ uid → s'.ght v = s.ght v)
    (hself : s'.ght uid = some un) (hinj : ∀ v, v ≠ uid → s.ght v ≠ some un)
    {on' : ScorePtr → List UidPtr} (hon : ∀ p c, c ≠ un → c ∈ on' p → c ∈ on p)
    (hone : ∀ p, un ∈ on' p → p = sn) (hlt : ∀ p c, c ∈ on p → p < s.scores.length) :
    Tracks s' on' (Function.update last uid (some sc)) := by
  refine ⟨fun v hv => ?_, fun v c p hv hc => ?_⟩
  · by_cases hvu : v = uid
    · rw [hvu, hself]
      rfl
    · rw [Function.update_of_ne hvu] at hv
      rw [hght v hvu]
      exact ht.known v hv
  · by_cases hvu : v = uid
    · subst hvu
      rw [hself] at hv
      cases hv
      rw [Function.update_self, hone p hc, hp.score]
    · rw [hght v hvu] at hv
      have hne : c ≠ un := fun heq => hinj v hvu (heq ▸ hv)
      have hold := hon p c hne hc
      rw [Function.update_of_ne hvu, hp.scoreOld p (hlt p c hold)]
      exact ht.score v c p hv hold

/-- When a uid is hung up the others were on their lists before. -/
theorem mem_of_hung {c : UidPtr} {p : ScorePtr} (hc : c ≠ un)
    (hmem : c ∈ Function.update on sn (un :: on sn) p) : c ∈ on p := by
  by_cases hp : p = sn
  · subst hp
    rw [Function.update_self] at hmem
    exact (List.mem_cons.mp hmem).resolve_left hc
  · rwa [Function.update_of_ne hp] at hmem

/-- Also when it comes from another list. -/
theorem mem_of_moved {c : UidPtr} {old p : ScorePtr} (hc : c ≠ un)
    (hmem : c ∈ Function.update (Function.update on old ((on old).erase un)) sn (un :: on sn) p) :
    c ∈ on p := by
  simp only [Function.update_apply] at hmem
  split at hmem
  · rename_i hp
    subst hp
    exact (List.mem_cons.mp hmem).resolve_left hc
  · split at hmem
    · rename_i hp
      subst hp
      exact List.mem_of_mem_erase hmem
    · exact hmem

theorem Stepped.tracks {last : Int → Option Int} {c : RankCall} (h : Wf s bucket on)
    (ht : Tracks s on last) (hs : Stepped s bucket on c s') :
    ∃ bucket' on', Wf s' bucket' on' ∧ Tracks s' on' (Function.update last c.uid (some c.score)) := by
  have hlt : ∀ p c, c ∈ on p → p < s.scores.length := fun p c hc => (h.uids.node p c hc).1
  cases hs with
  | same un sn hght hown hscore =>
    have hlast := ht.score c.uid un sn hght (h.uids.mem_of_owner hown)
    rw [hscore] at hlast
    rw [Function.update_eq_self_iff.mpr hlast.symm]
    exact ⟨bucket, on, h, ht⟩
  | inserted _ sn bucket' hnone hp hght hwf =>
    refine ⟨bucket', _, hwf, hp.tracks ht (fun v hv => ?_) ?_ (fun v _ hv => ?_)
      (fun p d hd hmem => mem_of_hung hd hmem) (fun p hmem => ?_) hlt⟩
    · rw [hght, Function.update_of_ne hv]
    · rw [hght, Function.update_self]
    · exact Nat.lt_irrefl _ (h.uid_lt hv)
    · exact hwf.uids.one p sn _ hmem (by rw [Function.update_self]; exact List.mem_cons_self)
  | moved _ un old sn bucket' hun hown _ hne hp hght hwf =>
    refine ⟨bucket', _, hwf, hp.tracks ht (fun v _ => by rw [hght]) (by rw [hght, hun])
      (fun v hv hvun => hv (h.table_inj hvun hun)) (fun p d hd hmem => mem_of_moved hd hmem)
      (fun p hmem => ?_) hlt⟩
    exact hwf.uids.one p sn _ hmem (by rw [Function.update_self]; exact List.mem_cons_self)

/-! ## Runs -/

/-- The score of the last call for a uid. -/
def latest : List RankCall → Int → Option Int
  | [], _ => none
  | c :: calls, uid =>
    match latest calls uid with
    | some score => some score
    | none => if c.uid = uid then some c.score else none

/-- A uid has a latest score exactly if there is a call for it. -/
theorem latest_isSome {calls : List RankCall} :
    (latest calls uid).isSome ↔ ∃ c ∈ calls, c.uid = uid := by
  induction calls with
  | nil => simp [latest]
  | cons c calls ih =>
    rw [latest]
    cases hrest : latest calls uid with
    | some score =>
      obtain ⟨d, hd, huid⟩ := ih.mp (by rw [hrest]; rfl)
      exact iff_of_true rfl ⟨d, List.mem_cons_of_mem _ hd, huid⟩
    | none =>
      rw [hrest] at ih
      by_cases huid : c.uid = uid <;> simp_all

theorem run_tracks {last : Int → Option Int} {calls : List RankCall} (h : Wf s bucket on)
    (ht : Tracks s on last) (hrun : Runs.run rankStep s calls = some s') :
    ∃ bucket' on', Wf s' bucket' on' ∧
      Tracks s' on' fun uid => (latest calls uid).or (last uid) := by
  induction calls generalizing s last bucket on with
  | nil =>
    cases hrun
    exact ⟨bucket, on, h, ht⟩
  | cons c calls ih =>
    obtain ⟨s1, hs1, hrun⟩ := Option.bind_eq_some_iff.mp hrun
    obtain ⟨bucket1, on1, h1, ht1⟩ := (rankStep_cases h hs1).tracks h ht
    obtain ⟨bucket', on', h', ht'⟩ := ih h1 ht1 hrun
    refine ⟨bucket', on', h', ?_⟩
    have heq : (fun uid => (latest (c :: calls) uid).or (last uid)) =
        fun uid => (latest calls uid).or (Function.update last c.uid (some c.score) uid) := by
      funext uid
      rw [latest]
      cases latest calls uid with
      | some score => rfl
      | none =>
        by_cases huid : c.uid = uid
        · simp [huid]
        · simp [huid, Function.update_of_ne (Ne.symm huid)]
    rw [heq]
    exact ht'

/-- The latest score is that of a call. -/
theorem latest_mem {calls : List RankCall} (h : latest calls uid = some sc) :
    ∃ c ∈ calls, c.score = sc := by
  induction calls with
  | nil => cases h
  | cons c calls ih =>
    rw [latest] at h
    cases hrest : latest calls uid with
    | some score =>
      rw [hrest] at h ih
      obtain ⟨d, hd, hscore⟩ := ih h
      exact ⟨d, List.mem_cons_of_mem _ hd, hscore⟩
    | none =>
      simp only [hrest] at h
      by_cases huid : c.uid = uid
      · rw [if_pos huid] at h
        exact ⟨c, List.mem_cons_self, Option.some.inj h⟩
      · rw [if_neg huid] at h
        cases h

/-- **When calls return**, if their scores are in the index. -/
theorem run_returns {calls : List RankCall} (hin : ∀ c ∈ calls, 0 ≤ idxOf c.score) :
    (∃ s, Runs.run rankStep coreInit calls = some s) ↔
      Runs.AllSteps rankStep CallOk coreInit calls := by
  refine Runs.exists_run_iff
    (fun s => ∃ bucket on last, Wf s bucket on ∧ Tracks s on last) ?_ ?_
    ⟨_, _, _, wf_init, tracks_init⟩ hin
  · rintro s c ⟨bucket, on, last, h, -⟩ hc
    exact rankStep_returns h hc
  · rintro s c s' ⟨bucket, on, last, h, ht⟩ hs
    obtain ⟨bucket', on', h', ht'⟩ := (rankStep_cases h hs).tracks h ht
    exact ⟨bucket', on', _, h', ht'⟩

/-- **The lists after some calls.** Every uid of the calls hangs on the score of its last one. -/
theorem run_wf {calls : List RankCall} (hrun : Runs.run rankStep coreInit calls = some s) :
    ∃ bucket on, Wf s bucket on ∧ Tracks s on (latest calls) := by
  obtain ⟨bucket, on, h, ht⟩ := run_tracks wf_init tracks_init hrun
  refine ⟨bucket, on, h, ?_⟩
  simpa using ht

end Donkeyji.Rank
