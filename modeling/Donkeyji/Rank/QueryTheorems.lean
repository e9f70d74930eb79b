/-
Donkeyji.Rank.QueryTheorems — which entry is read, and what `core_get_topn` does.

`score_get` and `score_new` keep great scores inside the index, and
`core_get_rank` does not; none of them keeps negative ones out. And
`core_get_topn` writes nothing, and its second loop never moves on.
-/
import Donkeyji.Rank.RankTheorems

namespace Donkeyji.Rank

open LinkedList Core Runs

variable {s : Core} {bucket : Int → List ScorePtr} {on : ScorePtr → List UidPtr}
  {sn : ScorePtr} {un : UidPtr} {uid sc : Int}

/-! ## Entries -/

/-- The three functions use one entry for the score, and the index has it. -/
def IndexConsistent (sc : Int) : Prop := idxOf sc = rankIdx sc ∧ 0 ≤ idxOf sc ∧ idxOf sc < idxLen

instance (sc : Int) : Decidable (IndexConsistent sc) :=
  inferInstanceAs (Decidable (_ ∧ _ ∧ _))

theorem indexConsistent_iff (sc : Int) : IndexConsistent sc ↔ -1000 < sc ∧ sc < 10000000 := by
  have hdiv : rankIdx sc = if 0 ≤ sc then sc / 1000 else -(-sc / 1000) := tdiv_base sc
  constructor
  · rintro ⟨heq, hlo, -⟩
    have hlt := idxOf_lt sc
    refine ⟨idxOf_nonneg.mp hlo, ?_⟩
    rw [heq, hdiv] at hlt
    unfold idxLen at hlt
    split at hlt <;> omega
  · rintro ⟨hlo, hhi⟩
    exact ⟨idxOf_eq_tdiv hhi, idxOf_nonneg.mpr hlo, idxOf_lt sc⟩

/-- The uid knows its score node, the score has an entry in the index, and the list of this
entry leads to the node. -/
def Core.Findable (s : Core) (uid : Int) : Prop :=
  ∃ un sn, s.ght uid = some un ∧ s.owner un = some sn ∧ s.score sn < 10000000 ∧ s.Linked sn

/-- Above the index nothing is read. -/
theorem coreGetRank_out (h : Wf s bucket on) (hght : s.ght uid = some un) (hown : s.owner un = some sn)
    (hscore : 10000000 ≤ s.score sn) : s.coreGetRank uid = none := by
  obtain ⟨u, hu, -, -, huown⟩ := get_uid (h.uid_lt hght)
  obtain ⟨node, hnode, hnscore, -⟩ := get_score (h.uids.node sn un (h.uids.mem_of_owner hown)).1
  have hidx : ¬ rankIdx (s.score sn) < idxLen := by
    have hdiv : rankIdx (s.score sn) = _ := tdiv_base (s.score sn)
    rw [hdiv, if_pos (by omega)]
    unfold idxLen
    omega
  simp only [coreGetRank, uidGet, hght, hu, huown, hown, hnode, hnscore, Option.bind_eq_bind,
    Option.bind_some, idx, hidx, and_false, if_false]
  cases s.cntAbove (rankIdx (s.score sn)) (idxLen - 1 - rankIdx (s.score sn)).toNat <;> rfl

/-- **When the entries agree.** The three functions use one entry of the index exactly for the
scores from -999 to 9999999. And in every state that calls lead to, `core_get_rank` of an
inserted uid ends and reads only the index and the list of its score node exactly if the uid
knows this node, the score is below 10000000, and the list of its entry still leads there. -/
theorem rank_index_iff (calls : List RankCall) (s : Core)
    (hrun : run rankStep coreInit calls = some s) :
    (∀ sc, IndexConsistent sc ↔ -1000 < sc ∧ sc < 10000000) ∧
    ∀ uid, (s.ght uid).isSome → ((s.coreGetRank uid).isSome ↔ s.Findable uid) := by
  refine ⟨indexConsistent_iff, ?_⟩
  intro uid hknown
  obtain ⟨bucket, on, h, -⟩ := run_wf hrun
  obtain ⟨un, hght⟩ := Option.isSome_iff_exists.mp hknown
  cases hown : s.owner un with
  | none =>
    rw [coreGetRank_lost h hght hown]
    refine iff_of_false (by simp) ?_
    rintro ⟨un', sn, hght', hown', -⟩
    rw [hght] at hght'
    cases hght'
    rw [hown] at hown'
    cases hown'
  | some sn =>
    have hfind : s.Findable uid ↔ s.score sn < 10000000 ∧ s.Linked sn := by
      constructor
      · rintro ⟨un', sn', hght', hown', hrest⟩
        rw [hght] at hght'
        cases hght'
        rw [hown] at hown'
        cases hown'
        exact hrest
      · exact fun hrest => ⟨un, sn, hght, hown, hrest⟩
    rw [hfind, h.scores.linked_iff]
    by_cases hscore : s.score sn < 10000000
    · rw [coreGetRank_eq h hght hown hscore]
      by_cases hmem : sn ∈ bucket (idxOf (s.score sn))
      · simp [hmem, hscore]
      · simp [hmem]
    · rw [coreGetRank_out h hght hown (not_lt.mp hscore)]
      simp [hscore]

/-- The score 10000000 is kept in the last entry and looked for behind it. -/
theorem index_leaves_array : ¬ IndexConsistent 10000000 ∧
    (run rankStep coreInit [.insert 1 10000000]).bind (·.coreGetRank 1) = none := by
  decide +kernel

/-- The score 9999999 has the last entry in all three, and the rank of its uid is found. -/
theorem rank_index_last : IndexConsistent 9999999 ∧
    ∃ s, run rankStep coreInit [.insert 1 9999999] = some s ∧ (s.coreGetRank 1).isSome ∧
      s.Findable 1 := by
  have hsome : (run rankStep coreInit [.insert 1 9999999]).isSome := by decide +kernel
  have hght : (run rankStep coreInit [.insert 1 9999999]).all fun s => (s.ght 1).isSome := by
    decide +kernel
  have hrank : (run rankStep coreInit [.insert 1 9999999]).all fun s => (s.coreGetRank 1).isSome := by
    decide +kernel
  obtain ⟨s, hs⟩ := Option.isSome_iff_exists.mp hsome
  rw [hs] at hght hrank
  obtain ⟨hindex, hfind⟩ := rank_index_iff [.insert 1 9999999] s hs
  exact ⟨(hindex 9999999).mpr (by decide), s, hs, hrank, (hfind 1 hght).mp hrank⟩

/-! ## `core_get_topn` -/

/-- The first places of `top` hold the uids of the greatest scores, as many as were asked for
and there are. -/
def TopnFilled (calls : List RankCall) (topn : Nat) (top : List Us) : Prop :=
  (top.take (min topn (calls.map RankCall.uid).dedup.length)).length =
      min topn (calls.map RankCall.uid).dedup.length ∧
    ((top.take (min topn (calls.map RankCall.uid).dedup.length)).map Us.uid).Nodup ∧
    (top.take (min topn (calls.map RankCall.uid).dedup.length)).Pairwise (fun a b => b.score ≤ a.score) ∧
    ∀ e ∈ top.take (min topn (calls.map RankCall.uid).dedup.length),
      latest calls e.uid = some e.score ∧
      ∀ v score, latest calls v = some score →
        v ∉ (top.take (min topn (calls.map RankCall.uid).dedup.length)).map Us.uid → score ≤ e.score

/-- Whatever is in `top` before, `core_get_topn` ends and fills it. -/
def TopnExact (calls : List RankCall) (s : Core) (topn : Nat) : Prop :=
  ∀ top : List Us, topn ≤ top.length →
    ∃ turns top', s.coreGetTopn turns top topn = some (0, top') ∧ TopnFilled calls topn top'

/-- The second loop never leaves a score node. -/
theorem rightLoop_some (topn : Int) (turns : Nat) (cnt : Int) (right : Option ScorePtr) :
    s.rightLoop topn turns (some sn) cnt right = none := by
  induction turns generalizing cnt right with
  | zero => rfl
  | succ turns ih =>
    rw [rightLoop]
    cases s.scores[sn]? with
    | none => rfl
    | some node => exact ih _ _

/-- `core_get_topn` writes nothing, and it ends only at an entry without a list. -/
theorem coreGetTopn_eq {turns : Nat} {top top' : List Us} {topn ret : Int}
    (h : s.coreGetTopn turns top topn = some (ret, top')) :
    top' = top ∧ ∃ cnt up, s.upLoop topn idxLen.toNat 0 = some (cnt, up) ∧
      (s.array up).scoreHead = none := by
  obtain ⟨⟨cnt, up⟩, hup, h⟩ := Option.bind_eq_some_iff.mp h
  obtain ⟨entry, hentry, h⟩ := Option.bind_eq_some_iff.mp h
  obtain ⟨right, hright, h⟩ := Option.bind_eq_some_iff.mp h
  have hidx : entry = s.array up := by
    unfold idx at hentry
    split at hentry
    · exact (Option.some.inj hentry).symm
    · cases hentry
  cases h
  refine ⟨rfl, cnt, up, hup, ?_⟩
  rw [← hidx]
  cases hhead : entry.scoreHead with
  | none => rfl
  | some p =>
    rw [hhead, rightLoop_some] at hright
    cases hright

/-- In an index without score nodes the first loop finds nothing. -/
theorem upLoop_init {topn : Int} (htop : 0 < topn) {n : Nat} (hn : (n : Int) ≤ idxLen) :
    coreInit.upLoop topn n 0 = some (0, 0) := by
  induction n with
  | zero => rfl
  | succ n ih =>
    have hin : (0 : Int) ≤ n ∧ (n : Int) < idxLen := by
      push_cast at hn
      omega
    have hidx : coreInit.idx n = some ⟨0, none⟩ := by
      simp only [idx, hin, and_self, if_true]
      rfl
    simp only [upLoop, hidx, Option.bind_eq_bind, Option.bind_some, add_zero,
      if_neg (not_le.mpr htop), ge_iff_le]
    exact ih (by omega)

/-- **When the top list is right.** Asked for at least one entry, `core_get_topn` ends and fills
`top` exactly if no uid was ever inserted. -/
theorem topn_exact_iff (calls : List RankCall) (s : Core)
    (hrun : run rankStep coreInit calls = some s) (topn : Nat) (htop : 1 ≤ topn) :
    TopnExact calls s topn ↔ calls = [] := by
  constructor
  · intro h
    cases calls with
    | nil => rfl
    | cons c calls =>
      obtain ⟨score, hscore⟩ := Option.isSome_iff_exists.mp
        (latest_isSome.mpr ⟨c, List.mem_cons_self, rfl⟩ : (latest (c :: calls) c.uid).isSome)
      -- a list that was wrong before is wrong afterwards
      obtain ⟨turns, top', htopn, hlen, -, -, hmem⟩ :=
        h (List.replicate topn ⟨c.uid, score + 1⟩) (by simp)
      obtain ⟨rfl, -⟩ := coreGetTopn_eq htopn
      have hpos : 0 < min topn ((c :: calls).map RankCall.uid).dedup.length := by
        refine lt_min (by omega) (List.length_pos_of_mem (a := c.uid) ?_)
        rw [List.mem_dedup]
        exact List.mem_map_of_mem List.mem_cons_self
      rw [List.take_replicate] at hmem
      have hfirst := (hmem ⟨c.uid, score + 1⟩ (List.mem_replicate.mpr ⟨by omega, rfl⟩)).1
      rw [hscore] at hfirst
      have heq : score = score + 1 := Option.some.inj hfirst
      omega
  · rintro rfl
    cases hrun
    intro top _
    refine ⟨1, top, ?_, ?_⟩
    · have hup : coreInit.upLoop topn idxLen.toNat 0 = some (0, 0) :=
        upLoop_init (by omega) (by decide)
      simp only [coreGetTopn, hup, Option.bind_eq_bind, Option.bind_some]
      rfl
    · simp [TopnFilled]

/-- No uid, and room for one. -/
theorem topn_exact_iff_init : TopnExact [] coreInit 1 ↔ ([] : List RankCall) = [] :=
  topn_exact_iff [] coreInit rfl 1 (le_refl 1)

/-- With one uid the list cannot be had. -/
theorem topn_of_one_uid : ∃ s, run rankStep coreInit [.insert 1 5] = some s ∧
    ¬ TopnExact [.insert 1 5] s 1 := by
  refine ⟨_, rfl, fun h => ?_⟩
  obtain ⟨turns, top', htopn, -, -, -, hmem⟩ := h [⟨1, 6⟩] (le_refl 1)
  obtain ⟨rfl, -⟩ := coreGetTopn_eq htopn
  have hfirst := (hmem ⟨1, 6⟩ (by decide)).1
  cases hfirst

end Donkeyji.Rank
