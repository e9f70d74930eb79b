/-
Donkeyji.Rank.OwnerTheorems — when every uid knows its score node.

After any calls every uid is on the list of one score node, the lists are
doubly linked, and the counters are their lengths. What can be missing is the
`owner_score`: `bind_score_uid` sets it only for the first uid of a score
node. `uidsKept_iff` says for which calls it is never missing.
-/
import Donkeyji.Rank.RankTheorems
import Donkeyji.Rank.UpdateTheorems

namespace Donkeyji.Rank

open LinkedList Core Runs

variable {s s' : Core} {bucket : Int → List ScorePtr} {on : ScorePtr → List UidPtr}
  {sn : ScorePtr} {un : UidPtr} {sc : Int} {c : RankCall}

/-- The uids of every score node are linked forward and back and as many as its counter says, and
every uid is on the list of one score node, its `owner_score`. -/
def UidsRight (s : Core) : Prop :=
  ∃ on : ScorePtr → List UidPtr,
    (∀ sn < s.scores.length, DoubleChain s.nextUid s.preUid none (s.uidHead sn) (on sn) ∧
      s.cnt sn = (on sn).length) ∧
    ∀ uid un, s.ght uid = some un → ∃ sn < s.scores.length, un ∈ on sn ∧ s.owner un = some sn ∧
      ∀ sn' < s.scores.length, un ∈ on sn' → sn' = sn

/-- All calls return, and after each of them the uids are right. -/
def UidsKept (calls : List RankCall) : Prop :=
  (∃ s, run rankStep coreInit calls = some s) ∧ AllStates rankStep UidsRight coreInit calls

/-- The uid has the score already, or no linked node of the score has a uid. -/
def ScoreFree (s : Core) (c : RankCall) : Prop :=
  s.scoreOf c.uid = some c.score ∨ ∀ p, Reach s.nextScore (s.array (idxOf c.score)).scoreHead p →
    s.score p = c.score → s.uidHead p = none

/-- The call inserts or its uid is known, and its score has an entry and is free. -/
def HangsAlone (s : Core) (c : RankCall) : Prop :=
  (c = .insert c.uid c.score ∨ (s.ght c.uid).isSome) ∧ -1000 < c.score ∧ ScoreFree s c

/-! ## Owners -/

/-- Where the lists are well formed only an owner can be missing. -/
theorem Wf.uidsRight_iff (h : Wf s bucket on) : UidsRight s ↔ s.Owned := by
  constructor
  · rintro ⟨on', -, howner⟩ un hun
    have hght : s.ght (s.uids.get ⟨un, hun⟩).uid = some un := by
      rw [h.table]
      simp [hun]
    obtain ⟨sn, -, -, hown, -⟩ := howner _ un hght
    simp [hown]
  · intro howned
    refine ⟨on, fun sn _ => ⟨h.uids.chain sn, h.uids.cnt sn⟩, fun uid un hght => ?_⟩
    obtain ⟨sn, hown⟩ := Option.isSome_iff_exists.mp (howned un (h.uid_lt hght))
    have hmem := h.uids.mem_of_owner hown
    exact ⟨sn, (h.uids.node sn un hmem).1, hmem, hown, fun sn' _ hmem' => h.uids.one sn' sn un hmem' hmem⟩

/-- A uid that is hung up has an owner exactly if it is the first one there. -/
theorem Placed.owned_iff (hp : Placed s s' bucket on un sc sn) (howned : s.Owned)
    (hun : un < s'.uids.length) (hold : ∀ v < s'.uids.length, v ≠ un → v < s.uids.length) :
    s'.Owned ↔ on sn = [] := by
  constructor
  · intro h
    have hsome := h un hun
    rw [hp.owner] at hsome
    by_contra hne
    simp [hne] at hsome
  · intro hempty v hv
    by_cases hvu : v = un
    · simp [hvu, hp.owner, hempty]
    · rw [hp.ownerOther v hvu]
      exact howned v (hold v hv hvu)

/-- A call that returns has a score with an entry. -/
theorem Stepped.index (h : Wf s bucket on) (hs : Stepped s bucket on c s') : 0 ≤ idxOf c.score := by
  cases hs with
  | same un sn hght hown hscore =>
    rw [← hscore]
    exact h.index sn (h.uids.node sn un (h.uids.mem_of_owner hown)).1
  | inserted _ sn bucket' _ hp _ hwf =>
    have hmem := hwf.uids.node sn s.uids.length (by simp)
    rw [← hp.score]
    exact hwf.index sn hmem.1
  | moved _ un old sn bucket' _ _ _ _ hp _ hwf =>
    have hmem := hwf.uids.node sn un (by simp)
    rw [← hp.score]
    exact hwf.index sn hmem.1

/-- A call that returns leaves well-formed lists. -/
theorem Stepped.wf (h : Wf s bucket on) (hs : Stepped s bucket on c s') :
    ∃ bucket' on', Wf s' bucket' on' := by
  cases hs with
  | same => exact ⟨bucket, on, h⟩
  | inserted _ _ bucket' _ _ _ hwf => exact ⟨bucket', _, hwf⟩
  | moved _ _ _ _ bucket' _ _ _ _ _ _ hwf => exact ⟨bucket', _, hwf⟩

/-- A call that returns keeps the owners exactly if its score is free. -/
theorem Stepped.owned_iff (h : Wf s bucket on) (howned : s.Owned) (hs : Stepped s bucket on c s') :
    s'.Owned ↔ ScoreFree s c := by
  cases hs with
  | same un sn hght hown hscore =>
    refine iff_of_true howned (Or.inl ?_)
    simp [Core.scoreOf, hght, hown, hscore]
  | inserted _ sn bucket' hnone hp hght hwf =>
    have hun := hwf.uid_lt (by rw [hght, Function.update_self])
    have hnot : s.scoreOf c.uid ≠ some c.score := by simp [Core.scoreOf, hnone]
    rw [hp.owned_iff howned hun, hp.empty_iff h, ScoreFree, or_iff_right hnot]
    -- the other uids were on the lists before
    intro v hv hne
    obtain ⟨p, hmem⟩ := hwf.placed v hv
    exact (h.uids.node p v (mem_of_hung hne hmem)).2
  | moved _ un old sn bucket' hght hown hne hsn hp hght' hwf =>
    have hun := hwf.uid_lt (hght'.symm ▸ hght)
    have hnot : s.scoreOf c.uid ≠ some c.score := by simp [Core.scoreOf, hght, hown, hne]
    rw [hp.owned_iff howned hun, hp.empty_iff h, ScoreFree, or_iff_right hnot]
    intro v hv hne'
    obtain ⟨p, hmem⟩ := hwf.placed v hv
    exact (h.uids.node p v (mem_of_moved hne' hmem)).2

/-- **A call where all uids know their score nodes.** If it hangs up its uid alone it returns, and
they all know them afterwards. -/
theorem HangsAlone.step (ha : HangsAlone s c) (h : Wf s bucket on) (howned : s.Owned) :
    ∃ s', rankStep s c = some s' ∧ ∃ bucket' on', Wf s' bucket' on' ∧ s'.Owned := by
  obtain ⟨hknown, hlow, hfree⟩ := ha
  have hok : CallOk s c := by
    unfold CallOk
    cases hght : s.ght c.uid with
    | some un => exact howned un (h.uid_lt hght)
    | none => exact hknown.resolve_right (by simp [hght])
  obtain ⟨s', hs⟩ := (rankStep_returns h (idxOf_nonneg.mpr hlow)).mpr hok
  have hstep := rankStep_cases h hs
  obtain ⟨bucket', on', h'⟩ := hstep.wf h
  exact ⟨s', hs, bucket', on', h', (hstep.owned_iff h howned).mpr hfree⟩

/-- And if it returns and they all know them afterwards, it hangs up its uid alone. -/
theorem hangsAlone_of_step (h : Wf s bucket on) (howned : s.Owned) (hs : rankStep s c = some s')
    (hright : UidsRight s') : HangsAlone s c := by
  have hstep := rankStep_cases h hs
  have hin := hstep.index h
  obtain ⟨bucket', on', h'⟩ := hstep.wf h
  have hok := (rankStep_returns h hin).mp ⟨s', hs⟩
  refine ⟨?_, idxOf_nonneg.mp hin, (hstep.owned_iff h howned).mp (h'.uidsRight_iff.mp hright)⟩
  unfold CallOk at hok
  cases hght : s.ght c.uid with
  | some un => exact Or.inr rfl
  | none =>
    rw [hght] at hok
    exact Or.inl hok

/-! ## Runs -/

/-- **When the uid lists are right.** The calls return with the uids right after each of them
exactly if every call inserts or finds its uid and either the uid has the score already, or the
score has an entry and no linked node of it has a uid. -/
theorem uidsKept_iff (calls : List RankCall) :
    UidsKept calls ↔ AllSteps rankStep HangsAlone coreInit calls := by
  have hinit : coreInit.Owned := nofun
  refine run_allStates_iff (fun s => ∃ bucket on, Wf s bucket on ∧ s.Owned) (fun _ => True)
    ?_ ?_ ?_ ⟨_, _, wf_init, hinit⟩ (fun _ _ => trivial)
  · rintro s ⟨bucket, on, h, howned⟩
    exact h.uidsRight_iff.mpr howned
  · rintro s c ⟨bucket, on, h, howned⟩ - halone
    exact halone.step h howned
  · rintro s c s' ⟨bucket, on, h, howned⟩ - hs hright
    exact hangsAlone_of_step h howned hs hright

/-- Where a uid does not know its score node the uids are not right. -/
theorem not_uidsKept_of_lost {calls : List RankCall} (uid : Int) (un : UidPtr)
    (hlost : (run rankStep coreInit calls).all fun s => s.ght uid = some un ∧ s.owner un = none) :
    ¬ UidsKept calls := by
  rintro ⟨⟨s, hrun⟩, hall⟩
  rw [hrun] at hlost
  obtain ⟨hght, hnone⟩ := of_decide_eq_true hlost
  obtain ⟨on, -, howner⟩ := hall.last hrun
  obtain ⟨sn, -, -, hown, -⟩ := howner uid un hght
  rw [hnone] at hown
  cases hown

/-- The second uid of a score does not know its score node, whether it is inserted there or moved
there from another score. -/
theorem not_uidsKept : ¬ UidsKept [.insert 1 5, .insert 2 5] ∧
    ¬ UidsKept [.insert 1 5, .insert 2 2005, .update 2 5] := by
  constructor
  · exact not_uidsKept_of_lost 2 1 (by decide +kernel)
  · exact not_uidsKept_of_lost 2 1 (by decide +kernel)

end Donkeyji.Rank
