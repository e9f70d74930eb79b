/-
Donkeyji.Rank.UpdateTheorems — `core_insert` and `core_update` against each other.

For a known uid they are the same function. Of an unknown one `core_insert`
reads past the end of the table, and `core_update` reads through the pointer
that it did not look up again. A known uid can be moved if it knows its score
node, and it knows the new one afterwards if it is the first uid there.
-/
import Donkeyji.Rank.StepTheorems

namespace Donkeyji.Rank

open LinkedList Core Runs

variable {s s' : Core} {bucket : Int → List ScorePtr} {on : ScorePtr → List UidPtr}
  {sn : ScorePtr} {un : UidPtr} {uid sc : Int}

/-- The score of a uid, read through its `owner_score`. -/
def Core.scoreOf (s : Core) (uid : Int) : Option Int := do
  let un ← s.ght uid
  let sn ← s.owner un
  return s.score sn

/-- The lookup of the uid is not past the end of the table, both calls return 0 and leave the
same state, and there the uid has the score and the others have theirs. -/
def Interchangeable (s : Core) (uid sc : Int) : Prop :=
  (s.ght uid).isSome ∧ ∃ s', s.coreInsert uid sc = some (0, s') ∧
    s.coreUpdate uid sc = some (0, s') ∧ s'.scoreOf uid = some sc ∧
    ∀ v, v ≠ uid → s'.scoreOf v = s.scoreOf v

/-- The uid knows its score node, and this node is of the score, or no node of the score on the
list of its entry has a uid. -/
def Core.Movable (s : Core) (uid sc : Int) : Prop :=
  ∃ un sn, s.ght uid = some un ∧ s.owner un = some sn ∧
    (s.score sn = sc ∨ ∀ p, Reach s.nextScore (s.array (idxOf sc)).scoreHead p →
      s.score p = sc → s.uidHead p = none)

/-- For a known uid the insertion is an update. -/
theorem coreInsert_known (hght : s.ght uid = some un) : s.coreInsert uid sc = s.coreUpdate uid sc := by
  have hget : s.uidGet uid = some un := hght
  simp only [coreInsert, hget]

/-- A score node is without uids if no linked node of the score has one. -/
theorem Placed.empty_iff (h : Wf s bucket on) (hp : Placed s s' bucket on un sc sn) :
    on sn = [] ↔ ∀ p, Reach s.nextScore (s.array (idxOf sc)).scoreHead p →
      s.score p = sc → s.uidHead p = none := by
  simp only [(h.scores.chain (idxOf sc)).reach_iff]
  rcases hp.node with ⟨hmem, hscore⟩ | ⟨rfl, hnone⟩
  · constructor
    · intro hempty p hpmem hps
      have heq : p = sn := h.scores.score_inj hpmem hmem (hps.trans hscore.symm)
      rw [heq]
      exact (h.uids.head_none sn).mpr hempty
    · intro hall
      exact (h.uids.head_none sn).mp (hall sn hmem hscore)
  · have hempty : on s.scores.length = [] := by
      refine List.eq_nil_iff_forall_not_mem.mpr fun c hc => ?_
      exact absurd (h.uids.node _ c hc).1 (Nat.lt_irrefl _)
    exact iff_of_true hempty fun p hpmem hps => absurd hps (hnone p hpmem)

/-- **When insert and update are interchangeable.** In every state that calls lead to, for a score
from 0 to 9999999: exactly if the uid is known and knows its score node, and the score is the
present one or no uid hangs on a node of it. -/
theorem interchangeable_iff (calls : List RankCall) (s : Core)
    (hrun : run rankStep coreInit calls = some s) (uid sc : Int) (h0 : 0 ≤ sc) (h1 : sc ≤ 9999999) :
    Interchangeable s uid sc ↔ s.Movable uid sc := by
  obtain ⟨bucket, on, h, -⟩ := run_wf hrun
  have hin : 0 ≤ idxOf sc := idxOf_nonneg.mpr (by omega)
  constructor
  · rintro ⟨hknown, s', -, hs', hself, -⟩
    obtain ⟨un, hght⟩ := Option.isSome_iff_exists.mp hknown
    cases hown : s.owner un with
    | none =>
      rw [coreUpdate_lost (h.uid_lt hght) hght hown] at hs'
      cases hs'
    | some old =>
      refine ⟨un, old, hght, hown, ?_⟩
      by_cases hsame : s.score old = sc
      · exact .inl hsame
      · obtain ⟨s1, sn, bucket', hs1, -, hp, hght', -⟩ := move_eq h hght hown hsame hin
        rw [hs'] at hs1
        cases hs1
        refine .inr ((hp.empty_iff h).mp ?_)
        by_contra hfull
        have howner := hp.owner
        rw [if_neg hfull] at howner
        simp [Core.scoreOf, hght', hght, howner] at hself
  · rintro ⟨un, old, hght, hown, hcond⟩
    refine ⟨by rw [hght]; rfl, ?_⟩
    rw [coreInsert_known hght]
    by_cases hsame : s.score old = sc
    · refine ⟨s, ?_, ?_, ?_, fun _ _ => rfl⟩
      · rw [← hsame, coreUpdate_same h hght hown]
      · rw [← hsame, coreUpdate_same h hght hown]
      · simp [Core.scoreOf, hght, hown, hsame]
    · obtain ⟨s1, sn, bucket', hs1, -, hp, hght', -⟩ := move_eq h hght hown hsame hin
      have hempty := (hp.empty_iff h).mpr (hcond.resolve_left hsame)
      have howner := hp.owner
      rw [if_pos hempty] at howner
      refine ⟨s1, hs1, hs1, ?_, fun v hv => ?_⟩
      · simp [Core.scoreOf, hght', hght, howner, hp.score]
      · unfold Core.scoreOf
        rw [hght']
        cases hgv : s.ght v with
        | none => rfl
        | some c =>
          have hne : c ≠ un := fun heq => hv (h.table_inj (heq ▸ hgv) hght)
          simp only [Option.bind_eq_bind, Option.bind_some, hp.ownerOther c hne]
          cases hoc : s.owner c with
          | none => rfl
          | some p =>
            have hlt := (h.uids.node p c (h.uids.mem_of_owner hoc)).1
            simp [hp.scoreOld p hlt]

/-- A uid of score 5, and the score 7. -/
theorem interchangeable_iff_one :
    ∃ s, run rankStep coreInit [.insert 1 5] = some s ∧ (Interchangeable s 1 7 ↔ s.Movable 1 7) :=
  ⟨_, rfl, interchangeable_iff [.insert 1 5] _ rfl 1 7 (by decide) (by decide)⟩

/-- The update of an unknown uid does not return. -/
theorem unknown_uid_not_interchangeable : ¬ Interchangeable coreInit 1 5 := by
  rintro ⟨-, s', -, hs', -⟩
  have hnone : coreInit.coreUpdate 1 5 = none := coreUpdate_unknown rfl
  rw [hnone] at hs'
  cases hs'

end Donkeyji.Rank
