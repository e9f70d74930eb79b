/-
Donkeyji.Rank.ScoreRunTheorems — the score nodes after calls of `score_new`.

A run remembers every score that `score_new` was called with, and the node it
gave. The lists stay in order whatever the calls are, but a node that becomes
the head of a list with other nodes has no successor, and these are lost.
`scoresKept_iff`: that never happens exactly if the first score of every entry
is the greatest one of the entry.
-/
import Donkeyji.Lib.Runs
import Donkeyji.Rank.ScoreListTheorems

namespace Donkeyji.Rank

open LinkedList Core Runs

/-- The index after some calls of `score_new`: the scores so far, and the nodes they got. -/
structure ScoreRun where
  core : Core
  made : List (Int × ScorePtr)

/-- The scores so far. -/
def ScoreRun.scores (r : ScoreRun) : List Int := r.made.map Prod.fst

/-- Before the first call. -/
def ScoreRun.init : ScoreRun := ⟨coreInit, []⟩

/-- A call of `score_new`. -/
def scoreStep (r : ScoreRun) (sc : Int) : Option ScoreRun := do
  let (sn, s) ← r.core.scoreNew sc
  return ⟨s, r.made ++ [(sc, sn)]⟩

/-- `score_get` finds every score at the node it got, every list falls strictly and has only
scores of its entry, and every node is on the list of its entry. -/
structure ScoresFound (r : ScoreRun) : Prop where
  found : ∀ e ∈ r.made, r.core.scoreGet e.1 = some (some e.2)
  lists : ∀ i, ∃ l, Chain r.core.nextScore (r.core.array i).scoreHead l ∧
    (l.Pairwise fun p q => r.core.score q < r.core.score p) ∧
      ∀ p ∈ l, p < r.core.scores.length ∧ idxOf (r.core.score p) = i
  linked : ∀ p < r.core.scores.length, r.core.Linked p

/-- All calls return, and after each of them the scores so far are found. -/
def ScoresKept (scores : List Int) : Prop :=
  (∃ r, run scoreStep .init scores = some r) ∧ AllStates scoreStep ScoresFound .init scores

/-- The first score of every entry is the greatest one of it. -/
def FirstGreatest (scores : List Int) : Prop :=
  ∀ sc ∈ scores, ∀ first, scores.find? (idxOf · = idxOf sc) = some first → sc ≤ first

variable {r r' : ScoreRun} {s s' : Core} {sc : Int} {bucket : Int → List ScorePtr}
  {l : List ScorePtr} {new : ScorePtr}

/-! ## The list after an insertion -/

/-- If the new node does not become the head of other nodes, nothing is lost. -/
theorem mem_inserted (h : ∀ p, l.head? = some p → sc < s.score p) (q : ScorePtr) :
    q ∈ inserted s sc new l ↔ q = new ∨ q ∈ l := by
  cases l with
  | nil => simp [inserted]
  | cons p l =>
    have hp : sc < s.score p := h p rfl
    have hsplit : q ∈ l ↔ q ∈ l.takeWhile (sc < s.score ·) ∨ q ∈ l.dropWhile (sc < s.score ·) := by
      rw [← List.mem_append, List.takeWhile_append_dropWhile]
    simp only [inserted, List.takeWhile_cons, List.dropWhile_cons, hp, decide_true, if_true,
      reduceCtorEq, if_false, List.cons_append, List.mem_cons, List.mem_append, hsplit]
    tauto

/-- And the list keeps its head, if it has one. -/
theorem head_inserted (h : ∀ p, l.head? = some p → sc < s.score p) :
    (inserted s sc new l).head? = some (l.head?.getD new) := by
  cases l with
  | nil => simp [inserted]
  | cons p l =>
    have hp : sc < s.score p := h p rfl
    simp [inserted, hp]

/-- A new head is all there is. -/
theorem inserted_head {p : ScorePtr} (hp : l.head? = some p) (h : s.score p < sc) :
    inserted s sc new l = [new] := by
  cases l with
  | nil => cases hp
  | cons q l =>
    cases hp
    simp [inserted, not_lt_of_gt h]

/-- The head has the greatest score. -/
theorem ScoreLists.le_head (h : ScoreLists s bucket) {i : Int} {p q : ScorePtr}
    (hp : (bucket i).head? = some p) (hq : q ∈ bucket i) : s.score q ≤ s.score p := by
  have hdesc := h.desc i
  cases hb : bucket i with
  | nil => simp [hb] at hq
  | cons a l =>
    rw [hb] at hp hq hdesc
    cases hp
    rcases List.mem_cons.mp hq with rfl | hq
    · exact le_refl _
    · exact ((List.pairwise_cons.mp hdesc).1 q hq).le

/-- A score of a list is found at its node. -/
theorem ScoreLists.find_score (h : ScoreLists s bucket) {i : Int} {p : ScorePtr}
    (hp : p ∈ bucket i) : (bucket i).find? (fun q => s.score q = s.score p) = some p := by
  cases hfind : (bucket i).find? fun q => s.score q = s.score p with
  | none => simpa using List.find?_eq_none.mp hfind p hp
  | some q =>
    have hq : s.score q = s.score p := by simpa using List.find?_some hfind
    rw [h.score_inj (List.mem_of_find?_eq_some hfind) hp hq]

/-- `score_new` looks for the score itself. -/
theorem scoreFor_eq_scoreNew (s : Core) (sc : Int) : s.scoreFor sc = s.scoreNew sc := by
  unfold scoreFor scoreNew
  cases s.scoreGet sc with
  | none => rfl
  | some sn => cases sn <;> simp

/-! ## What a call does -/

/-- Nothing was lost: all nodes are on their lists, and each list begins with the first score of
its entry. -/
structure Remembered (r : ScoreRun) (bucket : Int → List ScorePtr) : Prop where
  lists : ScoreLists r.core bucket
  index : ∀ e ∈ r.made, 0 ≤ idxOf e.1
  node : ∀ e ∈ r.made, e.2 ∈ bucket (idxOf e.1) ∧ r.core.score e.2 = e.1
  linked : ∀ p < r.core.scores.length, p ∈ bucket (idxOf (r.core.score p))
  first : ∀ i, (bucket i).head?.map r.core.score = r.scores.find? (idxOf · = i)

theorem remembered_init : Remembered .init fun _ => [] where
  lists := ⟨fun _ => rfl, nofun, fun _ => List.Pairwise.nil, fun _ => rfl⟩
  index := nofun
  node := nofun
  linked := nofun
  first _ := rfl

theorem Remembered.scoresFound (h : Remembered r bucket) : ScoresFound r where
  found e he := by
    obtain ⟨hmem, hscore⟩ := h.node e he
    rw [scoreGet_eq h.lists (h.index e he), ← hscore, h.lists.find_score (hscore ▸ hmem)]
  lists i := ⟨bucket i, h.lists.chain i, h.lists.desc i, h.lists.node i⟩
  linked p hp := h.lists.linked_iff.mpr (h.linked p hp)

/-- No score of the entry came first, or it is at least this one. -/
def FirstAtLeast (r : ScoreRun) (sc : Int) : Prop :=
  ∀ first, r.scores.find? (idxOf · = idxOf sc) = some first → sc ≤ first

/-- The head of the list has the first score. -/
theorem Remembered.head_score (h : Remembered r bucket) {i : Int} {p : ScorePtr}
    (hp : (bucket i).head? = some p) :
    r.scores.find? (idxOf · = i) = some (r.core.score p) := by
  rw [← h.first, hp, Option.map_some]

/-- The first score after a call. -/
theorem find_scores (sn : ScorePtr) (i : Int) :
    (ScoreRun.scores ⟨s', r.made ++ [(sc, sn)]⟩).find? (idxOf · = i) =
      (r.scores.find? (idxOf · = i)).or (if idxOf sc = i then some sc else none) := by
  simp [ScoreRun.scores, List.find?_append, List.find?_singleton]

/-- A score that has a node is not above the first one. -/
theorem Remembered.firstAtLeast (h : Remembered r bucket) {sn : ScorePtr}
    (hmem : sn ∈ bucket (idxOf sc)) (hscore : r.core.score sn = sc) : FirstAtLeast r sc := by
  intro first hfirst
  cases hhead : (bucket (idxOf sc)).head? with
  | none => simp [List.head?_eq_none_iff.mp hhead] at hmem
  | some p =>
    rw [h.head_score hhead] at hfirst
    cases hfirst
    rw [← hscore]
    exact h.lists.le_head hhead hmem

/-- A score that has a node. -/
theorem Remembered.foundNode (h : Remembered r bucket) {sn : ScorePtr}
    (hin : 0 ≤ idxOf sc) (hmem : sn ∈ bucket (idxOf sc)) (hscore : r.core.score sn = sc) :
    Remembered ⟨r.core, r.made ++ [(sc, sn)]⟩ bucket where
  lists := h.lists
  index := List.forall_mem_append.mpr ⟨h.index, List.forall_mem_singleton.mpr hin⟩
  node := List.forall_mem_append.mpr ⟨h.node, List.forall_mem_singleton.mpr ⟨hmem, hscore⟩⟩
  linked := h.linked
  first i := by
    rw [find_scores, ← h.first]
    by_cases hi : idxOf sc = i
    · subst hi
      cases hhead : (bucket (idxOf sc)).head? with
      | none => simp [List.head?_eq_none_iff.mp hhead] at hmem
      | some p => simp
    · simp [hi]

/-- A score that gets a node and is not above the first one is below the head. -/
theorem Remembered.below_head (h : Remembered r bucket)
    (hnone : ∀ p ∈ bucket (idxOf sc), r.core.score p ≠ sc) (hfirst : FirstAtLeast r sc) (p : ScorePtr)
    (hp : (bucket (idxOf sc)).head? = some p) : sc < r.core.score p := by
  have hle := hfirst _ (h.head_score hp)
  have hne := hnone p (List.mem_of_mem_head? hp)
  omega

/-- What was on a list stays on it. -/
theorem mem_update_inserted (hbelow : ∀ p, (bucket (idxOf sc)).head? = some p → sc < s.score p)
    {i : Int} {p : ScorePtr} (hp : p ∈ bucket i) :
    p ∈ Function.update bucket (idxOf sc) (inserted s sc new (bucket (idxOf sc))) i := by
  by_cases hi : i = idxOf sc
  · subst hi
    rw [Function.update_self]
    exact (mem_inserted hbelow p).mpr (Or.inr hp)
  · rwa [Function.update_of_ne hi]

/-- The new node is on the list of its entry. -/
theorem new_mem_update (hbelow : ∀ p, (bucket (idxOf sc)).head? = some p → sc < s.score p) :
    new ∈ Function.update bucket (idxOf sc) (inserted s sc new (bucket (idxOf sc))) (idxOf sc) := by
  rw [Function.update_self]
  exact (mem_inserted hbelow new).mpr (Or.inl rfl)

/-- A score that gets a node, not above the first one. -/
theorem Remembered.madeNode (h : Remembered r bucket) (hin : 0 ≤ idxOf sc)
    (hnone : ∀ p ∈ bucket (idxOf sc), r.core.score p ≠ sc) (g : Grown r.core s' sc)
    (hlists : ScoreLists s' (Function.update bucket (idxOf sc)
      (inserted r.core sc r.core.scores.length (bucket (idxOf sc)))))
    (hfirst : FirstAtLeast r sc) :
    Remembered ⟨s', r.made ++ [(sc, r.core.scores.length)]⟩ (Function.update bucket (idxOf sc)
      (inserted r.core sc r.core.scores.length (bucket (idxOf sc)))) := by
  have hbelow := h.below_head hnone hfirst
  have hnew : s'.score r.core.scores.length = sc := by rw [g.score, Function.update_self]
  constructor
  case lists => exact hlists
  case index => exact List.forall_mem_append.mpr ⟨h.index, List.forall_mem_singleton.mpr hin⟩
  case node =>
    refine List.forall_mem_append.mpr ⟨fun e he => ?_, List.forall_mem_singleton.mpr
      ⟨new_mem_update hbelow, hnew⟩⟩
    obtain ⟨hmem, hscore⟩ := h.node e he
    exact ⟨mem_update_inserted hbelow hmem, (g.score_old (h.lists.node _ _ hmem).1).trans hscore⟩
  case linked =>
    intro p hp
    dsimp only at hp ⊢
    rw [g.length] at hp
    rcases Nat.lt_succ_iff_lt_or_eq.mp hp with hp | rfl
    · rw [g.score_old hp]
      exact mem_update_inserted hbelow (h.linked p hp)
    · rw [hnew]
      exact new_mem_update hbelow
  case first =>
    intro i
    rw [find_scores, ← h.first]
    have hscore : ∀ p, (bucket i).head? = some p → s'.score p = r.core.score p :=
      fun p hp => g.score_old (h.lists.node i p (List.mem_of_mem_head? hp)).1
    by_cases hi : idxOf sc = i
    · subst hi
      rw [Function.update_self, head_inserted hbelow]
      cases hhead : (bucket (idxOf sc)).head? with
      | none => simp [hnew]
      | some p => simp [hscore p hhead]
    · rw [Function.update_of_ne (Ne.symm hi)]
      cases hhead : (bucket i).head? with
      | none => simp [hi]
      | some p => simp [hi, hscore p hhead]

/-- A score above the first one takes the place of the whole list. -/
theorem Remembered.lost (h : Remembered r bucket) (g : Grown r.core s' sc)
    (hlists : ScoreLists s' (Function.update bucket (idxOf sc)
      (inserted r.core sc r.core.scores.length (bucket (idxOf sc)))))
    (hfirst : ¬ FirstAtLeast r sc) (made : List (Int × ScorePtr)) : ¬ ScoresFound ⟨s', made⟩ := by
  intro hfound
  simp only [FirstAtLeast, not_forall, not_le] at hfirst
  obtain ⟨first, hfind, hlt⟩ := hfirst
  rw [← h.first] at hfind
  obtain ⟨p, hp, hscore⟩ := Option.map_eq_some_iff.mp hfind
  subst hscore
  obtain ⟨hplt, hidx⟩ := h.lists.node _ p (List.mem_of_mem_head? hp)
  have hlinked := hfound.linked p (by rw [g.length]; exact Nat.lt_succ_of_lt hplt)
  rw [hlists.linked_iff, g.score_old hplt, hidx, Function.update_self, inserted_head hp hlt,
    List.mem_singleton] at hlinked
  exact hplt.ne hlinked

/-- **A call of `score_new`** returns, and its score was found or got a node. -/
theorem scoreStep_cases (h : ScoreLists r.core bucket) (hin : 0 ≤ idxOf sc) :
    ∃ sn s', scoreStep r sc = some ⟨s', r.made ++ [(sc, sn)]⟩ ∧
      FoundOrMade r.core bucket sc sn s' := by
  obtain ⟨sn, s', hfor, hf⟩ := scoreFor_eq h hin
  rw [scoreFor_eq_scoreNew] at hfor
  exact ⟨sn, s', by simp [scoreStep, hfor], hf⟩

/-- The lists are in order after any call. -/
theorem scoreStep_lists (h : ScoreLists r.core bucket) (hin : 0 ≤ idxOf sc) :
    ∃ r', scoreStep r sc = some r' ∧ ∃ bucket', ScoreLists r'.core bucket' := by
  obtain ⟨sn, s', hs, hf⟩ := scoreStep_cases h hin
  refine ⟨_, hs, ?_⟩
  cases hf with
  | found _ hmem hscore => exact ⟨bucket, h⟩
  | made _ hnone g hlists => exact ⟨_, hlists⟩

/-- A call whose score is not above the first one of its entry loses nothing. -/
theorem Remembered.step (h : Remembered r bucket) (hin : 0 ≤ idxOf sc) (hfirst : FirstAtLeast r sc) :
    ∃ r', scoreStep r sc = some r' ∧ ∃ bucket', Remembered r' bucket' := by
  obtain ⟨sn, s', hs, hf⟩ := scoreStep_cases h.lists hin
  refine ⟨_, hs, ?_⟩
  cases hf with
  | found _ hmem hscore => exact ⟨bucket, h.foundNode hin hmem hscore⟩
  | made _ hnone g hlists => exact ⟨_, h.madeNode hin hnone g hlists hfirst⟩

/-- A call that loses nothing has such a score. -/
theorem Remembered.firstAtLeast_of_step (h : Remembered r bucket) (hin : 0 ≤ idxOf sc)
    (hs : scoreStep r sc = some r') (hfound : ScoresFound r') : FirstAtLeast r sc := by
  obtain ⟨sn, s', hs', hf⟩ := scoreStep_cases h.lists hin
  rw [hs] at hs'
  cases hs'
  cases hf with
  | found _ hmem hscore => exact h.firstAtLeast hmem hscore
  | made _ hnone g hlists =>
    by_contra hfirst
    exact h.lost g hlists hfirst _ hfound

theorem scoreStep_scores (h : scoreStep r sc = some r') : r'.scores = r.scores ++ [sc] := by
  obtain ⟨⟨sn, s'⟩, -, heq⟩ := Option.bind_eq_some_iff.mp h
  cases heq
  simp [ScoreRun.scores]

/-! ## Runs -/

/-- Step by step the first score of every entry is the greatest one of it. -/
theorem allSteps_firstAtLeast {scores : List Int} (hrun : run scoreStep r scores = some r') :
    AllSteps scoreStep FirstAtLeast r scores ↔ ∀ sc ∈ scores, ∀ first,
      (r.scores ++ scores).find? (idxOf · = idxOf sc) = some first → sc ≤ first := by
  induction scores generalizing r with
  | nil => simp [AllSteps]
  | cons v scores ih =>
    obtain ⟨r1, hs, hrun⟩ := Option.bind_eq_some_iff.mp hrun
    have hrest := ih hrun
    rw [scoreStep_scores hs, List.append_assoc, List.singleton_append] at hrest
    have hfirst : FirstAtLeast r v ↔ ∀ first,
        (r.scores ++ v :: scores).find? (idxOf · = idxOf v) = some first → v ≤ first := by
      unfold FirstAtLeast
      rw [List.find?_append]
      cases r.scores.find? fun w => idxOf w = idxOf v with
      | none => simp
      | some first => simp
    simp only [AllSteps, hs, Option.some.injEq, forall_eq', List.forall_mem_cons, hfirst, hrest]

/-- **When the score lists keep every node.** For scores from 0 to 9999999, exactly if the first
score of every entry is the greatest one of it. -/
theorem scoresKept_iff (scores : List Int) (hscores : ∀ sc ∈ scores, 0 ≤ sc ∧ sc ≤ 9999999) :
    ScoresKept scores ↔ FirstGreatest scores := by
  have hin : ∀ sc ∈ scores, 0 ≤ idxOf sc := by
    intro sc hsc
    have hlo := (hscores sc hsc).1
    exact idxOf_nonneg.mpr (by omega)
  have hkept : ScoresKept scores ↔ AllSteps scoreStep FirstAtLeast .init scores := by
    refine run_allStates_iff (fun r => ∃ bucket, Remembered r bucket) (fun sc => 0 ≤ idxOf sc)
      ?_ ?_ ?_ ⟨_, remembered_init⟩ hin
    · rintro r ⟨bucket, h⟩
      exact h.scoresFound
    · rintro r sc ⟨bucket, h⟩ hin hfirst
      exact h.step hin hfirst
    · rintro r sc r' ⟨bucket, h⟩ hin hs hfound
      exact h.firstAtLeast_of_step hin hs hfound
  -- every run arrives, also one that loses nodes
  have hreturns : ∀ r sc, (∃ bucket, ScoreLists (ScoreRun.core r) bucket) → 0 ≤ idxOf sc →
      ∃ r', scoreStep r sc = some r' ∧ ∃ bucket', ScoreLists r'.core bucket' :=
    fun r sc ⟨bucket, h⟩ hin => scoreStep_lists h hin
  obtain ⟨r, hrun, -⟩ := run_of_allSteps hreturns ⟨_, remembered_init.lists⟩
    (allSteps_of_forall hin ScoreRun.init)
  rw [hkept]
  exact allSteps_firstAtLeast hrun

/-- Three scores of one entry, the greatest first, and one of another. -/
theorem scoresKept_four : ScoresKept [7, 5, 2005, 6] :=
  (scoresKept_iff _ (by decide)).mpr (by unfold FirstGreatest; decide)

/-- The node of 7 becomes the head of the list of 5, and 5 is lost. -/
theorem not_scoresKept : ¬ ScoresKept [5, 7] := by
  rintro ⟨⟨r, hrun⟩, hall⟩
  have hfound := (hall.last hrun).found (5, 0)
  cases hrun
  revert hfound
  decide +kernel

end Donkeyji.Rank
