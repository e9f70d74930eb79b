/-
Donkeyji.Rank.RankTheorems — the rank of a uid.

`core_get_rank` adds the counters of the entries above and of the score nodes
before the uid's own. Only the first uid of a score node knows that node, a
new list head cuts the old list off, and the entries count score nodes, not
uids. `rank_exact_iff` says when the sum is the rank all the same.
-/
import Mathlib.Algebra.BigOperators.Group.List.Basic
import Mathlib.Algebra.Order.BigOperators.Group.Finset
import Donkeyji.Rank.StepTheorems

namespace Donkeyji.Rank

open LinkedList Core Runs

variable {s s' : Core} {bucket : Int → List ScorePtr} {on : ScorePtr → List UidPtr}
  {sn : ScorePtr} {un : UidPtr} {uid sc : Int}

/-- How many uids have a greater score than this one. -/
def greater (calls : List RankCall) (score : Int) : Nat :=
  (calls.map RankCall.uid).dedup.countP fun v => (latest calls v).any (· > score)

/-- The calls return, and then every uid of them has its rank. -/
def RankExact (calls : List RankCall) : Prop :=
  ∃ s, run rankStep coreInit calls = some s ∧
    ∀ uid score, latest calls uid = some score →
      s.coreGetRank uid = some (greater calls score : Int)

/-! ## The two loops -/

/-- The entries above. -/
theorem cntAbove_eq {i : Int} (hi : 0 ≤ i) {n : Nat} (hn : i + n < idxLen) :
    s.cntAbove i n = some (∑ j ∈ Finset.range n, (s.array (i + j + 1)).cnt) := by
  induction n with
  | zero => rfl
  | succ n ih =>
    have hin : 0 ≤ i + n + 1 ∧ i + n + 1 < idxLen := by
      push_cast at hn
      omega
    simp only [cntAbove, idx, hin, and_self, if_true, Option.bind_eq_bind, Option.bind_some,
      ih (by omega), Finset.sum_range_succ, Option.pure_def]
    rw [add_comm]

/-- The score nodes before the one that is looked for. -/
theorem rankLoop_eq {l : List ScorePtr} {tmp : Option ScorePtr} (hl : Chain s.nextScore tmp l)
    (hlt : ∀ p ∈ l, p < s.scores.length) {fuel : Nat} (hfuel : l.length < fuel) (rank : Int) :
    s.rankLoop sn fuel tmp rank =
      if sn ∈ l then some (rank + ((l.takeWhile (· ≠ sn)).map s.cnt).sum) else none := by
  induction l generalizing tmp fuel rank with
  | nil =>
    obtain ⟨fuel, rfl⟩ := Nat.exists_eq_add_of_lt hfuel
    rw [chain_nil.mp hl]
    simp [rankLoop]
  | cons p l ih =>
    obtain ⟨fuel, rfl⟩ := Nat.exists_eq_add_of_lt hfuel
    obtain ⟨rfl, hrest⟩ := chain_cons.mp hl
    obtain ⟨node, hget, -, hnext, hcnt, -⟩ := get_score (hlt p (by simp))
    by_cases hp : p = sn
    · subst hp
      simp [rankLoop]
    · have hne : some p ≠ some sn := fun heq => hp (Option.some.inj heq)
      simp only [rankLoop, if_neg hne, Option.bind_eq_bind, Option.bind_some, hget, hnext, hcnt]
      rw [ih hrest (fun q hq => hlt q (by simp [hq])) (by simp at hfuel ⊢; omega)]
      simp [Ne.symm hp, hp, add_assoc]

/-- **What `core_get_rank` adds up** for a uid that knows its score node. -/
theorem coreGetRank_eq (h : Wf s bucket on) (hght : s.ght uid = some un) (hown : s.owner un = some sn)
    (hscore : s.score sn < 10000000) :
    s.coreGetRank uid =
      if sn ∈ bucket (idxOf (s.score sn)) then
        some (∑ j ∈ Finset.range (9999 - idxOf (s.score sn)).toNat,
            (s.array (idxOf (s.score sn) + j + 1)).cnt +
          (((bucket (idxOf (s.score sn))).takeWhile (· ≠ sn)).map s.cnt).sum)
      else none := by
  have hsn := (h.uids.node sn un (h.uids.mem_of_owner hown)).1
  obtain ⟨u, hu, -, -, huown⟩ := get_uid (h.uid_lt hght)
  obtain ⟨node, hnode, hnscore, -⟩ := get_score hsn
  have hidx : rankIdx (s.score sn) = idxOf (s.score sn) := (idxOf_eq_tdiv hscore).symm
  have hlo := h.index sn hsn
  have hhi := idxOf_lt (s.score sn)
  have hn : (idxLen - 1 - idxOf (s.score sn)).toNat = (9999 - idxOf (s.score sn)).toNat := rfl
  have hroom : idxOf (s.score sn) + ((9999 - idxOf (s.score sn)).toNat : Int) < idxLen := by
    unfold idxLen at hhi ⊢
    omega
  simp only [coreGetRank, uidGet, hght, hu, huown, hown, hnode, hnscore, hidx, Option.bind_eq_bind,
    Option.bind_some, hn, cntAbove_eq hlo hroom, idx, hlo, hhi, and_self, if_true]
  exact rankLoop_eq (h.scores.chain _) (fun p hp => (h.scores.node _ p hp).1)
    (Nat.lt_succ_of_le (h.scores.length_le _)) _

/-- No rank without a score node. -/
theorem coreGetRank_lost (h : Wf s bucket on) (hght : s.ght uid = some un) (hown : s.owner un = none) :
    s.coreGetRank uid = none := by
  obtain ⟨u, hu, -, -, huown⟩ := get_uid (h.uid_lt hght)
  simp [coreGetRank, uidGet, hght, hu, huown, hown]

/-! ## Counting uids -/

/-- How many uids know a score node of this kind. -/
def Core.hung (s : Core) (kind : ScorePtr → Prop) [DecidablePred kind] : Nat :=
  (List.range s.uids.length).countP fun un => (s.owner un).any fun sn => kind sn

/-- How many uids have a score of the entry, as their score nodes say. -/
def Core.uidsOf (s : Core) (i : Int) : Nat := s.hung fun sn => idxOf (s.score sn) = i

/-- Every uid knows its score node. -/
def Core.Owned (s : Core) : Prop := ∀ un < s.uids.length, (s.owner un).isSome

/-- The uids of the nodes are the uids of the calls. -/
theorem uids_perm {calls : List RankCall} (h : Wf s bucket on) (ht : Tracks s on (latest calls)) :
    (calls.map RankCall.uid).dedup.Perm (s.uids.map UidNode.uid) := by
  have hnd : (s.uids.map UidNode.uid).Nodup := by
    rw [List.nodup_iff_getElem?_ne_getElem?]
    intro i j hij hj heq
    have hget := List.getElem?_eq_getElem hj
    have hi := (h.table _ i).mpr (heq.trans hget)
    have hj' := (h.table _ j).mpr hget
    exact hij.ne (Option.some.inj (hi.symm.trans hj'))
  refine (List.perm_ext_iff_of_nodup (List.nodup_dedup _) hnd).mpr fun v => ?_
  have hcalls : v ∈ (calls.map RankCall.uid).dedup ↔ (latest calls v).isSome := by
    rw [latest_isSome]
    simp
  have hnodes : v ∈ s.uids.map UidNode.uid ↔ (s.ght v).isSome := by
    rw [List.mem_iff_getElem?, Option.isSome_iff_exists]
    exact exists_congr fun un => (h.table v un).symm
  rw [hcalls, hnodes]
  refine ⟨ht.known v, fun hv => ?_⟩
  obtain ⟨un, hun⟩ := Option.isSome_iff_exists.mp hv
  obtain ⟨sn, hsn⟩ := h.placed un (h.uid_lt hun)
  rw [ht.score v un sn hun hsn]
  rfl

theorem greater_eq {calls : List RankCall} (h : Wf s bucket on) (ht : Tracks s on (latest calls))
    (howned : s.Owned) (sc : Int) : greater calls sc = s.hung fun sn => sc < s.score sn := by
  unfold greater Core.hung
  rw [(uids_perm h ht).countP_eq]
  rw [map_eq_column s.uids UidNode.uid 0, List.countP_map]
  refine List.countP_congr fun un hun => ?_
  have hlt := List.mem_range.mp hun
  obtain ⟨sn, hsn⟩ := Option.isSome_iff_exists.mp (howned un hlt)
  have hght : s.ght (column s.uids UidNode.uid 0 un) = some un := by
    rw [h.table]
    simp [column, hlt]
  have hlast := ht.score _ un sn hght (h.uids.mem_of_owner hsn)
  simp [hlast, hsn]

/-- Two kinds that exclude each other. -/
theorem hung_add {kind kind1 kind2 : ScorePtr → Prop} [DecidablePred kind] [DecidablePred kind1]
    [DecidablePred kind2] (hor : ∀ p, kind p ↔ kind1 p ∨ kind2 p)
    (hnot : ∀ p, kind1 p → ¬ kind2 p) : s.hung kind = s.hung kind1 + s.hung kind2 := by
  unfold Core.hung
  induction List.range s.uids.length with
  | nil => rfl
  | cons un l ih =>
    simp only [List.countP_cons, ih]
    cases s.owner un with
    | none => simp
    | some p =>
      have hp := hor p
      have hn := hnot p
      by_cases h1 : kind1 p <;> by_cases h2 : kind2 p <;> simp_all <;> omega

theorem hung_congr {kind kind' : ScorePtr → Prop} [DecidablePred kind] [DecidablePred kind']
    (h : ∀ un p, un < s.uids.length → s.owner un = some p → (kind p ↔ kind' p)) :
    s.hung kind = s.hung kind' := by
  refine List.countP_congr fun un hun => ?_
  cases hown : s.owner un with
  | none => simp
  | some p => simpa using h un p (List.mem_range.mp hun) hown

theorem hung_none {kind : ScorePtr → Prop} [DecidablePred kind] (h : ∀ p, ¬ kind p) :
    s.hung kind = 0 := by
  refine List.countP_eq_zero.mpr fun un _ => ?_
  cases s.owner un with
  | none => simp
  | some p => simpa using h p

/-- The uids of some entries one after the other. -/
theorem hung_between (i : Int) (n : Nat) :
    s.hung (fun p => i < idxOf (s.score p) ∧ idxOf (s.score p) ≤ i + n) =
      ∑ j ∈ Finset.range n, s.uidsOf (i + j + 1) := by
  induction n with
  | zero =>
    rw [Finset.range_zero, Finset.sum_empty]
    exact hung_none fun p hp => by simp at hp; omega
  | succ n ih =>
    rw [Finset.sum_range_succ, ← ih]
    refine hung_add (fun p => ?_) fun p hp heq => ?_
    · push_cast
      omega
    · omega

/-- The uids with a greater score are those of the entries above and those of the same entry. -/
theorem hung_greater (sc : Int) : s.hung (fun p => sc < s.score p) =
    ∑ j ∈ Finset.range (9999 - idxOf sc).toNat, s.uidsOf (idxOf sc + j + 1) +
      s.hung fun p => idxOf (s.score p) = idxOf sc ∧ sc < s.score p := by
  rw [← hung_between]
  refine hung_add (fun p => ?_) fun p hp heq => ?_
  · have hlt := idxOf_lt (s.score p)
    have hmono : sc ≤ s.score p → idxOf sc ≤ idxOf (s.score p) := idxOf_mono
    have hback : s.score p ≤ sc → idxOf (s.score p) ≤ idxOf sc := idxOf_mono
    unfold idxLen at hlt
    omega
  · omega

/-- The uids of one score node. -/
theorem hung_one (h : Wf s bucket on) (howned : s.Owned) (p : ScorePtr) :
    s.hung (fun q => q = p) = (on p).length := by
  unfold Core.hung
  rw [List.countP_eq_length_filter]
  refine List.Perm.length_eq ?_
  refine (List.perm_ext_iff_of_nodup (List.nodup_range.filter _) (h.uids.chain p).nodup).mpr ?_
  intro un
  rw [List.mem_filter, List.mem_range]
  constructor
  · rintro ⟨-, hany⟩
    cases hown : s.owner un with
    | none => simp [hown] at hany
    | some q =>
      have hq : q = p := by simpa [hown] using hany
      exact hq ▸ h.uids.mem_of_owner hown
  · intro hmem
    have hlt := (h.uids.node p un hmem).2
    obtain ⟨q, hq⟩ := Option.isSome_iff_exists.mp (howned un hlt)
    have heq := h.uids.one q p un (h.uids.mem_of_owner hq) hmem
    exact ⟨hlt, by simpa [hq] using heq⟩

/-- The uids of some score nodes. -/
theorem hung_list (h : Wf s bucket on) (howned : s.Owned) {l : List ScorePtr} (hnd : l.Nodup) :
    (s.hung (fun p => p ∈ l) : Int) = (l.map s.cnt).sum := by
  induction l with
  | nil =>
    rw [hung_none (by simp)]
    rfl
  | cons p l ih =>
    obtain ⟨hp, hnd⟩ := List.nodup_cons.mp hnd
    have hsplit : s.hung (fun q => q ∈ p :: l) = s.hung (fun q => q = p) + s.hung fun q => q ∈ l :=
      hung_add (fun q => List.mem_cons) fun q hq hmem => hp (hq ▸ hmem)
    rw [hsplit, hung_one h howned p, List.map_cons, List.sum_cons, ← ih hnd, h.uids.cnt p]
    push_cast
    rfl

/-- In a list of falling scores the greater ones come first. -/
theorem mem_takeWhile_ne {l : List ScorePtr} (hdesc : l.Pairwise fun p q => s.score q < s.score p)
    (hsn : sn ∈ l) (p : ScorePtr) :
    p ∈ l.takeWhile (· ≠ sn) ↔ p ∈ l ∧ s.score sn < s.score p := by
  induction l with
  | nil => simp at hsn
  | cons q l ih =>
    obtain ⟨hbelow, hdesc⟩ := List.pairwise_cons.mp hdesc
    by_cases hq : q = sn
    · subst hq
      simp only [List.takeWhile_cons, ne_eq, not_true, decide_false, Bool.false_eq_true, if_false,
        List.not_mem_nil, List.mem_cons, false_iff, not_and, not_lt]
      rintro (rfl | hp)
      · exact le_refl _
      · exact (hbelow p hp).le
    · have hmem : sn ∈ l := (List.mem_cons.mp hsn).resolve_left (Ne.symm hq)
      have hcons : (q :: l).takeWhile (· ≠ sn) = q :: l.takeWhile (· ≠ sn) := by
        simp [hq]
      rw [hcons, List.mem_cons, List.mem_cons, ih hdesc hmem]
      constructor
      · rintro (rfl | ⟨hp, hlt⟩)
        · exact ⟨.inl rfl, hbelow sn hmem⟩
        · exact ⟨.inr hp, hlt⟩
      · rintro ⟨rfl | hp, hlt⟩
        · exact .inl rfl
        · exact .inr ⟨hp, hlt⟩

/-- Every score node that a uid knows is on the list of its entry. -/
def Core.AllLinked (s : Core) : Prop := ∀ un sn, s.owner un = some sn → s.Linked sn

/-- The uids of greater score in the same entry. -/
theorem hung_same_entry (h : Wf s bucket on) (howned : s.Owned) (hlinked : s.AllLinked)
    (hsn : sn ∈ bucket (idxOf (s.score sn))) :
    (s.hung (fun p => idxOf (s.score p) = idxOf (s.score sn) ∧ s.score sn < s.score p) : Int) =
      (((bucket (idxOf (s.score sn))).takeWhile (· ≠ sn)).map s.cnt).sum := by
  have hdesc := h.scores.desc (idxOf (s.score sn))
  rw [← hung_list h howned ((h.scores.chain _).nodup.sublist (List.takeWhile_sublist _))]
  refine congrArg Nat.cast (hung_congr fun un p _ hown => ?_)
  rw [mem_takeWhile_ne hdesc hsn p]
  have hp := h.scores.linked_iff.mp (hlinked un p hown)
  constructor
  · rintro ⟨heq, hlt⟩
    exact ⟨heq ▸ hp, hlt⟩
  · rintro ⟨hmem, hlt⟩
    exact ⟨(h.scores.node _ p hmem).2, hlt⟩

/-- An entry has at least as many score nodes as uids, if every uid knows its own. -/
theorem uidsOf_le (h : Wf s bucket on) (howned : s.Owned) (i : Int) :
    (s.uidsOf i : Int) ≤ (s.array i).cnt := by
  rw [h.scores.cnt, map_eq_column s.scores ScoreNode.score 0, List.countP_map]
  unfold Core.uidsOf Core.hung
  rw [List.countP_eq_length_filter, List.countP_eq_length_filter, Nat.cast_le]
  -- uids of different nodes have different score nodes
  have hinj : ∀ un1 un2 p, s.owner un1 = some p → s.owner un2 = some p → un1 = un2 := by
    intro un1 un2 p h1 h2
    have hlast := h.uids.owner un1 p h1
    rw [h.uids.owner un2 p h2] at hlast
    exact (Option.some.inj hlast).symm
  have hown : ∀ un < s.uids.length, s.owner un = some ((s.owner un).getD 0) := by
    intro un hun
    obtain ⟨p, hp⟩ := Option.isSome_iff_exists.mp (howned un hun)
    rw [hp]
    rfl
  rw [← List.length_map fun un => (s.owner un).getD 0]
  refine List.Subperm.length_le (List.Nodup.subperm ?_ fun p hp => ?_)
  · refine List.Nodup.map_on (fun un1 h1 un2 h2 heq => ?_) (List.nodup_range.filter _)
    rw [List.mem_filter, List.mem_range] at h1 h2
    refine hinj un1 un2 _ (hown un1 h1.1) ?_
    rw [heq]
    exact hown un2 h2.1
  · obtain ⟨un, hun, rfl⟩ := List.mem_map.mp hp
    rw [List.mem_filter, List.mem_range] at hun
    rw [List.mem_filter, List.mem_range]
    refine ⟨(h.uids.node _ un (h.uids.mem_of_owner (hown un hun.1))).1, ?_⟩
    have hany := hun.2
    rw [hown un hun.1] at hany
    exact hany

/-! ## When ranks are exact -/

/-- Every uid knows its score node, this node is on the list of its entry, and in the entries
above as many score nodes were made as there are uids. -/
structure Core.Ranked (s : Core) : Prop where
  owned : s.Owned
  linked : s.AllLinked
  counted : ∀ un sn, s.owner un = some sn → ∀ j, idxOf (s.score sn) < j → j < idxLen →
    (s.array j).cnt = s.uidsOf j

/-- The rank of a uid is exact exactly if the entries above count the uids. -/
theorem coreGetRank_exact {calls : List RankCall} (h : Wf s bucket on)
    (ht : Tracks s on (latest calls)) (howned : s.Owned) (hlinked : s.AllLinked)
    (hght : s.ght uid = some un) (hown : s.owner un = some sn) (hscore : s.score sn < 10000000) :
    s.coreGetRank uid = some (greater calls (s.score sn) : Int) ↔
      ∀ j, idxOf (s.score sn) < j → j < idxLen → (s.array j).cnt = s.uidsOf j := by
  have hmem := h.scores.linked_iff.mp (hlinked un sn hown)
  have hlt := idxOf_lt (s.score sn)
  rw [coreGetRank_eq h hght hown hscore, if_pos hmem, greater_eq h ht howned, hung_greater,
    ← hung_same_entry h howned hlinked hmem, Option.some.injEq]
  push_cast
  rw [add_left_inj, eq_comm, Finset.sum_eq_sum_iff_of_le fun j _ => uidsOf_le h howned _]
  constructor
  · intro heq j hlo hhi
    have hj := heq (j - idxOf (s.score sn) - 1).toNat (by
      rw [Finset.mem_range]
      unfold idxLen at hhi
      omega)
    have hidx : idxOf (s.score sn) + ((j - idxOf (s.score sn) - 1).toNat : Int) + 1 = j := by omega
    rw [hidx] at hj
    exact hj.symm
  · intro heq j hj
    rw [Finset.mem_range] at hj
    refine (heq _ (by omega) ?_).symm
    unfold idxLen at hlt ⊢
    omega

/-- **When ranks are exact.** For calls with scores from 0 to 9999999 the ranks are exact exactly
if every call finds its uid with a score node or inserts an unknown uid, and in the state they
leave every uid knows its score node, this node is still on the list of its entry, and the
entries above have as many score nodes as uids. -/
theorem rank_exact_iff (calls : List RankCall)
    (hscores : ∀ c ∈ calls, 0 ≤ c.score ∧ c.score ≤ 9999999) :
    RankExact calls ↔ AllSteps rankStep CallOk coreInit calls ∧
      ∀ s, run rankStep coreInit calls = some s → s.Ranked := by
  have hin : ∀ c ∈ calls, 0 ≤ idxOf c.score := by
    intro c hc
    have hlo := (hscores c hc).1
    exact idxOf_nonneg.mpr (by omega)
  have hrange : ∀ {s : Core} {bucket : Int → List ScorePtr} {on : ScorePtr → List UidPtr},
      Wf s bucket on → Tracks s on (latest calls) → ∀ uid un sn, s.ght uid = some un →
        s.owner un = some sn → latest calls uid = some (s.score sn) ∧ s.score sn < 10000000 := by
    intro s bucket on h ht uid un sn hght hown
    have hlast := ht.score uid un sn hght (h.uids.mem_of_owner hown)
    obtain ⟨c, hc, hcs⟩ := latest_mem hlast
    have hhi := (hscores c hc).2
    exact ⟨hlast, by omega⟩
  rw [← run_returns hin]
  constructor
  · rintro ⟨s, hrun, hexact⟩
    refine ⟨⟨s, hrun⟩, fun s' hrun' => ?_⟩
    rw [hrun] at hrun'
    cases hrun'
    obtain ⟨bucket, on, h, ht⟩ := run_wf hrun
    -- every uid has a rank, so it knows its score node and is found there
    have hrank : ∀ un < s.uids.length, ∃ uid sn, s.ght uid = some un ∧ s.owner un = some sn ∧
        sn ∈ bucket (idxOf (s.score sn)) ∧
        s.coreGetRank uid = some (greater calls (s.score sn) : Int) := by
      intro un hun
      have hght : s.ght (s.uids.get ⟨un, hun⟩).uid = some un := by
        rw [h.table]
        simp [hun]
      obtain ⟨p, hp⟩ := h.placed un hun
      have hrank := hexact _ _ (ht.score _ un p hght hp)
      cases hown : s.owner un with
      | none =>
        rw [coreGetRank_lost h hght hown] at hrank
        cases hrank
      | some sn =>
        obtain ⟨hlast, hlt⟩ := hrange h ht _ un sn hght hown
        have hrank' := hexact _ _ hlast
        refine ⟨_, sn, hght, rfl, ?_, hrank'⟩
        rw [coreGetRank_eq h hght hown hlt] at hrank'
        by_contra hout
        rw [if_neg hout] at hrank'
        cases hrank'
    have howned : s.Owned := by
      intro un hun
      obtain ⟨uid, sn, -, hown, -⟩ := hrank un hun
      rw [hown]
      rfl
    have hlinked : s.AllLinked := by
      intro un sn hown
      obtain ⟨uid, sn', -, hown', hmem, -⟩ := hrank un (h.uids.node sn un (h.uids.mem_of_owner hown)).2
      rw [hown] at hown'
      cases hown'
      exact h.scores.linked_iff.mpr hmem
    refine ⟨howned, hlinked, fun un sn hown => ?_⟩
    obtain ⟨uid, sn', hght, hown', -, hexact'⟩ :=
      hrank un (h.uids.node sn un (h.uids.mem_of_owner hown)).2
    rw [hown] at hown'
    cases hown'
    exact (coreGetRank_exact h ht howned hlinked hght hown (hrange h ht uid un sn hght hown).2).mp hexact'
  · rintro ⟨⟨s, hrun⟩, hranked⟩
    have hr := hranked s hrun
    obtain ⟨bucket, on, h, ht⟩ := run_wf hrun
    refine ⟨s, hrun, fun uid sc hlast => ?_⟩
    obtain ⟨un, hght⟩ := Option.isSome_iff_exists.mp (ht.known uid (by rw [hlast]; rfl))
    obtain ⟨sn, hown⟩ := Option.isSome_iff_exists.mp (hr.owned un (h.uid_lt hght))
    obtain ⟨hlast', hlt⟩ := hrange h ht uid un sn hght hown
    rw [hlast] at hlast'
    cases hlast'
    exact (coreGetRank_exact h ht hr.owned hr.linked hght hown hlt).mpr (hr.counted un sn hown)

/-- Uids in different entries, the lower one inserted first. -/
theorem rank_exact_two : RankExact [.insert 1 5, .insert 2 2005] ↔
    AllSteps rankStep CallOk coreInit [.insert 1 5, .insert 2 2005] ∧
      ∀ s, run rankStep coreInit [.insert 1 5, .insert 2 2005] = some s → s.Ranked :=
  rank_exact_iff _ (by decide)

/-- The second uid of a score node has no rank. -/
theorem second_uid_has_no_rank : ¬ RankExact [.insert 1 5, .insert 2 5] := by
  rintro ⟨s, hrun, hexact⟩
  have hrank : (run rankStep coreInit [.insert 1 5, .insert 2 5]).bind (·.coreGetRank 2) = none := by
    decide +kernel
  rw [hrun, Option.bind_some, hexact 2 5 rfl] at hrank
  cases hrank

end Donkeyji.Rank
