/-
Donkeyji.Rank.Core — the ranking of `rank/core.c`.

Uids hang on score nodes, score nodes on the 10000 entries of the index. A
node is known by its place among the allocated ones; nothing is ever freed and
`mem_alloc` does not fail. `uid_get` reads through the iterator that
`map::find` returns; for an unknown uid that is taken to give NULL, which its
callers test for. A null pointer that is read through, and an access outside
the index, have no result. A walk along a list has as many turns as there are
nodes, and one more: a longer one goes round in a circle and never ends.
-/
import Mathlib.Logic.Function.Basic
import Mathlib.Tactic

namespace Donkeyji.Rank

/-- The place of a `score_node`. -/
abbrev ScorePtr := Nat

/-- The place of a `uid_node`. -/
abbrev UidPtr := Nat

/-- `struct _score_node`. -/
structure ScoreNode where
  score : Int
  cnt : Int
  nextScore : Option ScorePtr
  uidHead : Option UidPtr
deriving DecidableEq, Repr

/-- `struct _idx_node`. -/
structure IdxNode where
  cnt : Int
  scoreHead : Option ScorePtr
deriving DecidableEq, Repr

/-- `struct _uid_node`. -/
structure UidNode where
  uid : Int
  nextUid : Option UidPtr
  preUid : Option UidPtr
  ownerScore : Option ScorePtr
deriving DecidableEq, Repr

/-- `IDX_LEN`. -/
def idxLen : Int := 10000

/-- `BASE`. -/
def base : Int := 1000

/-- `gia`, `ght`, and the allocated nodes. -/
structure Core where
  array : Int → IdxNode
  ght : Int → Option UidPtr
  scores : List ScoreNode
  uids : List UidNode

/-- `core_init`. -/
def coreInit : Core := ⟨fun _ => ⟨0, none⟩, fun _ => none, [], []⟩

namespace Core

/-- An entry of the index. -/
def idx (s : Core) (i : Int) : Option IdxNode :=
  if 0 ≤ i ∧ i < idxLen then some (s.array i) else none

/-- Writes an entry of the index. -/
def setIdx (s : Core) (i : Int) (node : IdxNode) : Core :=
  { s with array := Function.update s.array i node }

/-- Writes a score node. -/
def setScore (s : Core) (p : ScorePtr) (node : ScoreNode) : Core :=
  { s with scores := s.scores.set p node }

/-- Writes a uid node. -/
def setUid (s : Core) (p : UidPtr) (node : UidNode) : Core :=
  { s with uids := s.uids.set p node }

/-! ## Score nodes -/

/-- The entry of a score, in `score_get` and `score_new`. -/
def idxOf (score : Int) : Int :=
  let idx := score.tdiv base
  if idx ≥ idxLen then idxLen - 1 else idx

/-- The walk of `score_get`. -/
def getLoop (s : Core) (score : Int) : Nat → Option ScorePtr → Option (Option ScorePtr)
  | 0, _ => none
  | _ + 1, none => some none
  | fuel + 1, some cur => do
    let node ← s.scores[cur]?
    if node.score > score then getLoop s score fuel node.nextScore
    else if node.score = score then some (some cur)
    else some none

/-- `score_get`. -/
def scoreGet (s : Core) (score : Int) : Option (Option ScorePtr) := do
  let node ← s.idx (idxOf score)
  getLoop s score (s.scores.length + 1) node.scoreHead

/-- The walk of `score_new`: `pre` and `cur` where it stops. -/
def newLoop (s : Core) (score : Int) : Nat → Option ScorePtr → Option ScorePtr →
    Option (Option ScorePtr × Option ScorePtr)
  | 0, _, _ => none
  | _ + 1, pre, none => some (pre, none)
  | fuel + 1, pre, some cur => do
    let node ← s.scores[cur]?
    if node.score > score then newLoop s score fuel (some cur) node.nextScore
    else some (pre, some cur)

/-- `score_new`. As head of a list the new node gets no successor. -/
def scoreNew (s : Core) (score : Int) : Option (ScorePtr × Core) := do
  match ← s.scoreGet score with
  | some sn => return (sn, s)
  | none =>
    let i := idxOf score
    let entry ← s.idx i
    let (pre, cur) ← newLoop s score (s.scores.length + 1) entry.scoreHead entry.scoreHead
    let newSn := s.scores.length
    if pre = cur then
      let s : Core := { s with scores := s.scores ++ [⟨score, 0, none, none⟩] }
      return (newSn, s.setIdx i ⟨entry.cnt + 1, some newSn⟩)
    else
      let pre ← pre
      let s : Core := { s with scores := s.scores ++ [⟨score, 0, cur, none⟩] }
      let node ← s.scores[pre]?
      return (newSn, (s.setScore pre { node with nextScore := some newSn }).setIdx i
        { entry with cnt := entry.cnt + 1 })

/-! ## Uid nodes -/

/-- `bind_score_uid`. Only the first uid of a score node is told its `owner_score`. -/
def bindScoreUid (s : Core) (sn : ScorePtr) (un : UidPtr) : Option Core := do
  let node ← s.scores[sn]?
  let u ← s.uids[un]?
  match node.uidHead with
  | none =>
    let s := s.setScore sn { node with cnt := node.cnt + 1, uidHead := some un }
    return s.setUid un { u with nextUid := none, preUid := none, ownerScore := some sn }
  | some head =>
    let s := s.setScore sn { node with cnt := node.cnt + 1, uidHead := some un }
    let s := s.setUid un { u with nextUid := some head, preUid := none }
    let h ← s.uids[head]?
    return s.setUid head { h with preUid := some un }

/-- `unbind_score_uid`. -/
def unbindScoreUid (s : Core) (sn : ScorePtr) (un : UidPtr) : Option Core := do
  let node ← s.scores[sn]?
  let u ← s.uids[un]?
  let s := s.setScore sn { node with
    cnt := node.cnt - 1
    uidHead := if node.uidHead = some un then u.nextUid else node.uidHead }
  let s ←
    if node.uidHead = some un then
      match u.nextUid with
      | none => some s
      | some next => do
        let n ← s.uids[next]?
        some (s.setUid next { n with preUid := none })
    else do
      let pre ← u.preUid
      let p ← s.uids[pre]?
      let s := s.setUid pre { p with nextUid := u.nextUid }
      match u.nextUid with
      | none => some s
      | some next => do
        let n ← s.uids[next]?
        some (s.setUid next { n with preUid := u.preUid })
  let u ← s.uids[un]?
  return s.setUid un { u with preUid := none, nextUid := none, ownerScore := none }

/-- `uid_get`. -/
def uidGet (s : Core) (uid : Int) : Option UidPtr := s.ght uid

/-- `uid_new`. -/
def uidNew (s : Core) (uid : Int) : UidPtr × Core :=
  match s.uidGet uid with
  | some un => (un, s)
  | none =>
    let un := s.uids.length
    (un, { s with
      uids := s.uids ++ [⟨uid, none, none, none⟩]
      ght := Function.update s.ght uid (some un) })

/-! ## The interface -/

/-- `score_get`, and `score_new` if there is no node. -/
def scoreFor (s : Core) (score : Int) : Option (ScorePtr × Core) := do
  match ← s.scoreGet score with
  | some sn => return (sn, s)
  | none => s.scoreNew score

/-- `core_insert` of an unknown uid. -/
def insertNew (s : Core) (uid score : Int) : Option (Int × Core) := do
  let (un, s) := s.uidNew uid
  let (sn, s) ← s.scoreFor score
  let s ← s.bindScoreUid sn un
  return (0, s)

/-- `core_update`. After the insertion of an unknown uid `un` is still NULL. -/
def coreUpdate (s : Core) (uid score : Int) : Option (Int × Core) := do
  match s.uidGet uid with
  | none =>
    let _ ← s.insertNew uid score
    none
  | some un =>
    let u ← s.uids[un]?
    let oldSn ← u.ownerScore
    let old ← s.scores[oldSn]?
    if score = old.score then
      return (0, s)
    let (newSn, s) ← s.scoreFor score
    let s ← s.unbindScoreUid oldSn un
    let s ← s.bindScoreUid newSn un
    return (0, s)

/-- `core_insert`. -/
def coreInsert (s : Core) (uid score : Int) : Option (Int × Core) :=
  match s.uidGet uid with
  | some _ => s.coreUpdate uid score
  | none => s.insertNew uid score

/-- The first loop of `core_get_rank`, over the `n` entries above `idx`. -/
def cntAbove (s : Core) (idx : Int) : Nat → Option Int
  | 0 => some 0
  | n + 1 => do
    let entry ← s.idx (idx + n + 1)
    let rest ← cntAbove s idx n
    return entry.cnt + rest

/-- The second loop of `core_get_rank`. -/
def rankLoop (s : Core) (sn : ScorePtr) : Nat → Option ScorePtr → Int → Option Int
  | 0, _, _ => none
  | fuel + 1, tmp, rank =>
    if tmp = some sn then some rank
    else do
      let tmp ← tmp
      let node ← s.scores[tmp]?
      rankLoop s sn fuel node.nextScore (rank + node.cnt)

/-- The entry of a score, in `core_get_rank`. It is not limited to the index here. -/
def rankIdx (score : Int) : Int := score.tdiv 1000

/-- `core_get_rank`. -/
def coreGetRank (s : Core) (uid : Int) : Option Int := do
  match s.uidGet uid with
  | none => return -1
  | some un =>
    let u ← s.uids[un]?
    let sn ← u.ownerScore
    let node ← s.scores[sn]?
    let idx := rankIdx node.score
    let rank ← s.cntAbove idx (idxLen - 1 - idx).toNat
    let entry ← s.idx idx
    s.rankLoop sn (s.scores.length + 1) entry.scoreHead rank

/-- `struct _us`. -/
structure Us where
  uid : Int
  score : Int
deriving DecidableEq, Repr

/-- The first loop of `core_get_topn`, down from the entry `n - 1`: `cnt` and `up`. -/
def upLoop (s : Core) (topn : Int) : Nat → Int → Option (Int × Int)
  | 0, cnt => some (cnt, 0)
  | n + 1, cnt => do
    let entry ← s.idx n
    if cnt + entry.cnt ≥ topn then some (cnt, n)
    else upLoop s topn n (cnt + entry.cnt)

/-- The second loop of `core_get_topn`, for `turns` turns: `right`. It never moves `sn` on. -/
def rightLoop (s : Core) (topn : Int) : Nat → Option ScorePtr → Int → Option ScorePtr →
    Option (Option ScorePtr)
  | 0, _, _, _ => none
  | _ + 1, none, _, right => some right
  | turns + 1, some sn, cnt, right => do
    let node ← s.scores[sn]?
    let cnt := cnt + node.cnt
    rightLoop s topn turns (some sn) cnt (if cnt ≥ topn then some sn else right)

/-- `core_get_topn` with `turns` turns for its second loop: what it returns, and `top`, which
it never writes. -/
def coreGetTopn (s : Core) (turns : Nat) (top : List Us) (topn : Int) :
    Option (Int × List Us) := do
  let (cnt, up) ← s.upLoop topn idxLen.toNat 0
  let entry ← s.idx up
  let _ ← s.rightLoop topn turns entry.scoreHead cnt none
  return (0, top)

end Core

/-- A call of the interface that changes the ranking. -/
inductive RankCall where
  | insert (uid score : Int)
  | update (uid score : Int)
deriving DecidableEq, Repr

/-- The uid of a call. -/
def RankCall.uid : RankCall → Int
  | .insert uid _ => uid
  | .update uid _ => uid

/-- The score of a call. -/
def RankCall.score : RankCall → Int
  | .insert _ score => score
  | .update _ score => score

/-- One call. -/
def rankStep (s : Core) : RankCall → Option Core
  | .insert uid score => (s.coreInsert uid score).map Prod.snd
  | .update uid score => (s.coreUpdate uid score).map Prod.snd

end Donkeyji.Rank
