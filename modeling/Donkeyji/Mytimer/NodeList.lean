/-
Donkeyji.Mytimer.NodeList — the two doubly linked lists of the timer
module (src/mytimer/list.c).

`struct list` links timers and `struct m_list` links wrappers; their code
is the same, so there is one definition for both. The list value holds,
with the head and the length, the `next` and `prev` fields of the nodes as
functions: the list code reads and writes no other field. NULL is `none`,
and a field that nobody has set yet holds whatever was in memory.
-/
import Mathlib.Logic.Function.Basic
import Donkeyji.Mytimer.MinHeap

namespace Donkeyji.Mytimer

/-- `struct list` or `struct m_list`, with the links of the nodes. -/
structure NodeList where
  head : Option Addr
  len : Int
  next : Addr → Option Addr
  prev : Addr → Option Addr

/-- The body of `list_insert` and `m_list_insert`; the list is never NULL
after `timer_init`. -/
def NodeList.insert (l : NodeList) (t : Addr) : NodeList :=
  { l with next := Function.update l.next t l.head, head := some t, len := l.len + 1 }

/-- `t->next->prev = x`, when `t` is not the last node. -/
def NodeList.setPrevOfNext (l : NodeList) (t : Addr) (x : Option Addr) : NodeList :=
  match l.next t with
  | none => l
  | some n => { l with prev := Function.update l.prev n x }

/-- `t->prev->next = t->next`. -/
def NodeList.setNextOfPrev (l : NodeList) (t : Addr) : NodeList :=
  match l.prev t with
  | none => l
  | some p => { l with next := Function.update l.next p (l.next t) }

/-- The body of `list_remove` and `m_list_remove`. -/
def NodeList.remove (l : NodeList) (t : Addr) : NodeList :=
  if l.len = 0 then
    l
  else
    let l :=
      if l.head = some t then
        { l with head := l.next t }.setPrevOfNext t none
      else
        let l := l.setNextOfPrev t
        l.setPrevOfNext t (l.prev t)
    { l with len := l.len - 1 }

/-- The pointers that `list_remove` and `m_list_remove` dereference. -/
def NodeList.removeDerefs (l : NodeList) (t : Addr) : List (Option Addr) :=
  if l.len = 0 then
    []
  else
    let back := if l.head = some t then [some t] else [some t, l.prev t]
    let l' := if l.head = some t then l else l.setNextOfPrev t
    back ++ (if l'.next t = none then [] else [l'.next t])

/-- `list_insert`. -/
def listInsert (l : NodeList) (t : Addr) : NodeList := l.insert t

/-- `list_remove`. -/
def listRemove (l : NodeList) (t : Addr) : NodeList := l.remove t

/-- `m_list_insert`. -/
def mListInsert (l : NodeList) (t : Addr) : NodeList := l.insert t

/-- `m_list_remove`. -/
def mListRemove (l : NodeList) (t : Addr) : NodeList := l.remove t

/-- The two kinds of lists. -/
inductive ListKind where
  | list
  | mList
deriving DecidableEq, Repr

/-- The insertion into a list of the kind. -/
def ListKind.insert : ListKind → NodeList → Addr → NodeList
  | .list => listInsert
  | .mList => mListInsert

/-- The removal from a list of the kind. -/
def ListKind.remove : ListKind → NodeList → Addr → NodeList
  | .list => listRemove
  | .mList => mListRemove

/-- What is done with a list. The links of a node that is inserted hold the given values before. -/
inductive ListOp where
  | insert (t : Addr) (next prev : Option Addr)
  | remove (t : Addr)
deriving DecidableEq, Repr

/-- The links of a node that is not in the list are set by somebody. -/
def NodeList.setLinks (l : NodeList) (t : Addr) (next prev : Option Addr) : NodeList :=
  { l with next := Function.update l.next t next, prev := Function.update l.prev t prev }

/-- A step of a run. -/
def ListKind.apply (kind : ListKind) (l : NodeList) : ListOp → NodeList
  | .insert t next prev => kind.insert (l.setLinks t next prev) t
  | .remove t => kind.remove l t

end Donkeyji.Mytimer
