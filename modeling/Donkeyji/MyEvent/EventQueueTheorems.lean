/-
Donkeyji.MyEvent.EventQueueTheorems — the queues of the event base agree
with the flags of the events and with the counters.

`Booked` compares three accounts of the same thing: the queues in memory,
`ev_flags` and the two counters. `Inv` adds what the library itself relies
on: every priority has a queue, and the internal event of the signals is no
signal. Every function of the library keeps `Inv` and stops neither in
`event_queue_insert` nor in `event_queue_remove`.
-/
import Donkeyji.MyEvent.EventFrameTheorems

namespace Donkeyji.MyEvent

open Outcome

/-! ## The invariant -/

/-- The total length of the active queues. -/
def activeTotal (lists : QueueId → List EventPtr) (n : Nat) : Int :=
  ∑ i ∈ Finset.range n, ((lists (.active i)).length : Int)

/-- The number of queue memberships. -/
def total (lists : QueueId → List EventPtr) (n : Nat) : Int :=
  (lists .inserted).length + activeTotal lists n + (lists .timeout).length

/-- The queues in memory hold the given events; these are the events whose flag for the queue
is set; and the counters are the numbers of memberships. -/
structure Booked (w : World) (lists : QueueId → List EventPtr) : Prop where
  queues : ∀ id, (w.base.queues id).Represents (lists id)
  member : ∀ id p, p ∈ lists id ↔
    ∃ e, w.events p = some e ∧ ∃ q, e.queueId q = id ∧ e.evFlags q = true
  count : w.base.eventCount = total lists w.base.nactiveQueues
  countActive : w.base.eventCountActive = activeTotal lists w.base.nactiveQueues

/-- The state between two operations on the queues. -/
structure Inv (w : World) : Prop where
  booked : ∃ lists, Booked w lists
  queue : 0 < w.base.nactiveQueues
  pri : ∀ p e, w.events p = some e → e.evPri < w.base.nactiveQueues
  internal : ∃ e, w.events w.base.sig.evSignal = some e ∧ hasBit e.evEvents Ev.signal = false

/-- The errors that must not happen: `event_errx` in the functions of the queues, and an access
to a queue that is not there. -/
def Unbooked (h : Halt) : Prop := h = .queueErrx ∨ h = .nullActiveq

/-! ## Counting -/

/-- One flag of an event stands for one queue. -/
theorem Event.queueId_injective (e : Event) : Function.Injective e.queueId := by
  intro q q' h
  cases q <;> cases q' <;> simp_all [Event.queueId]

/-- One active queue changes. -/
theorem activeTotal_update (lists : QueueId → List EventPtr) {n i : Nat} (hi : i < n)
    (l : List EventPtr) : activeTotal (Function.update lists (.active i) l) n =
      activeTotal lists n + (l.length - (lists (.active i)).length) := by
  have hmem : i ∈ Finset.range n := Finset.mem_range.mpr hi
  have hrest : ∑ j ∈ (Finset.range n).erase i,
      ((Function.update lists (.active i) l (.active j)).length : Int) =
      ∑ j ∈ (Finset.range n).erase i, ((lists (.active j)).length : Int) := by
    refine Finset.sum_congr rfl ?_
    intro j hj
    have hne : QueueId.active j ≠ .active i := by
      intro h
      exact (Finset.mem_erase.mp hj).1 (by simpa using h)
    rw [Function.update_of_ne hne]
  unfold activeTotal
  rw [← Finset.add_sum_erase _ _ hmem, ← Finset.add_sum_erase _ _ hmem, hrest]
  simp
  ring

/-- Another queue changes. -/
theorem activeTotal_update_of_ne (lists : QueueId → List EventPtr) (n : Nat) {id : QueueId}
    (h : ∀ i, id ≠ .active i) (l : List EventPtr) :
    activeTotal (Function.update lists id l) n = activeTotal lists n := by
  unfold activeTotal
  refine Finset.sum_congr rfl ?_
  intro j _
  rw [Function.update_of_ne (h j).symm]

/-- The totals after the change of the queue that a flag stands for. -/
theorem totals_update (lists : QueueId → List EventPtr) {n : Nat} {e : Event} (hpri : e.evPri < n)
    (q : Evlist) (l : List EventPtr) :
    total (Function.update lists (e.queueId q) l) n =
        total lists n + (l.length - (lists (e.queueId q)).length) ∧
      activeTotal (Function.update lists (e.queueId q) l) n =
        activeTotal lists n +
          if q = .active then (l.length - (lists (e.queueId q)).length : Int) else 0 := by
  cases q with
  | inserted =>
    have h := activeTotal_update_of_ne lists n (by simp : ∀ i, QueueId.inserted ≠ .active i) l
    simp only [Event.queueId, total, h]
    simp
    ring
  | active =>
    have h := activeTotal_update lists hpri l
    simp only [Event.queueId, total, h]
    simp
    ring
  | timeout =>
    have h := activeTotal_update_of_ne lists n (by simp : ∀ i, QueueId.timeout ≠ .active i) l
    simp only [Event.queueId, total, h]
    simp

/-- The active queues are empty exactly if none of them has an element. -/
theorem activeTotal_eq_zero {lists : QueueId → List EventPtr} {n : Nat} :
    activeTotal lists n = 0 ↔ ∀ i < n, lists (.active i) = [] := by
  unfold activeTotal
  rw [Finset.sum_eq_zero_iff_of_nonneg fun i _ => by omega]
  constructor
  · intro h i hi
    have := h i (Finset.mem_range.mpr hi)
    exact List.length_eq_zero_iff.mp (by omega)
  · intro h i hi
    rw [h i (Finset.mem_range.mp hi)]
    rfl

/-! ## Changes that the queues do not see -/

/-- What the account of the queues depends on. -/
def Event.book (e : Event) : (Evlist → Bool) × Nat × Nat := (e.evFlags, e.evPri, e.evEvents)

/-- The states differ in nothing that the account depends on. -/
structure SameBook (w w' : World) : Prop where
  queues : w'.base.queues = w.base.queues
  count : w'.base.eventCount = w.base.eventCount
  countActive : w'.base.eventCountActive = w.base.eventCountActive
  nactive : w'.base.nactiveQueues = w.base.nactiveQueues
  evSignal : w'.base.sig.evSignal = w.base.sig.evSignal
  events : ∀ p, (w'.events p).map Event.book = (w.events p).map Event.book

/-- An event with the same book entry. -/
theorem SameBook.back {w w' : World} (h : SameBook w w') {p : EventPtr} {e' : Event}
    (he : w'.events p = some e') : ∃ e, w.events p = some e ∧ e.book = e'.book := by
  have hp := h.events p
  rw [he] at hp
  exact Option.map_eq_some_iff.mp hp.symm

/-- An event with the same book entry. -/
theorem SameBook.forth {w w' : World} (h : SameBook w w') {p : EventPtr} {e : Event}
    (he : w.events p = some e) : ∃ e', w'.events p = some e' ∧ e'.book = e.book := by
  have hp := h.events p
  rw [he] at hp
  exact Option.map_eq_some_iff.mp hp

/-- Events with the same entry are on the same queues. -/
theorem book_eq {e e' : Event} (h : e.book = e'.book) :
    e.evFlags = e'.evFlags ∧ e.queueId = e'.queueId ∧ e.evPri = e'.evPri ∧
      e.evEvents = e'.evEvents := by
  simp only [Event.book, Prod.mk.injEq] at h
  refine ⟨h.1, ?_, h.2.1, h.2.2⟩
  funext q
  cases q <;> simp [Event.queueId, h.2.1]

/-- The account stays right. -/
theorem Inv.sameBook {w w' : World} (hinv : Inv w) (h : SameBook w w') : Inv w' := by
  obtain ⟨lists, hb⟩ := hinv.booked
  refine ⟨⟨lists, ?_, ?_, ?_, ?_⟩, ?_, ?_, ?_⟩
  · rw [h.queues]
    exact hb.queues
  · intro id p
    rw [hb.member id p]
    constructor
    · intro hp
      obtain ⟨e, he, q, hid, hq⟩ := hp
      obtain ⟨e', he', hbook⟩ := h.forth he
      obtain ⟨hf, hqueue, -, -⟩ := book_eq hbook
      exact ⟨e', he', q, by rw [hqueue]; exact hid, by rw [hf]; exact hq⟩
    · intro hp
      obtain ⟨e', he', q, hid, hq⟩ := hp
      obtain ⟨e, he, hbook⟩ := h.back he'
      obtain ⟨hf, hqueue, -, -⟩ := book_eq hbook
      exact ⟨e, he, q, by rw [hqueue]; exact hid, by rw [hf]; exact hq⟩
  · rw [h.count, h.nactive]
    exact hb.count
  · rw [h.countActive, h.nactive]
    exact hb.countActive
  · rw [h.nactive]
    exact hinv.queue
  · intro p e' he'
    obtain ⟨e, he, hbook⟩ := h.back he'
    rw [h.nactive, ← (book_eq hbook).2.2.1]
    exact hinv.pri p e he
  · obtain ⟨e, he, hsig⟩ := hinv.internal
    obtain ⟨e', he', hbook⟩ := h.forth he
    rw [h.evSignal]
    exact ⟨e', he', by rw [(book_eq hbook).2.2.2]; exact hsig⟩

/-- A write of an event that keeps its entry. -/
theorem sameBook_setEvent {w : World} {p : EventPtr} {e : Event} (e' : Event)
    (he : w.events p = some e)
    (h : e'.book = e.book) : SameBook w (w.setEvent p e') := by
  refine ⟨rfl, rfl, rfl, rfl, rfl, ?_⟩
  intro p'
  by_cases hp : p' = p
  · subst hp
    simp [World.setEvent, he, h]
  · simp [World.setEvent, hp]

/-- Other fields do not matter. -/
theorem sameBook_clearNcalls (w : World) (e : Event) : SameBook w (w.clearNcalls e) := by
  unfold World.clearNcalls
  split
  · exact ⟨rfl, rfl, rfl, rfl, rfl, fun _ => rfl⟩
  · split
    · exact ⟨rfl, rfl, rfl, rfl, rfl, fun _ => rfl⟩
    · exact ⟨rfl, rfl, rfl, rfl, rfl, fun _ => rfl⟩

/-! ## Insertion and removal -/

/-- What an operation on a queue changes besides the queue and the counters: a flag. -/
structure FlagSet (w : World) (p : EventPtr) (e : Event) (queue : Evlist) (b : Bool)
    (w' : World) : Prop where
  events : w'.events = Function.update w.events p
    (some { e with evFlags := Function.update e.evFlags queue b })
  frames : w'.frames = w.frames
  sig : w'.base.sig = w.base.sig
  evbase : w'.base.evbase = w.base.evbase
  nactive : w'.base.nactiveQueues = w.base.nactiveQueues

/-- The priorities and the internal event do not change. -/
theorem FlagSet.inv {w w' : World} {p : EventPtr} {e : Event} {queue : Evlist} {b : Bool}
    (h : FlagSet w p e queue b w') (hinv : Inv w) (he : w.events p = some e)
    (lists : QueueId → List EventPtr) (hb : Booked w' lists) : Inv w' := by
  refine ⟨⟨lists, hb⟩, ?_, ?_, ?_⟩
  · rw [h.nactive]
    exact hinv.queue
  · intro p' e' he'
    rw [h.events] at he'
    rw [h.nactive]
    by_cases hp : p' = p
    · subst hp
      rw [Function.update_self] at he'
      cases he'
      exact hinv.pri p' e he
    · rw [Function.update_of_ne hp] at he'
      exact hinv.pri p' e' he'
  · obtain ⟨es, hes, hsig⟩ := hinv.internal
    rw [h.sig, h.events]
    by_cases hp : w.base.sig.evSignal = p
    · rw [hp] at hes ⊢
      rw [he] at hes
      cases hes
      exact ⟨_, Function.update_self _ _ _, hsig⟩
    · rw [Function.update_of_ne hp]
      exact ⟨es, hes, hsig⟩

/-- Which events are members after a flag was set or reset. -/
theorem member_flagSet {w w' : World} {p : EventPtr} {e : Event} {queue : Evlist} {b : Bool}
    (h : FlagSet w p e queue b w') (he : w.events p = some e) (id : QueueId) (p' : EventPtr) :
    (∃ e', w'.events p' = some e' ∧ ∃ q, e'.queueId q = id ∧ e'.evFlags q = true) ↔
      if p' = p ∧ id = e.queueId queue then b = true
      else ∃ e', w.events p' = some e' ∧ ∃ q, e'.queueId q = id ∧ e'.evFlags q = true := by
  rw [h.events]
  by_cases hp : p' = p
  · subst hp
    simp only [Function.update_self, Option.some.injEq, exists_eq_left', he, true_and]
    have hqueue : ∀ q, Event.queueId { e with evFlags := Function.update e.evFlags queue b } q =
        e.queueId q := fun q => by cases q <;> rfl
    simp only [hqueue]
    by_cases hid : id = e.queueId queue
    · subst hid
      rw [if_pos rfl]
      constructor
      · intro hq
        obtain ⟨q, hq, hflag⟩ := hq
        rw [e.queueId_injective hq, Function.update_self] at hflag
        exact hflag
      · intro hb
        exact ⟨queue, rfl, by rw [Function.update_self]; exact hb⟩
    · rw [if_neg hid]
      have hne : ∀ q, e.queueId q = id → q ≠ queue := by
        intro q hq hqq
        exact hid (by rw [← hq, hqq])
      constructor
      · intro hq
        obtain ⟨q, hq, hflag⟩ := hq
        rw [Function.update_of_ne (hne q hq)] at hflag
        exact ⟨q, hq, hflag⟩
      · intro hq
        obtain ⟨q, hq, hflag⟩ := hq
        exact ⟨q, hq, by rw [Function.update_of_ne (hne q hq)]; exact hflag⟩
  · rw [Function.update_of_ne hp, if_neg fun hand => hp hand.1]

/-- `event_queue_insert` of an event that is not on the queue. -/
theorem eventQueueInsert_ends {w : World} (hinv : Inv w) {p : EventPtr} {e : Event}
    (he : w.events p = some e) {queue : Evlist} (hoff : e.evFlags queue = false) :
    Ends Unbooked (fun w' => Inv w' ∧ FlagSet w p e queue true w') (eventQueueInsert w p queue) := by
  obtain ⟨lists, hb⟩ := hinv.booked
  have hnot : p ∉ lists (e.queueId queue) := by
    intro hmem
    obtain ⟨e', he', q, hq, hflag⟩ := (hb.member _ _).mp hmem
    rw [he] at he'
    cases he'
    rw [e.queueId_injective hq, hoff] at hflag
    cases hflag
  simp only [eventQueueInsert, World.event, he, bind, Except.bind, hoff, Bool.false_eq_true,
    if_false, ends_ok]
  have hflag : FlagSet w p e queue true
      { w.setEvent p { e with evFlags := Function.update e.evFlags queue true } with
        base := { w.base with
          eventCount := w.base.eventCount + 1
          eventCountActive := w.base.eventCountActive + if queue = .active then 1 else 0
          queues := Function.update w.base.queues (e.queueId queue)
            ((w.base.queues (e.queueId queue)).insertTail p) } } :=
    ⟨rfl, rfl, rfl, rfl, rfl⟩
  refine ⟨hflag.inv hinv he (Function.update lists (e.queueId queue)
    (lists (e.queueId queue) ++ [p])) ⟨?_, ?_, ?_, ?_⟩, hflag⟩
  · intro id
    by_cases hid : id = e.queueId queue
    · subst hid
      simp only [Function.update_self]
      exact TailQ.represents_insertTail (hb.queues _) hnot
    · simp only [Function.update_of_ne hid]
      exact hb.queues id
  · intro id p'
    rw [member_flagSet hflag he id p', ← hb.member id p']
    by_cases hid : id = e.queueId queue
    · subst hid
      by_cases hp : p' = p <;> simp [hp]
    · simp [hid]
  · have ht := (totals_update lists (hinv.pri p e he) queue
      (lists (e.queueId queue) ++ [p])).1
    show w.base.eventCount + 1 = _
    rw [hb.count]
    refine Eq.trans ?_ ht.symm
    simp
  · have ht := (totals_update lists (hinv.pri p e he) queue
      (lists (e.queueId queue) ++ [p])).2
    show w.base.eventCountActive + _ = _
    rw [hb.countActive]
    refine Eq.trans ?_ ht.symm
    simp

/-- `event_queue_remove` of an event that is on the queue. -/
theorem eventQueueRemove_ends {w : World} (hinv : Inv w) {p : EventPtr} {e : Event}
    (he : w.events p = some e) {queue : Evlist} (hon : e.evFlags queue = true) :
    Ends Unbooked (fun w' => Inv w' ∧ FlagSet w p e queue false w')
      (eventQueueRemove w p queue) := by
  obtain ⟨lists, hb⟩ := hinv.booked
  have hmem : p ∈ lists (e.queueId queue) := (hb.member _ _).mpr ⟨e, he, queue, rfl, hon⟩
  have hnodup := (hb.queues (e.queueId queue)).nodup
  have hlen : ((lists (e.queueId queue)).erase p).length + 1 =
      (lists (e.queueId queue)).length := by
    have hpos := List.length_pos_of_mem hmem
    rw [List.length_erase_of_mem hmem]
    omega
  simp only [eventQueueRemove, World.event, he, bind, Except.bind, hon, if_true, ends_ok]
  have hflag : FlagSet w p e queue false
      { w.setEvent p { e with evFlags := Function.update e.evFlags queue false } with
        base := { w.base with
          eventCount := w.base.eventCount - 1
          eventCountActive := w.base.eventCountActive - if queue = .active then 1 else 0
          queues := Function.update w.base.queues (e.queueId queue)
            ((w.base.queues (e.queueId queue)).remove p) } } :=
    ⟨rfl, rfl, rfl, rfl, rfl⟩
  refine ⟨hflag.inv hinv he (Function.update lists (e.queueId queue)
    ((lists (e.queueId queue)).erase p)) ⟨?_, ?_, ?_, ?_⟩, hflag⟩
  · intro id
    by_cases hid : id = e.queueId queue
    · subst hid
      simp only [Function.update_self]
      exact TailQ.represents_remove (hb.queues _) hmem
    · simp only [Function.update_of_ne hid]
      exact hb.queues id
  · intro id p'
    rw [member_flagSet hflag he id p', ← hb.member id p']
    by_cases hid : id = e.queueId queue
    · subst hid
      by_cases hp : p' = p <;> simp [hp, hnodup.mem_erase_iff]
    · simp [hid]
  · have ht := (totals_update lists (hinv.pri p e he) queue
      ((lists (e.queueId queue)).erase p)).1
    show w.base.eventCount - 1 = _
    rw [hb.count]
    refine Eq.trans ?_ ht.symm
    omega
  · have ht := (totals_update lists (hinv.pri p e he) queue
      ((lists (e.queueId queue)).erase p)).2
    show w.base.eventCountActive - _ = _
    rw [hb.countActive]
    refine Eq.trans ?_ ht.symm
    split <;> omega

/-! ## The functions -/

/-- Reading an event, before an operation that keeps the account. -/
theorem event_inv (w : World) (p : EventPtr) :
    Ends Unbooked (fun e => w.events p = some e) (w.event p) := by
  unfold World.event
  split
  · simp [Unbooked]
  · assumption

/-- The event is on no queue of the kind. -/
def Off (w : World) (p : EventPtr) (queue : Evlist) : Prop :=
  ∀ e, w.events p = some e → e.evFlags queue = false

theorem FlagSet.off {w w' : World} {p : EventPtr} {e : Event} {queue : Evlist}
    (h : FlagSet w p e queue false w') : Off w' p queue := by
  intro e' he'
  rw [h.events, Function.update_self] at he'
  cases he'
  exact Function.update_self _ _ _

/-- Another flag does not change. -/
theorem FlagSet.off_other {w w' : World} {p : EventPtr} {e : Event} {queue q : Evlist} {b : Bool}
    (h : FlagSet w p e queue b w') (he : w.events p = some e) (hoff : Off w p q) (hq : q ≠ queue) :
    Off w' p q := by
  intro e' he'
  rw [h.events, Function.update_self] at he'
  cases he'
  show Function.update e.evFlags queue b q = false
  rw [Function.update_of_ne hq]
  exact hoff e he

/-- `event_queue_insert`, when it is known that the event is not on the queue. -/
theorem insert_inv {w : World} (hinv : Inv w) {p : EventPtr} {queue : Evlist}
    (hoff : Off w p queue) : Ends Unbooked Inv (eventQueueInsert w p queue) := by
  cases he : w.events p with
  | none => simp [eventQueueInsert, World.event, he, bind, Except.bind, Unbooked]
  | some e => exact (eventQueueInsert_ends hinv he (hoff e he)).mono fun _ h => h.1

/-- `event_queue_insert` into the active queue: an event that is there stays there. -/
theorem insertActive_inv {w : World} (hinv : Inv w) (p : EventPtr) :
    Ends Unbooked Inv (eventQueueInsert w p .active) := by
  cases he : w.events p with
  | none => simp [eventQueueInsert, World.event, he, bind, Except.bind, Unbooked]
  | some e =>
    cases hflag : e.evFlags .active with
    | false => exact (eventQueueInsert_ends hinv he hflag).mono fun _ h => h.1
    | true =>
      simpa [eventQueueInsert, World.event, he, bind, Except.bind, hflag] using hinv

theorem removeIfOn_ends {w : World} (hinv : Inv w) (p : EventPtr) (queue : Evlist) :
    Ends Unbooked (fun w' => Inv w' ∧ Off w' p queue ∧ ∀ q, Off w p q → Off w' p q)
      (removeIfOn w p queue) := by
  refine (event_inv w p).bind ?_
  intro e he
  cases hflag : e.evFlags queue with
  | false =>
    refine ⟨hinv, ?_, fun _ h => h⟩
    intro e' he'
    rw [he] at he'
    cases he'
    exact hflag
  | true =>
    refine (eventQueueRemove_ends hinv he hflag).mono ?_
    intro w' h
    refine ⟨h.1, h.2.off, ?_⟩
    intro q hq
    by_cases hqq : q = queue
    · exact hqq ▸ h.2.off
    · exact h.2.off_other he hq hqq

theorem off_clearNcalls {w : World} {p : EventPtr} {q : Evlist} (h : Off w p q) (e : Event) :
    Off (w.clearNcalls e) p q := by
  intro e' he'
  rw [(spares_clearNcalls (· = p) w e).event p rfl] at he'
  exact h e' he'

/-- The first half of `event_add`, when the backend keeps the account and does not insert the
event itself. -/
theorem addInserted_ends {w : World} (hinv : Inv w) {p : EventPtr}
    {add : World → Except Halt (Int × World)}
    (hadd : Ends Unbooked (fun r => Inv r.2 ∧ r.2.events p = w.events p) (add w)) :
    Ends Unbooked (fun r => Inv r.2) (addInserted add w p) := by
  refine (event_inv w p).bind ?_
  intro e he
  split
  · rename_i hcond
    have hoff : e.evFlags .inserted = false := by
      cases h : e.evFlags .inserted
      · rfl
      · simp [h] at hcond
    refine hadd.bind ?_
    intro r hr
    obtain ⟨res, w1⟩ := r
    dsimp only
    split
    · have hoff1 : Off w1 p .inserted := by
        intro e1 he1
        rw [hr.2, he] at he1
        cases he1
        exact hoff
      exact (insert_inv hr.1 hoff1).bind fun w2 h2 => h2
    · exact hr.1
  · exact hinv

theorem addTimeout_inv {w : World} (hinv : Inv w) (p : EventPtr) :
    Ends Unbooked Inv (addTimeout w p) := by
  refine (removeIfOn_ends hinv p .timeout).bind ?_
  intro w1 h1
  obtain ⟨hinv1, hoff1, -⟩ := h1
  refine (event_inv w1 p).bind ?_
  intro e he
  split
  · rename_i hcond
    have hon : e.evFlags .active = true := by
      cases h : e.evFlags .active
      · simp [h] at hcond
      · rfl
    have hinv2 := hinv1.sameBook (sameBook_clearNcalls w1 e)
    have he2 : (w1.clearNcalls e).events p = some e := by
      rw [(spares_clearNcalls (· = p) w1 e).event p rfl]
      exact he
    refine (eventQueueRemove_ends hinv2 he2 hon).bind ?_
    intro w3 h3
    exact insert_inv h3.1 (h3.2.off_other he2 (off_clearNcalls hoff1 e) (by simp))
  · exact insert_inv hinv1 hoff1

theorem eventAddWith_inv {w : World} (hinv : Inv w) {p : EventPtr}
    {add : World → Except Halt (Int × World)} (tv : Bool)
    (hadd : Ends Unbooked (fun r => Inv r.2 ∧ r.2.events p = w.events p) (add w)) :
    Ends Unbooked (fun r => Inv r.2) (eventAddWith add w p tv) := by
  refine (addInserted_ends hinv hadd).bind ?_
  intro r hr
  obtain ⟨res, w1⟩ := r
  dsimp only
  split
  · exact (addTimeout_inv hr p).bind fun w2 h2 => h2
  · exact hr

theorem epollAddFd_inv {w : World} (hinv : Inv w) (p p' : EventPtr) (ok : Bool) :
    Ends Unbooked (fun r => Inv r.2 ∧ r.2.events p' = w.events p') (epollAddFd w p ok) := by
  refine (event_inv w p).bind ?_
  intro e _
  split
  · simp [Unbooked]
  · exact ⟨hinv.sameBook ⟨rfl, rfl, rfl, rfl, rfl, fun _ => rfl⟩, rfl⟩

theorem evsignalFirst_inv {w : World} (hinv : Inv w) (signal : Nat) (sys : Sys) :
    Ends Unbooked (fun r => Inv r.2) (evsignalFirst w signal sys) := by
  unfold evsignalFirst
  split
  · dsimp only
    have hinv1 : Inv { w with
        evsignalBase := true
        base := { w.base with
          sig := { w.base.sig with
            handlers := Function.update w.base.sig.handlers signal true } } } :=
      hinv.sameBook ⟨rfl, rfl, rfl, rfl, rfl, fun _ => rfl⟩
    split
    · exact hinv1
    · refine (eventAddWith_inv hinv1 false (epollAddFd_inv hinv1 _ _ sys.epollOk)).bind ?_
      intro r hr
      obtain ⟨res, w2⟩ := r
      dsimp only
      split
      · exact hr
      · exact hr.sameBook ⟨rfl, rfl, rfl, rfl, rfl, fun _ => rfl⟩
  · exact hinv

/-- `evsignal_add` may insert the internal event, but not the event that it is called for. -/
theorem evsignalAdd_inv {w : World} (hinv : Inv w) {p : EventPtr} {e : Event}
    (he : w.events p = some e) (hsignal : hasBit e.evEvents Ev.signal = true) (sys : Sys) :
    Ends Unbooked (fun r => Inv r.2 ∧ r.2.events p = w.events p) (evsignalAdd w p sys) := by
  have hp : w.base.sig.evSignal ≠ p := by
    intro hp
    obtain ⟨es, hes, hno⟩ := hinv.internal
    rw [hp, he] at hes
    cases hes
    rw [hno] at hsignal
    cases hsignal
  refine (ends_of_both (evsignalAdd_spares (P := (· = p)) hp he hsignal sys)
    (R := fun r => Inv r.2) ?_).mono fun r hr => ⟨hr.2, hr.1.event p rfl⟩
  refine (event_inv w p).bind ?_
  intro e _
  split
  · simp [Unbooked]
  · split
    · dsimp only
      have hfirst : Ends Unbooked (fun r => Inv r.2)
          (if (w.base.sig.evsigevents e.evFd.toNat).tqhFirst = none then
            evsignalFirst w e.evFd.toNat sys else .ok (0, w)) := by
        split
        · exact evsignalFirst_inv hinv _ sys
        · exact hinv
      refine hfirst.bind ?_
      intro r hr
      obtain ⟨res, w1⟩ := r
      dsimp only
      split
      · exact hr
      · exact hr.sameBook ⟨rfl, rfl, rfl, rfl, rfl, fun _ => rfl⟩
    · simp [Unbooked]

theorem evselAdd_inv {w : World} (hinv : Inv w) (p : EventPtr) (sys : Sys) :
    Ends Unbooked (fun r => Inv r.2 ∧ r.2.events p = w.events p) (evselAdd w p sys) := by
  refine (event_inv w p).bind ?_
  intro e he
  split
  · rename_i hsig
    exact evsignalAdd_inv hinv he hsig sys
  · exact epollAddFd_inv hinv p p sys.epollOk

/-- **`event_add` keeps the account.** -/
theorem eventAdd_inv {w : World} (hinv : Inv w) (p : EventPtr) (tv : Bool) (sys : Sys) :
    Ends Unbooked (fun r => Inv r.2) (eventAdd w p tv sys) :=
  eventAddWith_inv hinv tv (evselAdd_inv hinv p sys)

theorem evselDel_inv {w : World} (hinv : Inv w) (p : EventPtr) (sys : Sys) :
    Ends Unbooked (fun r => Inv r.2 ∧ r.2.events = w.events) (evselDel w p sys) := by
  refine (event_inv w p).bind ?_
  intro e _
  split
  · exact ⟨hinv, rfl⟩
  · split
    · simp [Unbooked]
    · exact ⟨hinv.sameBook ⟨rfl, rfl, rfl, rfl, rfl, fun _ => rfl⟩, rfl⟩

/-- **`event_del` keeps the account**, and the event is on no queue afterwards. -/
theorem eventDel_ends {w : World} (hinv : Inv w) (p : EventPtr) (sys : Sys) :
    Ends Unbooked (fun r => Inv r.2 ∧ ∀ q, Off r.2 p q) (eventDel w p sys) := by
  refine (event_inv w p).bind ?_
  intro e _
  refine (removeIfOn_ends (hinv.sameBook (sameBook_clearNcalls w e)) p .timeout).bind ?_
  intro w2 h2
  refine (removeIfOn_ends h2.1 p .active).bind ?_
  intro w3 h3
  have htimeout : Off w3 p .timeout := h3.2.2 .timeout h2.2.1
  refine (event_inv w3 p).bind ?_
  intro e3 he3
  split
  · rename_i hon
    refine (eventQueueRemove_ends h3.1 he3 hon).bind ?_
    intro w4 h4
    refine (evselDel_inv h4.1 p sys).mono ?_
    intro r hr
    refine ⟨hr.1, ?_⟩
    unfold Off
    rw [hr.2]
    intro q
    cases q with
    | inserted => exact h4.2.off
    | active => exact h4.2.off_other he3 h3.2.1 (by simp)
    | timeout => exact h4.2.off_other he3 htimeout (by simp)
  · rename_i hoff
    refine ⟨h3.1, ?_⟩
    intro q
    cases q with
    | inserted =>
      intro e' he'
      rw [he3] at he'
      cases he'
      simpa using hoff
    | active => exact h3.2.1
    | timeout => exact htimeout

theorem eventDel_inv {w : World} (hinv : Inv w) (p : EventPtr) (sys : Sys) :
    Ends Unbooked (fun r => Inv r.2) (eventDel w p sys) :=
  (eventDel_ends hinv p sys).mono fun _ h => h.1

/-- **`event_active` keeps the account.** -/
theorem eventActive_inv {w : World} (hinv : Inv w) (p : EventPtr) (res : Nat) (ncalls : Int) :
    Ends Unbooked Inv (eventActive w p res ncalls) := by
  refine (event_inv w p).bind ?_
  intro e he
  split
  · exact hinv.sameBook (sameBook_setEvent _ he rfl)
  · refine insertActive_inv (hinv.sameBook (sameBook_setEvent _ he ?_)) p
    rfl

end Donkeyji.MyEvent
