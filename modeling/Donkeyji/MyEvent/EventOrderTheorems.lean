/-
Donkeyji.MyEvent.EventOrderTheorems — callbacks are called in the order in
which their events became active.

`Lined p q w` says that the event `p` is on the active queue and `q` is not in
front of it. No operation on another event changes that, since the queue only
grows at its end, and taking an event from the queue takes the first one. So
`q` is not called before `p`.
-/
import Donkeyji.MyEvent.EventDeliveryTheorems

namespace Donkeyji.MyEvent

open Runs Outcome Memory

/-! ## The rule -/

/-- What every write to the queues keeps, if it takes no event in `P` off the active queue. -/
structure Upheld (P : EventPtr → Prop) (J : World → Prop) : Prop where
  insert : ∀ {w x} queue, J w → Ends (fun _ => False) J (eventQueueInsert w x queue)
  remove : ∀ {w x queue}, J w → (P x → queue ≠ .active) →
    Ends (fun _ => False) J (eventQueueRemove w x queue)
  set : ∀ {w x} fd events, J w → w.events x = none →
    J (w.setEvent x ⟨fd, events, 0, fun _ => false, 0, none, w.base.nactiveQueues / 2⟩)
  same : ∀ {w w'}, J w → SameBook w w' → J w'

/-- The step may take the event off the active queue. -/
def Takes (w : World) (x : EventPtr) : Act → Prop
  | .eventAdd y _ _ => y = x
  | .eventDel y _ => y = x
  | .tick _ =>
    match w.frames with
    | .evsignalProcess _ (some (_, a)) :: _ => a = some x
    | .eventProcessActive d :: _ =>
      d.ev = none ∧ (w.base.queues (.active d.activeq)).tqhFirst = some x
    | _ => False
  | _ => False

section Upheld

variable {P : EventPtr → Prop} {J : World → Prop} (hJ : Upheld P J) {x : EventPtr} {w : World}

include hJ

theorem removeIfOn_upheld (h : J w) {queue : Evlist} (hx : P x → queue ≠ .active) :
    Ends (fun _ => False) J (removeIfOn w x queue) := by
  refine (event_ends w x).bind ?_
  intro e _
  split
  · exact hJ.remove h hx
  · exact h

theorem clearNcalls_upheld (h : J w) (e : Event) : J (w.clearNcalls e) :=
  hJ.same h (sameBook_clearNcalls w e)

theorem epollAddFd_upheld (h : J w) (ok : Bool) :
    Ends (fun _ => False) (fun r => J r.2) (epollAddFd w x ok) := by
  refine (event_ends w x).bind ?_
  intro e _
  split
  · exact fun h => h
  · exact hJ.same h ⟨rfl, rfl, rfl, rfl, rfl, fun _ => rfl⟩

theorem evselDel_upheld (h : J w) (sys : Sys) :
    Ends (fun _ => False) (fun r => J r.2) (evselDel w x sys) := by
  refine (event_ends w x).bind ?_
  intro e _
  split
  · exact h
  · split
    · exact fun h => h
    · exact hJ.same h ⟨rfl, rfl, rfl, rfl, rfl, fun _ => rfl⟩

theorem addInserted_upheld (h : J w) {add : World → Except Halt (Int × World)}
    (hadd : Ends (fun _ => False) (fun r => J r.2) (add w)) :
    Ends (fun _ => False) (fun r => J r.2) (addInserted add w x) := by
  refine (event_ends w x).bind ?_
  intro e _
  split
  · refine hadd.bind ?_
    intro r hr
    obtain ⟨res, w1⟩ := r
    dsimp only
    split
    · exact (hJ.insert .inserted hr).bind fun w2 h2 => h2
    · exact hr
  · exact h

theorem addTimeout_upheld (h : J w) (hx : ¬ P x) :
    Ends (fun _ => False) J (addTimeout w x) := by
  refine (removeIfOn_upheld hJ h fun hxp => absurd hxp hx).bind ?_
  intro w1 h1
  refine (event_ends w1 x).bind ?_
  intro e _
  split
  · refine (hJ.remove (clearNcalls_upheld hJ h1 e) fun hxp => absurd hxp hx).bind ?_
    exact fun w3 h3 => hJ.insert .timeout h3
  · exact hJ.insert .timeout h1

theorem eventAddWith_upheld (h : J w) (hx : ¬ P x) (tv : Bool)
    {add : World → Except Halt (Int × World)}
    (hadd : Ends (fun _ => False) (fun r => J r.2) (add w)) :
    Ends (fun _ => False) (fun r => J r.2) (eventAddWith add w x tv) := by
  refine (addInserted_upheld hJ h hadd).bind ?_
  intro r hr
  obtain ⟨res, w1⟩ := r
  dsimp only
  split
  · exact (addTimeout_upheld hJ hr hx).bind fun w2 h2 => h2
  · exact hr

theorem evsignalFirst_upheld (h : J w) (hp : ¬ P w.base.sig.evSignal) (signal : Nat)
    (sys : Sys) : Ends (fun _ => False) (fun r => J r.2) (evsignalFirst w signal sys) := by
  unfold evsignalFirst
  split
  · dsimp only
    have h1 : J { w with
        evsignalBase := true
        base := { w.base with
          sig := { w.base.sig with
            handlers := Function.update w.base.sig.handlers signal true } } } :=
      hJ.same h ⟨rfl, rfl, rfl, rfl, rfl, fun _ => rfl⟩
    split
    · exact h1
    · refine (eventAddWith_upheld hJ h1 hp false (epollAddFd_upheld hJ h1 sys.epollOk)).bind ?_
      intro r hr
      obtain ⟨res, w2⟩ := r
      dsimp only
      split
      · exact hr
      · exact hJ.same hr ⟨rfl, rfl, rfl, rfl, rfl, fun _ => rfl⟩
  · exact h

theorem evsignalAdd_upheld (h : J w) (hp : ¬ P w.base.sig.evSignal) (sys : Sys) :
    Ends (fun _ => False) (fun r => J r.2) (evsignalAdd w x sys) := by
  refine (event_ends w x).bind ?_
  intro e _
  split
  · exact fun h => h
  · split
    · dsimp only
      have hfirst : Ends (fun _ => False) (fun r => J r.2)
          (if (w.base.sig.evsigevents e.evFd.toNat).tqhFirst = none then
            evsignalFirst w e.evFd.toNat sys else .ok (0, w)) := by
        split
        · exact evsignalFirst_upheld hJ h hp _ sys
        · exact h
      refine hfirst.bind ?_
      intro r hr
      obtain ⟨res, w1⟩ := r
      dsimp only
      split
      · exact hr
      · exact hJ.same hr ⟨rfl, rfl, rfl, rfl, rfl, fun _ => rfl⟩
    · exact fun h => h

/-- **`event_add`** of another event. -/
theorem eventAdd_upheld (h : J w) (hp : ¬ P w.base.sig.evSignal) (hx : ¬ P x) (tv : Bool)
    (sys : Sys) : Ends (fun _ => False) (fun r => J r.2) (eventAdd w x tv sys) := by
  refine eventAddWith_upheld hJ h hx tv ?_
  refine (event_ends w x).bind ?_
  intro e _
  split
  · exact evsignalAdd_upheld hJ h hp sys
  · exact epollAddFd_upheld hJ h sys.epollOk

/-- **`event_del`** of another event. -/
theorem eventDel_upheld (h : J w) (hx : ¬ P x) (sys : Sys) :
    Ends (fun _ => False) (fun r => J r.2) (eventDel w x sys) := by
  refine (event_ends w x).bind ?_
  intro e _
  refine (removeIfOn_upheld hJ (clearNcalls_upheld hJ h e) fun hxp => absurd hxp hx).bind ?_
  intro w2 h2
  refine (removeIfOn_upheld hJ h2 fun hxp => absurd hxp hx).bind ?_
  intro w3 h3
  refine (event_ends w3 x).bind ?_
  intro e3 _
  split
  · refine (hJ.remove h3 fun hxp => absurd hxp hx).bind ?_
    exact fun w4 h4 => evselDel_upheld hJ h4 sys
  · exact h3

/-- **`event_active`** of any event. -/
theorem eventActive_upheld (h : J w) (res : Nat) (ncalls : Int) :
    Ends (fun _ => False) J (eventActive w x res ncalls) := by
  refine (event_ends w x).bind ?_
  intro e he
  split
  · exact hJ.same h (sameBook_setEvent _ he rfl)
  · have h1 := hJ.same h (sameBook_setEvent
      { e with evRes := res, evNcalls := wrap16 ncalls, evPncalls := none } he rfl)
    exact hJ.insert .active h1

theorem activeIf_upheld (h : J w) (ev : Option EventPtr) (res : Nat) :
    Ends (fun _ => False) J (activeIf w ev res) := by
  cases ev with
  | none => exact h
  | some x => exact eventActive_upheld hJ h res 1

/-- Frames are not in the book. -/
theorem frames_upheld (h : J w) (fs : List Frame) : J { w with frames := fs } :=
  hJ.same h ⟨rfl, rfl, rfl, rfl, rfl, fun _ => rfl⟩

theorem enterProcessActive_upheld (h : J w) (addr : Nat) :
    Ends (fun _ => False) J (enterProcessActive w addr) := by
  unfold enterProcessActive
  split
  · exact fun h => h
  · split
    · exact fun h => h
    · exact frames_upheld hJ h _

theorem takeActive_upheld (h : J w) (d : Draining) (hx : ¬ P x) (sys : Sys) :
    Ends (fun _ => False) J (takeActive w d x sys) := by
  refine (event_ends w x).bind ?_
  intro e _
  have hremoved : Ends (fun _ => False) J
      (if hasBit e.evEvents Ev.persist then eventQueueRemove w x .active
        else (eventDel w x sys).map Prod.snd) := by
    split
    · exact hJ.remove h fun hxp => absurd hxp hx
    · exact (eventDel_upheld hJ h hx sys).map fun _ h => h
  refine hremoved.bind ?_
  intro w1 h1
  refine (event_ends w1 x).bind ?_
  intro e1 he1
  have h2 := hJ.same h1 (sameBook_setEvent { e1 with evPncalls := some d.addr } he1 rfl)
  exact frames_upheld hJ h2 _

theorem evsignalProcessTick_upheld (h : J w) {i : Nat} {cur : Option (Int × Option EventPtr)}
    (rest : List Frame) (hcur : ∀ n y, cur = some (n, some y) → P y →
      ∀ e, w.events y = some e → hasBit e.evEvents Ev.persist = true) (sys : Sys) :
    Ends (fun _ => False) J (evsignalProcessTick w i cur rest sys) := by
  unfold evsignalProcessTick
  split
  · split
    · exact frames_upheld hJ h _
    · split
      · exact frames_upheld hJ h _
      · exact frames_upheld hJ h _
  · exact hJ.same h ⟨rfl, rfl, rfl, rfl, rfl, fun _ => rfl⟩
  · rename_i n y
    refine (event_ends w y).bind ?_
    intro e he
    have hremoved : Ends (fun _ => False) J
        (if hasBit e.evEvents Ev.persist then .ok w else (eventDel w y sys).map Prod.snd) := by
      split
      · exact h
      · rename_i hpersist
        have hy : ¬ P y := fun hy => hpersist (hcur n y rfl hy e he)
        exact (eventDel_upheld hJ h hy sys).map fun _ h => h
    refine hremoved.bind ?_
    intro w1 h1
    refine (eventActive_upheld hJ h1 Ev.signal n).bind ?_
    exact fun w2 h2 => frames_upheld hJ h2 _

theorem processActiveTick_upheld (h : J w) {d : Draining} (rest : List Frame)
    (hfirst : ∀ y, d.ev = none → (w.base.queues (.active d.activeq)).tqhFirst = some y → ¬ P y)
    (sys : Sys) : Ends (fun _ => False) J (processActiveTick w d rest sys) := by
  unfold processActiveTick
  split
  · rename_i hev
    split
    · exact frames_upheld hJ h _
    · rename_i y hy
      exact takeActive_upheld hJ h d (hfirst y hev hy) sys
  · rename_i y _
    split
    · exact frames_upheld hJ h _
    · refine (event_ends w y).bind ?_
      intro e he
      have h1 := hJ.same h
        (sameBook_setEvent { e with evNcalls := wrap16 (d.ncalls - 1) } he rfl)
      exact frames_upheld hJ h1 _

/-- **A step** that takes none of the events off the queue. -/
theorem step_upheld (h : J w) (hp : ¬ P w.base.sig.evSignal) {a : Act}
    (hno : ∀ y, P y → ¬ Takes w y a) : Ends (fun _ => False) J (step w a) := by
  have hnever : ¬ (fun _ : Halt => False) .notHere := fun h => h
  cases a with
  | eventSet y fd events =>
    refine onlyIf_ends hnever fun _ => ?_
    unfold eventSet
    split
    · exact hnever
    · rename_i hnone
      exact hJ.set fd events h hnone
  | eventAdd y tv sys =>
    have hy : ¬ P y := fun hy => hno y hy rfl
    exact onlyIf_ends hnever fun _ => (eventAdd_upheld hJ h hp hy tv sys).map fun _ h => h
  | eventDel y sys =>
    have hy : ¬ P y := fun hy => hno y hy rfl
    exact onlyIf_ends hnever fun _ => (eventDel_upheld hJ h hy sys).map fun _ h => h
  | eventActive y res ncalls => exact onlyIf_ends hnever fun _ => eventActive_upheld hJ h res ncalls
  | eventProcessActive addr => exact onlyIf_ends hnever fun _ => enterProcessActive_upheld hJ h addr
  | eventBaseLoop =>
    exact onlyIf_ends hnever fun _ => hJ.same h ⟨rfl, rfl, rfl, rfl, rfl, fun _ => rfl⟩
  | callbackReturns =>
    show Ends _ _ (callbackReturns w)
    unfold callbackReturns
    split
    · exact onlyIf_ends hnever fun _ => frames_upheld hJ h _
    · exact hnever
  | signal signal =>
    refine onlyIf_ends hnever fun _ => ?_
    unfold evsignalHandler
    split
    · exact hJ.same h ⟨rfl, rfl, rfl, rfl, rfl, fun _ => rfl⟩
    · exact h
  | loopSignals =>
    exact onlyIf_ends hnever fun _ => hJ.same h ⟨rfl, rfl, rfl, rfl, rfl, fun _ => rfl⟩
  | loopReport fd hupErr epollin epollout =>
    refine onlyIf_ends hnever fun _ => ?_
    refine (activeIf_upheld hJ h _ Ev.read).bind ?_
    exact fun w1 h1 => activeIf_upheld hJ h1 _ Ev.write
  | loopProcessActive addr =>
    refine onlyIf_ends hnever fun _ => ?_
    unfold loopProcessActive
    split
    · exact enterProcessActive_upheld hJ h addr
    · exact h
  | tick sys =>
    show Ends _ _ (tick w sys)
    unfold Takes at hno
    unfold tick
    split
    · rename_i i cur rest hframes
      rw [hframes] at hno
      refine evsignalProcessTick_upheld hJ h rest (fun n y hcur hy => ?_) sys
      subst hcur
      exact absurd rfl (hno y hy)
    · rename_i d rest hframes
      rw [hframes] at hno
      refine onlyIf_ends hnever fun _ => processActiveTick_upheld hJ h rest ?_ sys
      exact fun y hev hfirst hy => hno y hy ⟨hev, hfirst⟩
    · exact hnever

end Upheld

/-! ## The line -/

/-- The event `p` is on the active queue, and `q` is not in front of it. -/
def Ahead (w : World) (p q : EventPtr) : Prop :=
  ∃ l m, (w.base.queues (.active 0)).Represents (l ++ p :: m) ∧ q ∉ l

/-- There is one active queue, and the queues agree with the flags. -/
structure Single (w : World) : Prop where
  inv : Inv w
  single : w.base.nactiveQueues = 1

/-- The event `p` is in such a line in front of `q`. -/
structure Lined (p q : EventPtr) (w : World) : Prop extends Single w where
  ahead : Ahead w p q

variable {s p q x : EventPtr} {S : Nat → EventPtr → Prop} {w w' : World}

/-- Who is on the queue has its flag set. -/
theorem Inv.mem_iff (hinv : Inv w) {id : QueueId} {l : List EventPtr}
    (hl : (w.base.queues id).Represents l) :
    x ∈ l ↔ ∃ e, w.events x = some e ∧ ∃ queue, e.queueId queue = id ∧ e.evFlags queue = true := by
  obtain ⟨lists, hb⟩ := hinv.booked
  rw [hl.unique (hb.queues id)]
  exact hb.member id x

/-- The flag of one queue stands for it. -/
theorem Inv.mem_queue_iff (hinv : Inv w) {e : Event} (he : w.events x = some e) {queue : Evlist}
    {l : List EventPtr} (hl : (w.base.queues (e.queueId queue)).Represents l) :
    x ∈ l ↔ e.evFlags queue = true := by
  rw [hinv.mem_iff hl]
  constructor
  · rintro ⟨e', he', queue', hid, hflag⟩
    cases he.symm.trans he'
    rwa [e.queueId_injective hid] at hflag
  · exact fun hflag => ⟨e, he, queue, rfl, hflag⟩

/-- What `event_queue_insert` does. -/
theorem insert_cases (hinv : Inv w) (x : EventPtr) (queue : Evlist) :
    Ends (fun _ => False) (fun w' => w' = w ∨ ∃ e, w.events x = some e ∧ e.evFlags queue = false ∧
      Inv w' ∧ w'.base.nactiveQueues = w.base.nactiveQueues ∧
      w'.base.queues = Function.update w.base.queues (e.queueId queue)
        ((w.base.queues (e.queueId queue)).insertTail x)) (eventQueueInsert w x queue) := by
  cases he : w.events x with
  | none => simp [eventQueueInsert, World.event, he, bind, Except.bind]
  | some e =>
    cases hflag : e.evFlags queue with
    | true =>
      by_cases hq : queue = .active
      · subst hq
        simp [eventQueueInsert, World.event, he, bind, Except.bind, hflag]
      · simp [eventQueueInsert, World.event, he, bind, Except.bind, hflag, hq]
    | false =>
      have hqueues : Ends (fun _ => False) (fun w' : World => w'.base.queues =
          Function.update w.base.queues (e.queueId queue)
            ((w.base.queues (e.queueId queue)).insertTail x)) (eventQueueInsert w x queue) := by
        simp [eventQueueInsert, World.event, he, bind, Except.bind, hflag, World.setEvent]
      refine (ends_of_both (eventQueueInsert_ends hinv he hflag) hqueues).mono fun w' h => .inr ?_
      exact ⟨e, rfl, hflag, h.1.1, h.1.2.nactive, h.2⟩

/-- What `event_queue_remove` does. -/
theorem remove_cases (hinv : Inv w) (x : EventPtr) (queue : Evlist) :
    Ends (fun _ => False) (fun w' => ∃ e, w.events x = some e ∧ e.evFlags queue = true ∧ Inv w' ∧
      w'.base.nactiveQueues = w.base.nactiveQueues ∧
      w'.base.queues = Function.update w.base.queues (e.queueId queue)
        ((w.base.queues (e.queueId queue)).remove x)) (eventQueueRemove w x queue) := by
  cases he : w.events x with
  | none => simp [eventQueueRemove, World.event, he, bind, Except.bind]
  | some e =>
    cases hflag : e.evFlags queue with
    | false => simp [eventQueueRemove, World.event, he, bind, Except.bind, hflag]
    | true =>
      have hqueues : Ends (fun _ => False) (fun w' : World => w'.base.queues =
          Function.update w.base.queues (e.queueId queue)
            ((w.base.queues (e.queueId queue)).remove x)) (eventQueueRemove w x queue) := by
        simp [eventQueueRemove, World.event, he, bind, Except.bind, hflag, World.setEvent]
      refine (ends_of_both (eventQueueRemove_ends hinv he hflag) hqueues).mono fun w' h => ?_
      exact ⟨e, rfl, hflag, h.1.1, h.1.2.nactive, h.2⟩

theorem set_inv (hinv : Inv w) (fd : Int) (events : Nat) (hnone : w.events x = none) :
    Inv (w.setEvent x ⟨fd, events, 0, fun _ => false, 0, none, w.base.nactiveQueues / 2⟩) := by
  have hset := eventSet_inv hinv x fd events
  rw [eventSet, hnone] at hset
  exact hset

/-- **There is one active queue** in every state. -/
theorem single_upheld : Upheld (fun _ => False) Single where
  insert {w x} queue h := (insert_cases h.inv x queue).mono fun w' hw' => by
    rcases hw' with rfl | ⟨e, -, -, hinv, hnactive, -⟩
    · exact h
    · exact ⟨hinv, hnactive.trans h.single⟩
  remove {w x queue} h _ := (remove_cases h.inv x queue).mono fun w' hw' => by
    obtain ⟨e, -, -, hinv, hnactive, -⟩ := hw'
    exact ⟨hinv, hnactive.trans h.single⟩
  set fd events h hnone := ⟨set_inv h.inv fd events hnone, h.single⟩
  same h hsame := ⟨h.inv.sameBook hsame, hsame.nactive.trans h.single⟩

/-- **The line stays** as long as `p` itself does not leave the queue. -/
theorem lined_upheld (p q : EventPtr) : Upheld (· = p) (Lined p q) where
  insert {w x} queue h := (insert_cases h.inv x queue).mono fun w' hw' => by
    rcases hw' with rfl | ⟨e, he, hflag, hinv, hnactive, hqueues⟩
    · exact h
    · obtain ⟨l, m, hrep, hnot⟩ := h.ahead
      refine ⟨⟨hinv, hnactive.trans h.single⟩, ?_⟩
      by_cases hid : QueueId.active 0 = e.queueId queue
      · rw [hid] at hrep
        have hout : x ∉ l ++ p :: m := fun hmem => by
          rw [h.inv.mem_queue_iff he hrep, hflag] at hmem
          cases hmem
        refine ⟨l, m ++ [x], ?_, hnot⟩
        simpa [hqueues, hid] using TailQ.represents_insertTail hrep hout
      · exact ⟨l, m, by rwa [hqueues, Function.update_of_ne hid], hnot⟩
  remove {w x queue} h hx := (remove_cases h.inv x queue).mono fun w' hw' => by
    obtain ⟨e, he, hflag, hinv, hnactive, hqueues⟩ := hw'
    obtain ⟨l, m, hrep, hnot⟩ := h.ahead
    refine ⟨⟨hinv, hnactive.trans h.single⟩, ?_⟩
    by_cases hid : QueueId.active 0 = e.queueId queue
    · have hactive : queue = .active := by cases queue <;> simp [Event.queueId] at hid ⊢
      have hxp : x ≠ p := fun hxp => hx hxp hactive
      rw [hid] at hrep
      have hin : x ∈ l ++ p :: m := (h.inv.mem_queue_iff he hrep).mpr hflag
      have herased := TailQ.represents_remove hrep hin
      by_cases hxl : x ∈ l
      · rw [List.erase_append_left _ hxl] at herased
        refine ⟨l.erase x, m, ?_, fun hmem => hnot (List.mem_of_mem_erase hmem)⟩
        simpa [hqueues, hid] using herased
      · rw [List.erase_append_right _ hxl, List.erase_cons_tail (by simpa using Ne.symm hxp)]
          at herased
        exact ⟨l, m.erase x, by simpa [hqueues, hid] using herased, hnot⟩
    · exact ⟨l, m, by rwa [hqueues, Function.update_of_ne hid], hnot⟩
  set fd events h hnone := ⟨⟨set_inv h.inv fd events hnone, h.single⟩, h.ahead⟩
  same h hsame := by
    refine ⟨⟨h.inv.sameBook hsame, hsame.nactive.trans h.single⟩, ?_⟩
    unfold Ahead
    rw [hsame.queues]
    exact h.ahead

/-! ## Steps -/

/-- No active queue has `q` in front. -/
theorem Lined.first_ne (h : Lined p q w) (hpq : p ≠ q) (i : Nat) :
    (w.base.queues (.active i)).tqhFirst ≠ some q := by
  intro hfirst
  obtain ⟨l, m, hrep, hnot⟩ := h.ahead
  obtain ⟨lists, hb⟩ := h.inv.booked
  have hmem : q ∈ lists (.active i) := List.mem_of_head? ((hb.queues _).first ▸ hfirst)
  obtain ⟨e, he, queue, hid, -⟩ := (hb.member _ q).mp hmem
  have hpri := h.inv.pri q e he
  rw [h.single] at hpri
  obtain rfl : i = 0 := by
    cases queue with
    | inserted => cases hid
    | active =>
      cases hid
      omega
    | timeout => cases hid
  rw [hrep.first] at hfirst
  cases l with
  | nil => exact hpq (Option.some.inj hfirst)
  | cons a l =>
    cases hfirst
    exact hnot List.mem_cons_self

/-- **A step** that neither withdraws `p` nor sends it to the end of the queue. -/
theorem lined_step (hp : ¬ w.base.sig.evSignal = p) (hl : Listed w p) (h : Lined p q w)
    (hwaits : Waits w p) {a : Act} (hno : withdraws w p a = false) (hstays : renews w p a = none) :
    Ends (fun _ => False) (fun w' => Lined p q w' ∨ CalledNext w' p) (step w a) := by
  have hnever : ¬ (fun _ : Halt => False) .notHere := fun h => h
  have hJ := lined_upheld p q
  by_cases htakes : Takes w p a
  · cases a with
    | eventAdd x tv sys =>
      obtain rfl : x = p := htakes
      have htimeout : x = x → Evlist.timeout ≠ .active := fun _ => by decide
      exact onlyIf_ends hnever fun _ => (eventAdd_waits hwaits hno h
        (removeIfOn_upheld hJ h htimeout) fun w1 h1 => hJ.insert .timeout h1).map
        fun _ h => .inl h.2
    | eventDel x sys =>
      obtain rfl : x = p := htakes
      simp [withdraws] at hno
    | tick sys =>
      show Ends _ _ (tick w sys)
      unfold Takes at htakes
      unfold tick
      split
      · rename_i i cur rest hframes
        refine (evsignalProcessTick_upheld hJ h rest (fun n y hcur hy e he => ?_) sys).mono
          fun _ h => .inl h
        subst hcur hy
        simpa [renews, hframes, he] using hstays
      · rename_i d rest hframes
        rw [hframes] at htakes
        refine onlyIf_ends hnever fun hcall => ?_
        have hcall' : d.inCallback = false := by simpa using hcall
        simp only [processActiveTick, htakes.1, htakes.2]
        exact (takeActive_called hl hwaits hcall' sys).mono fun _ h => .inr h
      · exact hnever
    | eventSet x fd events => exact htakes.elim
    | eventActive x res ncalls => exact htakes.elim
    | eventProcessActive addr => exact htakes.elim
    | eventBaseLoop => exact htakes.elim
    | callbackReturns => exact htakes.elim
    | signal signal => exact htakes.elim
    | loopSignals => exact htakes.elim
    | loopReport fd hupErr epollin epollout => exact htakes.elim
    | loopProcessActive addr => exact htakes.elim
  · exact (step_upheld hJ h hp fun y hy => hy ▸ htakes).mono fun _ h => .inl h

/-- **A step** does not take `q` while `p` is in front of it. -/
theorem still_step (hq : q ≠ w.base.sig.evSignal) (hpq : p ≠ q)
    (hturn : Lined p q w ∨ CalledNext w p) (hstill : ¬ Repeating w q) (a : Act) :
    Ends (fun _ => False) (fun w' => ¬ Repeating w' q) (step w a) := by
  have hnever : ¬ (fun _ : Halt => False) .notHere := fun h => h
  have hspares : ∀ {w'}, Spares (fun _ => False) w w' → ¬ Repeating w' q :=
    fun hsp => still_fromOld hstill (hsp.fromOld q)
  by_cases hcon : Concerns w q a
  · cases a with
    | eventSet x fd events =>
      refine onlyIf_ends hnever fun _ => ?_
      unfold eventSet
      split
      · exact hnever
      · exact hstill
    | eventAdd x tv sys =>
      exact onlyIf_ends hnever fun _ => (eventAdd_spares (P := fun _ => False)
        (fun hf => hf) (fun hf => hf) tv sys).map fun _ h => hspares h
    | eventDel x sys =>
      exact onlyIf_ends hnever fun _ => (eventDel_spares (P := fun _ => False)
        (fun hf => hf) w sys).map fun _ h => hspares h
    | eventActive x res ncalls =>
      exact onlyIf_ends hnever fun _ => (eventActive_spares (P := fun _ => False)
        (fun hf => hf) w res ncalls).mono fun _ h => hspares h
    | loopReport fd hupErr epollin epollout =>
      refine onlyIf_ends hnever fun _ => ?_
      refine (activeIf_spares (P := fun _ => False) (fun _ _ hf => hf) w Ev.read).bind ?_
      intro w1 h1
      refine (activeIf_spares (P := fun _ => False) (fun _ _ hf => hf) w1 Ev.write).mono ?_
      exact fun w' h2 => hspares (h1.trans h2)
    | tick sys =>
      show Ends _ _ (tick w sys)
      unfold Concerns at hcon
      unfold tick
      split
      · rename_i i cur rest hframes
        exact (evsignalProcessTick_fromOld hframes q sys).mono
          fun _ hold => still_fromOld hstill hold
      · rename_i d rest hframes
        rw [hframes] at hcon
        refine onlyIf_ends hnever fun _ => ?_
        rcases hcon with ⟨hev, hfirst⟩ | hrep
        · rcases hturn with hline | ⟨d', rest', hframes', -, hev', -⟩
          · exact absurd hfirst (hline.first_ne hpq d.activeq)
          · rw [hframes] at hframes'
            cases hframes'
            rw [hev] at hev'
            cases hev'
        · refine absurd ⟨.eventProcessActive d, ?_, hrep⟩ hstill
          rw [hframes, resumable_cons (by simp)]
          exact List.mem_cons_self
      · exact hnever
    | eventProcessActive addr => exact hcon.elim
    | eventBaseLoop => exact hcon.elim
    | callbackReturns => exact hcon.elim
    | signal signal => exact hcon.elim
    | loopSignals => exact hcon.elim
    | loopProcessActive addr => exact hcon.elim
  · exact (step_leaves hq hcon).mono fun _ hl => still_fromOld hstill hl.fromOld

/-! ## Runs -/

/-- What is true until `p` is called. -/
structure FirstInLine (s p q : EventPtr) (w : World) : Prop where
  sound : ∃ S, Sound s S w
  listed : Listed w p
  turn : Waits w p ∧ Lined p q w ∨ CalledNext w p
  still : ¬ Repeating w q

theorem firstInLine_next (hp : p ≠ s) (hq : q ≠ s) (hpq : p ≠ q) (w : World) (a : Act) (w' : World)
    (h : FirstInLine s p q w) (hgood : (withdraws w p a = false ∧ renews w p a = none) ∧
      invoked w a ≠ some p) (hnext : next w a = some w') : FirstInLine s p q w' := by
  obtain ⟨S, hs⟩ := h.sound
  obtain ⟨⟨hno, hstays⟩, hsilent⟩ := hgood
  have hp' : p ≠ w.base.sig.evSignal := by
    rw [hs.evSignal]
    exact hp
  have hq' : q ≠ w.base.sig.evSignal := by
    rw [hs.evSignal]
    exact hq
  refine ⟨next_ends (step_sound hs a) hnext, next_ends (step_listed hp' h.listed a) hnext, ?_,
    next_ends (still_step hq' hpq (h.turn.imp_left And.right) h.still a) hnext⟩
  rcases h.turn with ⟨hwaits, hline⟩ | hcalled
  · have hdue : Due w' p :=
      next_ends (due_step hs hp h.listed (.inl hwaits) hno hsilent) hnext
    rcases next_ends (lined_step (Ne.symm hp') h.listed hline hwaits hno hstays) hnext with
      hline' | hcalled
    · exact hdue.imp_left fun hwaits' => ⟨hwaits', hline'⟩
    · exact .inr hcalled
  · exact .inr (next_ends (calledNext_step hcalled hsilent) hnext)

/-- Whose callback a step calls has calls to make in the innermost call. -/
theorem repeating_of_invoked {a : Act} (h : invoked w a = some q) : Repeating w q := by
  obtain ⟨⟨sys, rfl⟩, -⟩ := concerns_of_invoked h
  simp only [invoked] at h
  split at h
  · rename_i d rest hframes
    split at h
    · cases h
    · rename_i hcond
      refine ⟨.eventProcessActive d, ?_, h, fun hn => hcond (.inr hn)⟩
      rw [hframes, resumable_cons (by simp)]
      exact List.mem_cons_self
  · cases h

end Donkeyji.MyEvent
