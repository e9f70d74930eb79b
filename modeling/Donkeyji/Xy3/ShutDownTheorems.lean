/-
Donkeyji.Xy3.ShutDownTheorems — what `shutDown` leaves behind.

The loop that should empty the queue has its test the wrong way round: it runs
while the queue is empty. So `shutDown` goes wrong when there are no events
and keeps all of them when there are some (`shutDown_eq`). It does not touch
`_fpos` either: after it the map still leads from the sockets of the old
connections to their slots (`after_shutDown`).
-/
import Donkeyji.Xy3.ServerTheorems

namespace Donkeyji.Xy3

open Runs

namespace Server

/-- The state of a new server. -/
structure Fresh (s : Server) : Prop where
  clients : ∀ o ∈ s.clients, o = none
  fpos : ∀ fd, s.fpos fd = none
  queue : s.queue = []
  count : s.count = 0

/-- `shutDown` ends and leaves the state of a new server. -/
def ShutsDown (s : Server) : Prop := ∃ s', s.shutDown = some s' ∧ Fresh s'

variable {s : Server}

/-- What `shutDown` does to a queue with events and to one without. -/
theorem shutDown_eq (s : Server) :
    (s.queue = [] → s.shutDown = none) ∧
    (s.queue ≠ [] → s.shutDown =
      some { s with listenSock := -1, clients := s.clients.map fun _ => none, count := 0 }) := by
  unfold shutDown drainQueue
  constructor
  · intro hempty
    rw [hempty]
    rfl
  · intro hne
    rw [if_neg (by simpa using hne)]
    rfl

/-- A server cannot be shut down, whatever its state. -/
theorem not_shutsDown (s : Server) : ¬ s.ShutsDown := by
  intro h
  obtain ⟨s', hs', hfresh⟩ := h
  obtain ⟨hempty, hfull⟩ := s.shutDown_eq
  by_cases hq : s.queue = []
  · rw [hempty hq] at hs'
    cases hs'
  · rw [hfull hq] at hs'
    cases hs'
    exact hq hfresh.queue

/-- Where `shutDown` ends, the clients are gone and not counted any more, all
events are still there, and the map has the sockets of all old connections. -/
theorem after_shutDown (h : Table s) {s' : Server} (hs' : s.shutDown = some s') :
    (∀ o ∈ s'.clients, o = none) ∧ s'.count = 0 ∧ s'.queue = s.queue ∧ s.queue ≠ [] ∧
      ∀ pos c, s.clients[pos]? = some (some c) → s'.fpos c.sock = some pos := by
  obtain ⟨hempty, hfull⟩ := s.shutDown_eq
  have hq : s.queue ≠ [] := by
    intro hq
    rw [hempty hq] at hs'
    cases hs'
  rw [hfull hq] at hs'
  cases hs'
  refine ⟨?_, rfl, rfl, hq, ?_⟩
  · intro o ho
    obtain ⟨_, -, rfl⟩ := List.mem_map.mp ho
    rfl
  · intro pos c hc
    exact (h.slot pos c hc).2

/-- **A server is never shut down.** In no state of any run does `shutDown`
end and leave the state of a new server. When the events of the run are for
registered sockets, it leaves all events and the sockets of all connections
wherever it ends. -/
theorem never_shutsDown (junk : Nat → UInt8) (listenSock : Int) (addOk : Bool)
    (acts : List ServerAct) :
    AllStates (serverStep junk) (fun s => ¬ s.ShutsDown) (startUp listenSock addOk) acts ∧
    (AllSteps (serverStep junk) (ActOk junk) (startUp listenSock addOk) acts →
      AllStates (serverStep junk) (fun s => ∀ s', s.shutDown = some s' →
        s'.queue = s.queue ∧ s.queue ≠ [] ∧
        ∀ pos c, s.clients[pos]? = some (some c) → s'.fpos c.sock = some pos)
        (startUp listenSock addOk) acts) := by
  constructor
  · have hany : AllSteps (serverStep junk) (fun _ _ => True) (startUp listenSock addOk) acts :=
      allSteps_of_forall (fun _ _ => trivial) _
    exact allStates_of_allSteps (fun _ _ s' _ _ _ => s'.not_shutsDown)
      (Server.not_shutsDown _) hany
  · intro hok
    have htables := allStates_of_allSteps
      (fun s a s' h hok hs => serverStep_table junk h hok hs) (table_startUp listenSock addOk) hok
    refine htables.mono ?_
    intro s h s' hs'
    exact (after_shutDown h hs').2.2

/-- **A connection outlives the shutdown.** One connection comes: its event is
delivered afterwards, and its socket leads to slot 0. Before it comes,
`shutDown` goes wrong. -/
theorem connection_outlives_shutDown :
    (startUp 3 true).shutDown = none ∧
    ∃ s s', run (serverStep fun _ => 0) (startUp 3 true)
        [.dispatch 0 [⟨3, 5, true, .fail .ewouldblock, .ret 0, true⟩]] = some s ∧
      s.shutDown = some s' ∧ s'.queue = [⟨.netNew, 0, []⟩] ∧ s'.fpos 5 = some 0 ∧
      ¬ s.ShutsDown :=
  ⟨rfl, _, _, rfl, rfl, rfl, rfl, not_shutsDown _⟩

end Server

end Donkeyji.Xy3
