/-
Donkeyji.Xy3.SendTheorems — what `Client::trySend` puts on the wire.

In every state the bytes on the wire and those still in the buffer are
together the frames of the payloads that were accepted (`Queue`). A payload
that is refused leaves the buffer as it was.
-/
import Donkeyji.Lib.Runs
import Donkeyji.Xy3.Client
import Donkeyji.Xy3.FramingTheorems

namespace Donkeyji.Xy3

open Memory Runs
open DataBuf (frame frames frames_append)

/-- The frames of the accepted payloads are on the wire or in the buffer. -/
structure Queue (s : Sender) : Prop where
  valid : s.client.wbuf.Valid
  split : s.wire ++ s.client.wbuf.content = frames s.queued

/-- `appendPack` writes inside the block, if a `short` can count the payload. -/
theorem appendPack_ok {b : DataBuf} (hv : b.Valid) {p : List UInt8} (hp : p.length ≤ 32765) :
    ∃ r b', b.appendPack p = some (r, b') := by
  have hsize : wrap16 (p.length + 2) = p.length + 2 := wrap16_of_bounds (by omega) (by omega)
  obtain ⟨b1, hb1, hv1, -⟩ := DataBuf.moveHead_ite hv ((p.length : Int) + 2 > b.left)
  rw [DataBuf.appendPack_eq, hsize, hb1, Option.bind_some]
  by_cases hroom : (p.length : Int) + 2 > b1.left
  · rw [if_pos hroom]
    exact ⟨_, _, rfl⟩
  · obtain ⟨d1, d2, hd1, hd2⟩ := DataBuf.appendPack_writes hv1 (p := p) (by omega)
    rw [if_neg hroom, hd1, Option.bind_some, hd2]
    exact ⟨_, _, rfl⟩

theorem Queue.doSend {s : Sender} (h : Queue s) {data : List UInt8} (hdata : data.length ≤ 100) :
    ∃ s', sendStep s (.doSend data) = some s' ∧ Queue s' := by
  obtain ⟨r, b, hb⟩ := appendPack_ok h.valid (show data.length ≤ 32765 by omega)
  obtain ⟨hvalid, hcases⟩ := DataBuf.appendPack_content h.valid hb
  refine ⟨_, by simp [sendStep, Client.doSend, hb]; rfl, hvalid, ?_⟩
  cases hcases with
  | inl haccepted =>
    obtain ⟨hr, hcontent⟩ := haccepted
    simp only [hr, if_true, hcontent, frames_append, ← h.split]
    simp [frame]
  | inr hrefused =>
    obtain ⟨hr, hcontent⟩ := hrefused
    simp only [if_neg hr, hcontent]
    exact h.split

/-- What a call of `trySend` takes from the buffer is its front, and only the state of the
connection changes otherwise. -/
theorem trySend_spec {c : Client} (hv : c.wbuf.Valid) (answer : SendAnswer)
    (hok : ∀ n, answer = .ret n → (n : Int) ≤ c.wbuf.getDataSize) :
    ∃ bytes c', c.trySend answer = some (bytes, c') ∧ c'.wbuf.Valid ∧
      bytes ++ c'.wbuf.content = c.wbuf.content := by
  have hsize : c.wbuf.getDataSize = c.wbuf.content.length := DataBuf.wrap32_size hv
  by_cases hempty : c.wbuf.getDataSize = 0
  · exact ⟨[], c, by rw [Client.trySend, if_pos hempty], hv, rfl⟩
  · have hread : readAt c.wbuf.data c.wbuf.head c.wbuf.getDataSize = some c.wbuf.content := by
      have hlive := DataBuf.readAt_live hv (a := 0) (Nat.le_of_eq (Nat.zero_add _))
      simpa [slice, hsize] using hlive
    simp only [Client.trySend, if_neg hempty, hread, Option.bind_eq_bind, Option.bind_some]
    cases answer with
    | fail e =>
      cases e with
      | eintr | ewouldblock | einprogress => exact ⟨[], c, rfl, hv, rfl⟩
      | other _ => exact ⟨[], c.doClose, rfl, hv, rfl⟩
    | ret n =>
      have hn : n ≤ c.wbuf.content.length := by
        have hle := hok n rfl
        omega
      obtain ⟨b, hcut, hvalid, hcontent, -⟩ := DataBuf.cutData_spec hv hn
      refine ⟨_, _, rfl, ?_, ?_⟩
      · simp only [hcut]
        exact hvalid
      · simp only [hcut, hcontent, List.take_append_drop]

theorem Queue.trySend {s : Sender} (h : Queue s) {answer : SendAnswer}
    (hok : SendOk s (.trySend answer)) :
    ∃ s', sendStep s (.trySend answer) = some s' ∧ Queue s' := by
  obtain ⟨bytes, c, hc, hvalid, hsplit⟩ := trySend_spec h.valid answer (by
    intro n hn
    subst hn
    exact hok)
  refine ⟨⟨c, s.queued, s.wire ++ bytes⟩, by simp [sendStep, hc], hvalid, ?_⟩
  rw [List.append_assoc, hsplit]
  exact h.split

/-- A new client has nothing to send. -/
theorem Client.new_spec (junk : Nat → UInt8) :
    ∃ c, Client.new junk = some c ∧ c.wbuf.Valid ∧ c.wbuf.content = [] := by
  obtain ⟨b, hb⟩ := DataBuf.new_ok junk (show (0 : Int) ≤ 1024 by decide)
  obtain ⟨hvalid, hcontent, -⟩ := DataBuf.new_spec (by decide) hb
  refine ⟨⟨-1, b, b, 0, 0⟩, ?_, hvalid, hcontent⟩
  simp [Client.new, hb]

/-- **The send path.** Every run of a new client returns, and the bytes on the wire begin the
frames of the payloads that were accepted. -/
theorem wire_begins_frames (junk : Nat → UInt8) :
    ∃ c, Client.new junk = some c ∧ ∀ acts, AllSteps sendStep SendOk ⟨c, [], []⟩ acts →
      ∃ s, run sendStep ⟨c, [], []⟩ acts = some s ∧ s.wire <+: frames s.queued := by
  obtain ⟨c, hc, hvalid, hcontent⟩ := Client.new_spec junk
  refine ⟨c, hc, ?_⟩
  intro acts hok
  have hstep : ∀ s a, Queue s → SendOk s a → ∃ s', sendStep s a = some s' ∧ Queue s' := by
    intro s a h hgood
    cases a with
    | doSend data => exact h.doSend hgood
    | trySend answer => exact h.trySend hgood
  obtain ⟨s, hrun, hqueue⟩ := run_of_allSteps hstep ⟨hvalid, by simpa using hcontent⟩ hok
  exact ⟨s, hrun, _, hqueue.split⟩

/-- Two payloads; the first is sent in two parts with a full socket in between. -/
theorem wire_begins_frames_two : ∃ c, Client.new (fun _ => 0) = some c ∧
    ∃ s, run sendStep ⟨c, [], []⟩ [.doSend [7, 8], .trySend (.ret 3), .doSend [9],
      .trySend (.fail .ewouldblock), .trySend (.ret 2)] = some s ∧ s.wire <+: frames s.queued := by
  obtain ⟨c, hc, hall⟩ := wire_begins_frames (fun _ => 0)
  refine ⟨c, hc, hall _ ?_⟩
  cases hc
  decide +kernel

end Donkeyji.Xy3
