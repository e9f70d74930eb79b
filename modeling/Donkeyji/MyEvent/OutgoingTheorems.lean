/-
Donkeyji.MyEvent.OutgoingTheorems — what is written to a bufferevent is sent,
in order, and the event that sends it is registered.

The bytes that `send` took and those in the output buffer are together the ones
that `bufferevent_write` accepted. `ev_write` stays registered while bytes are
left, exactly until the error callback is called with bytes left; and as many
active events as there are bytes, each with some progress, send them all.
-/
import Donkeyji.MyEvent.BuffereventTheorems
import Donkeyji.MyEvent.EvbufferFifoTheorems
import Donkeyji.MyEvent.Outgoing

namespace Donkeyji.MyEvent

open Memory Runs

variable {bufev : Outgoing} {s s' : OutgoingRun}

/-! ## One call -/

theorem Outgoing.rearm_waits (bufev : Outgoing) : bufev.rearm.Waits := by
  intro hoff
  unfold Outgoing.rearm at hoff ⊢
  split
  · rfl
  · rename_i hzero
    rw [if_neg hzero] at hoff
    exact absurd hoff hzero

@[simp] theorem Outgoing.rearm_output (bufev : Outgoing) : bufev.rearm.output = bufev.output := by
  unfold Outgoing.rearm
  split <;> rfl

@[simp] theorem Outgoing.rearm_enabled (bufev : Outgoing) :
    bufev.rearm.enabled = bufev.enabled := by
  unfold Outgoing.rearm
  split <;> rfl

/-- What the `int` says is drained, if the number fits. -/
theorem drained_of_lt {n : Nat} (h : n < 2 ^ 31) : drained n = n := by
  unfold drained wrap32 toU64
  split <;> omega

/-- A write event on an output with bytes sends what `send` takes, and is registered again unless
it fails. -/
theorem writecb_send (hv : bufev.output.Valid) (hoff : bufev.output.off ≠ 0) {event : Nat}
    (hevent : event ≠ Ev.timeout) {io : SendIo}
    (hsent : ∀ n ∈ io.sent, n ≤ bufev.output.off ∧ n < 2 ^ 31) :
    ∃ e output, output.Valid ∧
      bufev.output.contents = bufev.output.contents.take (io.sent.getD 0) ++ output.contents ∧
      (Fails event io → output.off = bufev.output.off) ∧
      buffereventWritecb { bufev with evWrite := false } event io = some (e,
        if Fails event io then { bufev with evWrite := false, output := output }
        else Outgoing.rearm { bufev with evWrite := false, output := output }) := by
  cases hio : io.sent with
  | none =>
    have hwrite : evbufferWrite bufev.output io.sent = some (-1, bufev.output) := by
      rw [hio, evbufferWrite_none hv]
    by_cases hagain : io.again = true
    · have hnot : ¬ Fails event io := by simp [Fails, hevent, hio, hagain]
      refine ⟨.reschedule, bufev.output, hv, rfl, fun _ => rfl, ?_⟩
      simp [buffereventWritecb, hevent, hoff, hwrite, hagain, hnot]
    · have hfails : Fails event io := .inr (.inr ⟨hio, by simpa using hagain⟩)
      refine ⟨.errorcb EvbufferWhat.write, bufev.output, hv, rfl, fun _ => rfl, ?_⟩
      simp [buffereventWritecb, hevent, hoff, hwrite, hagain, hfails]
  | some n =>
    obtain ⟨hle, hlt⟩ := hsent n hio
    obtain ⟨output, hwrite, hv', hcontents, -⟩ := evbufferWrite_some hv n
    have hint : wrap32 n = n := by
      unfold wrap32
      omega
    rw [drained_of_lt hlt] at hcontents
    rw [hint, ← hio] at hwrite
    have hsplit : bufev.output.contents =
        bufev.output.contents.take ((some n).getD 0) ++ output.contents := by
      rw [hcontents, Option.getD_some, List.take_append_drop]
    by_cases hn : n = 0
    · have hfails : Fails event io := .inr (.inl (hn ▸ hio))
      refine ⟨.errorcb (EvbufferWhat.write ||| EvbufferWhat.eof), output, hv', hsplit, fun _ => ?_, ?_⟩
      · rw [← hv'.length_contents, hcontents, hn, List.drop_zero, hv.length_contents]
      · simp [buffereventWritecb, hevent, hoff, hwrite, hn, hfails]
    · have hnot : ¬ Fails event io := by simp [Fails, hevent, hio, hn]
      have hminus : ¬ (n : Int) = -1 := by omega
      refine ⟨.writecb, output, hv', hsplit, fun hfails => absurd hfails hnot, ?_⟩
      simp [buffereventWritecb, hevent, hoff, hwrite, hn, hminus, hnot]

/-- **`bufferevent_writecb`** takes the bytes that were sent off the output. With bytes to send it
registers the event again for what is left, except if it fails; then all stays unsent. -/
theorem writecb_spec (hv : bufev.output.Valid) (event : Nat) {io : SendIo}
    (hsent : ∀ n ∈ io.sent, n ≤ bufev.output.off ∧ n < 2 ^ 31) :
    ∃ e b, buffereventWritecb { bufev with evWrite := false } event io = some (e, b) ∧
      b.output.Valid ∧ b.enabled = bufev.enabled ∧
      bufev.output.contents = bufev.taken event io ++ b.output.contents ∧
      (bufev.output.off ≠ 0 → Fails event io →
        b.evWrite = false ∧ b.output.off = bufev.output.off) ∧
      (bufev.output.off = 0 ∨ ¬ Fails event io → b.Waits) := by
  by_cases hoff : bufev.output.off = 0
  · have htaken : bufev.taken event io = [] := if_pos (.inr hoff)
    by_cases hevent : event = Ev.timeout
    · refine ⟨_, _, if_pos hevent, hv, rfl, by rw [htaken]; rfl, absurd hoff, fun _ hne => ?_⟩
      exact absurd hoff hne
    · refine ⟨.writecb, Outgoing.rearm { bufev with evWrite := false }, ?_, by simpa using hv,
        by simp, by simp [htaken], absurd hoff, fun _ => Outgoing.rearm_waits _⟩
      simp [buffereventWritecb, hevent, hoff]
  by_cases hevent : event = Ev.timeout
  · have htaken : bufev.taken event io = [] := if_pos (.inl hevent)
    refine ⟨_, _, if_pos hevent, hv, rfl, by rw [htaken]; rfl, fun _ _ => ⟨rfl, rfl⟩, fun h => ?_⟩
    exact absurd (.inl hevent) (h.resolve_left hoff)
  · obtain ⟨e, output, hv', hcontents, hstay, hcall⟩ := writecb_send hv hoff hevent hsent
    have htaken : bufev.taken event io = bufev.output.contents.take (io.sent.getD 0) :=
      if_neg (by simp [hevent, hoff])
    rw [← htaken] at hcontents
    by_cases hfails : Fails event io
    · rw [if_pos hfails] at hcall
      exact ⟨e, _, hcall, hv', rfl, hcontents, fun _ _ => ⟨rfl, hstay hfails⟩,
        fun h => absurd hfails (h.resolve_left hoff)⟩
    · rw [if_neg hfails] at hcall
      exact ⟨e, _, hcall, by simpa using hv', by simp, by simpa using hcontents,
        fun _ h => absurd h hfails, fun _ => Outgoing.rearm_waits _⟩

/-- **`bufferevent_write`** appends the data and registers the event, or changes nothing that
counts. -/
theorem write_spec (hv : bufev.output.Valid) (henabled : hasBit bufev.enabled Ev.write = true)
    (realloc : Option (Nat → UInt8)) (data : List UInt8) :
    ∃ res b, buffereventWrite realloc bufev data = some (res, b) ∧ b.output.Valid ∧
      b.enabled = bufev.enabled ∧
      b.output.contents = bufev.output.contents ++ (if res = -1 then [] else data) ∧
      (bufev.Waits → b.Waits) := by
  obtain ⟨res, output, hadd, hv', hres⟩ := evbufferAdd_spec hv realloc data
  rcases hres with ⟨rfl, hcontents, -⟩ | ⟨rfl, hcontents⟩
  · have hoff : output.off = bufev.output.off := by
      rw [← hv'.length_contents, hcontents, hv.length_contents]
    refine ⟨-1, { bufev with output := output }, by simp [buffereventWrite, hadd], hv', rfl,
      by simp [hcontents], fun h hne => h (hoff ▸ hne)⟩
  · by_cases hdata : data.length > 0
    · refine ⟨0, { bufev with output := output, evWrite := true },
        by simp [buffereventWrite, hadd, hdata, henabled], hv', rfl, by simpa using hcontents,
        fun _ _ => rfl⟩
    · have hnil : data = [] := List.eq_nil_of_length_eq_zero (by omega)
      have hoff : output.off = bufev.output.off := by
        rw [← hv'.length_contents, hcontents, hnil, List.append_nil, hv.length_contents]
      refine ⟨0, { bufev with output := output },
        by simp [buffereventWrite, hadd, hdata], hv', rfl, by simpa using hcontents,
        fun h hne => h (hoff ▸ hne)⟩

/-! ## Runs -/

/-- The invariant: what was sent and what is in the output are what was accepted. -/
structure OutgoingRun.Kept (s : OutgoingRun) : Prop where
  valid : s.bufev.output.Valid
  enabled : hasBit s.bufev.enabled Ev.write = true
  split : s.accepted = s.sent ++ s.bufev.output.contents

theorem outgoingNew_kept : outgoingNew.Kept := ⟨evbufferNew_valid, rfl, rfl⟩

/-- **One step** returns and keeps the bytes. A step that is no failure keeps `ev_write` registered
for what is left. -/
theorem outgoing_step (h : s.Kept) {a : OutgoingAct} (hok : OutgoingOk s a) :
    ∃ s', outgoingStep s a = some s' ∧ s'.Kept ∧
      (s.bufev.Waits → (NoFailure s a ↔ s'.bufev.Waits)) := by
  cases a with
  | write realloc data =>
    obtain ⟨res, b, hb, hv, henabled, hcontents, hwaits⟩ :=
      write_spec h.valid h.enabled realloc data
    refine ⟨{ s with bufev := b, accepted := if res = -1 then s.accepted else s.accepted ++ data },
      by simp [outgoingStep, hb], ⟨hv, henabled ▸ h.enabled, ?_⟩,
      fun hw => iff_of_true trivial (hwaits hw)⟩
    change (if res = -1 then s.accepted else s.accepted ++ data) = s.sent ++ b.output.contents
    rw [hcontents, h.split]
    split <;> simp
  | enable event =>
    refine ⟨_, rfl, ⟨h.valid, ?_, h.split⟩,
      fun hw => iff_of_true trivial fun hne => ?_⟩
    · change hasBit (s.bufev.enabled ||| event) Ev.write = true
      rw [Nat.or_comm]
      exact hasBit_or event h.enabled
    change (if hasBit event Ev.write then true else s.bufev.evWrite) = true
    rw [hw hne]
    exact ite_self true
  | active event io =>
    by_cases hreg : s.bufev.evWrite = true
    · obtain ⟨e, b, hb, hv, henabled, hcontents, hfails, hwaits⟩ := writecb_spec h.valid event hok
      refine ⟨{ s with bufev := b, sent := s.sent ++ s.bufev.taken event io },
        by simp [outgoingStep, hreg, hb], ⟨hv, henabled ▸ h.enabled, ?_⟩, fun _ => ?_⟩
      · change s.accepted = s.sent ++ s.bufev.taken event io ++ b.output.contents
        rw [h.split, hcontents, List.append_assoc]
      · by_cases hoff : s.bufev.output.off = 0
        · exact iff_of_true (fun _ hne => absurd hoff hne) (hwaits (.inl hoff))
        by_cases hfail : Fails event io
        · obtain ⟨hnot, hstay⟩ := hfails hoff hfail
          refine iff_of_false (fun hno => hno hreg hoff hfail) fun hw => ?_
          exact absurd (hw (hstay ▸ hoff)) (by simp [hnot])
        · exact iff_of_true (fun _ _ => hfail) (hwaits (.inr hfail))
    · refine ⟨s, by simp [outgoingStep, hreg], h, fun hw => iff_of_true (absurd · hreg) hw⟩

/-- **One step with progress** sends at least one byte of those that are left. -/
theorem progress_step (h : s.Kept) (hw : s.bufev.Waits) {a : OutgoingAct} (hprog : Progresses s a) :
    ∃ s', outgoingStep s a = some s' ∧ s'.Kept ∧ s'.bufev.Waits ∧ s'.accepted = s.accepted ∧
      s'.bufev.output.off ≤ s.bufev.output.off - 1 := by
  obtain ⟨event, io, rfl⟩ : ∃ event io, a = .active event io := by
    cases a with
    | write realloc data | enable event => exact hprog.elim
    | active event io => exact ⟨event, io, rfl⟩
  obtain ⟨hevent, hsome⟩ := hprog
  by_cases hoff : s.bufev.output.off = 0
  · -- nothing is left, and nothing is sent
    by_cases hreg : s.bufev.evWrite = true
    · have hstep : outgoingStep s (.active event io) = some { s with
          bufev := { s.bufev with evWrite := false } } := by
        simp [outgoingStep, hreg, buffereventWritecb, hevent, hoff, Outgoing.rearm, Outgoing.taken]
      exact ⟨_, hstep, ⟨h.valid, h.enabled, h.split⟩, fun hne => absurd hoff hne, rfl,
        hoff.trans_le (Nat.zero_le _)⟩
    · exact ⟨s, by simp [outgoingStep, hreg], h, hw, rfl, hoff.trans_le (Nat.zero_le _)⟩
  · obtain ⟨n, hn, hpos, hle, hlt⟩ := hsome hoff
    have hok : OutgoingOk s (.active event io) := by
      intro m hm
      cases hn.symm.trans hm
      exact ⟨hle, hlt⟩
    have hnot : ¬ Fails event io := by
      rw [Option.mem_def] at hn
      simp only [Fails, hn]
      simp [hevent, Nat.ne_of_gt hpos]
    obtain ⟨s', hstep, hkept, hwaits⟩ := outgoing_step h hok
    have hreg := hw hoff
    have hsent : s'.accepted = s.accepted ∧ s'.sent = s.sent ++ s.bufev.taken event io := by
      obtain ⟨e, b, hb, -⟩ := writecb_spec h.valid event hok
      simp only [outgoingStep, hreg, if_true, hb] at hstep
      cases hstep
      exact ⟨rfl, rfl⟩
    refine ⟨s', hstep, hkept, (hwaits hw).mp fun _ _ => hnot, hsent.1, ?_⟩
    -- the bytes that were taken are gone from the output
    have htaken : (s.bufev.taken event io).length = n := by
      rw [Outgoing.taken, if_neg (by simp [hevent, hoff]), Option.mem_def.mp hn, List.length_take]
      change min n s.bufev.output.contents.length = n
      rw [h.valid.length_contents]
      omega
    have hsplit := congrArg List.length (hkept.split.symm.trans (hsent.1.trans h.split))
    rw [hsent.2, List.length_append, List.length_append, List.length_append, htaken,
      h.valid.length_contents, hkept.valid.length_contents] at hsplit
    omega

/-- A run of admitted calls returns and keeps the bytes. -/
theorem outgoing_run {acts : List OutgoingAct}
    (hok : AllSteps outgoingStep OutgoingOk outgoingNew acts) :
    ∃ s, run outgoingStep outgoingNew acts = some s ∧ s.Kept := by
  refine run_of_allSteps (fun s a h hok => ?_) outgoingNew_kept hok
  obtain ⟨s', hstep, hkept, -⟩ := outgoing_step h hok
  exact ⟨s', hstep, hkept⟩

/-- A step without a failure keeps `ev_write` registered. -/
theorem noFailure_step (h : s.Kept ∧ s.bufev.Waits) {a : OutgoingAct} (hok : OutgoingOk s a)
    (hgood : NoFailure s a) (hstep : outgoingStep s a = some s') : s'.Kept ∧ s'.bufev.Waits := by
  obtain ⟨s1, hs1, hkept, hiff⟩ := outgoing_step h.1 hok
  cases hstep.symm.trans hs1
  exact ⟨hkept, (hiff h.2).mp hgood⟩

/-- Steps with progress leave fewer and fewer bytes. -/
theorem progress_run {acts : List OutgoingAct} (h : s.Kept) (hw : s.bufev.Waits)
    (hprog : AllSteps outgoingStep Progresses s acts) :
    ∃ s', run outgoingStep s acts = some s' ∧ s'.Kept ∧ s'.accepted = s.accepted ∧
      s'.bufev.output.off ≤ s.bufev.output.off - acts.length := by
  induction acts generalizing s with
  | nil => exact ⟨s, rfl, h, rfl, Nat.le_refl _⟩
  | cons a acts ih =>
    obtain ⟨s1, hs1, hkept, hw1, haccepted, hless⟩ := progress_step h hw hprog.1
    obtain ⟨s', hrun, hkept', haccepted', hless'⟩ := ih hkept hw1 (hprog.2 s1 hs1)
    refine ⟨s', by rw [run, hs1]; exact hrun, hkept', haccepted'.trans haccepted, ?_⟩
    rw [List.length_cons]
    omega

/-- **Everything is sent in the end.** After any run without a failure, as many further write events
as there are bytes left, each of which sends at least one byte while there is one, send all that was
accepted. -/
theorem all_sent (acts : List OutgoingAct)
    (hok : AllSteps outgoingStep OutgoingOk outgoingNew acts)
    (hgood : AllSteps outgoingStep NoFailure outgoingNew acts) {s : OutgoingRun}
    (hrun : run outgoingStep outgoingNew acts = some s) {events : List OutgoingAct}
    (hprog : AllSteps outgoingStep Progresses s events)
    (hmany : s.bufev.output.off ≤ events.length) :
    ∃ s', run outgoingStep s events = some s' ∧ s'.sent = s.accepted := by
  have hall : AllStates outgoingStep (fun s => s.Kept ∧ s.bufev.Waits) outgoingNew acts :=
    allStates_of_allSteps (fun s a s' h hgood hstep => noFailure_step h hgood.1 hgood.2 hstep)
      ⟨outgoingNew_kept, fun hne => absurd rfl hne⟩ (hok.and hgood)
  obtain ⟨hkept, hw⟩ := hall.last hrun
  obtain ⟨s', hrun', hkept', haccepted, hless⟩ := progress_run hkept hw hprog
  refine ⟨s', hrun', ?_⟩
  have hempty : s'.bufev.output.contents = [] := by
    refine List.eq_nil_of_length_eq_zero ?_
    rw [hkept'.valid.length_contents]
    omega
  rw [← haccepted, hkept'.split, hempty, List.append_nil]

/-- Three bytes in two pieces. -/
theorem all_sent_three :
    ∃ s', run outgoingStep
        ⟨⟨true, ⟨[1, 2, 3] ++ List.replicate 253 0, 0, 0, 256, 3⟩, Ev.write⟩, [1, 2, 3], []⟩
        [.active Ev.write ⟨some 1, false⟩, .active Ev.write ⟨some 2, false⟩,
          .active Ev.write ⟨none, true⟩] = some s' ∧ s'.sent = [1, 2, 3] :=
  all_sent [.write (some fun _ => 0) [1, 2, 3]] (by decide +kernel) (by decide +kernel)
    (by decide +kernel) (by decide +kernel) (by decide +kernel)

end Donkeyji.MyEvent
