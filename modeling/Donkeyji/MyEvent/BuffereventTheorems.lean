/-
Donkeyji.MyEvent.BuffereventTheorems — when reading is suspended and resumed.

With a high mark for reading, `ev_read` should be registered as long as the
input is below the mark. The mark is looked at in three places. The read
callback compares with the mark for writing, after it has returned early
below the low mark; a drain calls a callback that is never set; and setting
the marks registers the event but never takes it off. `KeepsPressure` says,
for each call, when the registration is right nevertheless, and
`readRight_iff` that a run is right exactly if all its calls are so.
-/
import Donkeyji.MyEvent.Bufferevent
import Donkeyji.MyEvent.EvbufferTheorems

namespace Donkeyji.MyEvent

open Memory Runs

/-- With a high mark, the event is registered exactly below it. -/
def ReadRight (bufev : Bufferevent) : Prop :=
  bufev.wmRead.high ≠ 0 → (bufev.evRead = true ↔ bufev.input.off < bufev.wmRead.high.toNat)

instance (bufev : Bufferevent) : Decidable (ReadRight bufev) := inferInstanceAs (Decidable (_ → _))

/-- How many bytes `recv` hands over. -/
def Bufferevent.received (bufev : Bufferevent) (io : RecvIo) : Nat :=
  min (io.found.getD []).length (readLength io.pending bufev.howmuch)

/-- The condition on a call. -/
def KeepsPressure (bufev : Bufferevent) : BuffereventCall → Prop
  | .setwatermark events _ highmark =>
    hasBit events Ev.read = true → highmark = 0 ∨ bufev.input.off < highmark.toNat ∨
      bufev.wmRead.high ≠ 0 ∧ bufev.wmRead.high.toNat ≤ bufev.input.off
  | .readcb _ io =>
    bufev.wmRead.high ≠ 0 → 0 < bufev.howmuch ∧
      (bufev.input.off + bufev.received io < bufev.wmRead.high.toNat ↔
        bufev.wmRead.low ≠ 0 ∧ bufev.input.off + bufev.received io < bufev.wmRead.low.toNat ∨
          bufev.input.off + bufev.received io < bufev.wmWrite.high.toNat)
  | .drain len =>
    bufev.wmRead.high ≠ 0 → bufev.wmRead.high.toNat ≤ bufev.input.off →
      bufev.wmRead.high.toNat + len ≤ bufev.input.off

instance (bufev : Bufferevent) : ∀ c, Decidable (KeepsPressure bufev c)
  | .setwatermark _ _ _ => inferInstanceAs (Decidable (_ → _))
  | .readcb _ _ => inferInstanceAs (Decidable (_ → _))
  | .drain _ => inferInstanceAs (Decidable (_ → _))

/-! ## What the functions do -/

/-- What holds of an enabled bufferevent in any case. -/
structure Enabled (bufev : Bufferevent) : Prop where
  valid : bufev.input.Valid
  cb : bufev.inputCb = false
  read : hasBit bufev.enabled Ev.read = true
  unlimited : bufev.wmRead.high = 0 → bufev.evRead = true

variable {bufev bufev' : Bufferevent}

/-- Without a callback nothing happens when the input changes. -/
theorem evbufferChanged_eq (h : bufev.inputCb = false) (oldoff : Nat) :
    evbufferChanged bufev oldoff = bufev := by
  simp [evbufferChanged, h]

/-- `bufferevent_read_pressure_cb` registers the event when there is room. -/
theorem buffereventReadPressureCb_eq (h : hasBit bufev.enabled Ev.read = true) (now : Nat) :
    buffereventReadPressureCb bufev now =
      { bufev with evRead := bufev.evRead ||
          (bufev.wmRead.high = 0 ∨ now < bufev.wmRead.high.toNat) } := by
  unfold buffereventReadPressureCb
  split
  · rename_i hroom
    simp [evbufferSetcb, h, hroom]
  · rename_i hroom
    simp [hroom]

theorem length_evbufferDrain (buf : Evbuffer) (len : Nat) :
    (evbufferDrain buf len).off = buf.off - len := by
  unfold evbufferDrain
  split
  · rename_i hle
    exact (Nat.sub_eq_zero_of_le hle).symm
  · rfl

/-- A successful `evbuffer_read` adds the bytes that `recv` hands over. -/
theorem evbufferRead_received {buf buf' : Evbuffer} {pending : Option Nat} {howmuch r : Int}
    {realloc : Option (Nat → UInt8)} {found : Option (List UInt8)} (h : buf.Valid)
    (hread : evbufferRead buf pending howmuch realloc found = some (r, buf'))
    (hm1 : r ≠ -1) (h0 : r ≠ 0) :
    buf'.Valid ∧
      buf'.off = buf.off + min (found.getD []).length (readLength pending howmuch) := by
  obtain ⟨r1, buf1, hspec, hv, -⟩ := evbufferRead_spec h pending howmuch realloc found
  obtain ⟨-, rfl⟩ := Prod.mk.inj (Option.some.inj (hspec.symm.trans hread))
  refine ⟨hv, ?_⟩
  obtain ⟨r2, b, hexp, -, -, hoff, -⟩ := evbufferExpand_spec h realloc (readLength pending howmuch)
  simp only [evbufferRead, hexp, Option.bind_eq_bind, Option.bind_some] at hread
  split at hread
  · obtain ⟨hr, -⟩ := Prod.mk.inj (Option.some.inj hread)
    exact absurd hr.symm hm1
  cases found with
  | none =>
    obtain ⟨hr, -⟩ := Prod.mk.inj (Option.some.inj hread)
    exact absurd hr.symm hm1
  | some bytes =>
    simp only at hread
    split at hread
    · obtain ⟨hr, -⟩ := Prod.mk.inj (Option.some.inj hread)
      exact absurd hr.symm h0
    obtain ⟨block, -, hread⟩ := Option.bind_eq_some_iff.mp hread
    obtain ⟨-, rfl⟩ := Prod.mk.inj (Option.some.inj hread)
    simp [hoff, min_comm]

/-- After a successful read that leaves `len` bytes the event is registered. -/
def Bufferevent.GoesOn (bufev : Bufferevent) (len : Nat) : Prop :=
  bufev.wmRead.low ≠ 0 ∧ len < bufev.wmRead.low.toNat ∨
    bufev.wmRead.high = 0 ∨ len < bufev.wmWrite.high.toNat

instance (bufev : Bufferevent) (len : Nat) : Decidable (bufev.GoesOn len) :=
  inferInstanceAs (Decidable (_ ∨ _))

/-- The end of `bufferevent_readcb` decides about the registration and is no error. -/
theorem readcbDone_eq (bufev : Bufferevent) : ∃ e, (e = .idle ∨ e = .readcb) ∧
    readcbDone bufev = (e, { bufev with evRead := bufev.GoesOn bufev.input.off }) := by
  unfold readcbDone Bufferevent.GoesOn
  by_cases hlow : bufev.wmRead.low ≠ 0 ∧ bufev.input.off < bufev.wmRead.low.toNat
  · exact ⟨.idle, Or.inl rfl, by simp [hlow]⟩
  by_cases hhigh : bufev.wmRead.high ≠ 0 ∧ bufev.wmWrite.high.toNat ≤ bufev.input.off
  · exact ⟨.readcb, Or.inr rfl, by simp [hlow, hhigh, evbufferSetcb]⟩
  · have hroom : bufev.wmRead.high = 0 ∨ bufev.input.off < bufev.wmWrite.high.toNat := by
      by_contra hno
      exact hhigh ⟨fun h => hno (Or.inl h), Nat.not_lt.mp fun h => hno (Or.inr h)⟩
    exact ⟨.readcb, Or.inr rfl, by simp [hlow, hhigh, hroom]⟩

/-- A successful `bufferevent_readcb`: there is no room in the `int`, or bytes are received. -/
theorem readcb_cases {event : Nat} {io : RecvIo} (h : Enabled bufev)
    (hstep : buffereventStep bufev (.readcb event io) = some bufev') :
    bufev.evRead = true ∧
      (bufev.wmRead.high ≠ 0 ∧ bufev.howmuch ≤ 0 ∧ bufev' = { bufev with evRead := false } ∨
        (bufev.wmRead.high ≠ 0 → 0 < bufev.howmuch) ∧ ∃ input, input.Valid ∧
          input.off = bufev.input.off + bufev.received io ∧
          bufev' = { bufev with input := input, evRead := bufev.GoesOn input.off }) := by
  simp only [buffereventStep] at hstep
  split at hstep
  case isFalse => cases hstep
  case isTrue hreg =>
  refine ⟨hreg, ?_⟩
  have hmuch : ({ bufev with evRead := false } : Bufferevent).howmuch = bufev.howmuch := rfl
  simp only [buffereventReadcb, hmuch] at hstep
  by_cases htimeout : event = Ev.timeout
  · simp [htimeout] at hstep
  by_cases hfull : bufev.wmRead.high ≠ 0 ∧ bufev.howmuch ≤ 0
  · rw [if_neg htimeout, if_pos hfull] at hstep
    exact Or.inl ⟨hfull.1, hfull.2, (Option.some.inj hstep).symm⟩
  rw [if_neg htimeout, if_neg hfull] at hstep
  refine Or.inr ⟨fun hhigh => Int.not_le.mp fun hle => hfull ⟨hhigh, hle⟩, ?_⟩
  cases hread : evbufferRead bufev.input io.pending bufev.howmuch io.realloc io.found with
  | none => simp [hread] at hstep
  | some result =>
    obtain ⟨r, input⟩ := result
    simp only [hread, Option.map_some] at hstep
    by_cases hm1 : r = -1
    · cases ha : io.again <;> simp [hm1, ha] at hstep
    by_cases h0 : r = 0
    · simp [h0] at hstep
    obtain ⟨hvalid, hoff⟩ := evbufferRead_received h.valid hread hm1 h0
    have hcb : ({ bufev with evRead := false, input := input } : Bufferevent).inputCb = false := h.cb
    obtain ⟨e, he, hdone⟩ := readcbDone_eq { bufev with evRead := false, input := input }
    rw [if_neg hm1, if_neg h0, evbufferChanged_eq hcb, hdone] at hstep
    refine ⟨input, hvalid, hoff, ?_⟩
    rcases he with rfl | rfl <;> exact (Option.some.inj hstep).symm

/-- A drain is only a drain. -/
theorem inputDrain_eq (h : bufev.inputCb = false) (len : Nat) :
    inputDrain bufev len = { bufev with input := evbufferDrain bufev.input len } := by
  simp [inputDrain, evbufferChanged, h]

/-- The marks that `bufferevent_setwatermark` leaves. -/
def Bufferevent.setMarks (bufev : Bufferevent) (events : Nat) (m : EventWatermark) : Bufferevent :=
  { bufev with
    wmRead := if hasBit events Ev.read then m else bufev.wmRead
    wmWrite := if hasBit events Ev.write then m else bufev.wmWrite }

/-- `bufferevent_setwatermark` registers the event when there is room. -/
theorem setwatermark_eq (h : hasBit bufev.enabled Ev.read = true) (events : Nat)
    (lowmark highmark : UInt64) :
    buffereventSetwatermark bufev events lowmark highmark =
      { bufev.setMarks events ⟨lowmark, highmark⟩ with
        evRead := bufev.evRead ||
          ((bufev.setMarks events ⟨lowmark, highmark⟩).wmRead.high = 0 ∨
            bufev.input.off < (bufev.setMarks events ⟨lowmark, highmark⟩).wmRead.high.toNat) } := by
  have hset : buffereventSetwatermark bufev events lowmark highmark =
      buffereventReadPressureCb (bufev.setMarks events ⟨lowmark, highmark⟩) bufev.input.off := by
    unfold buffereventSetwatermark Bufferevent.setMarks
    cases hasBit events Ev.read <;> cases hasBit events Ev.write <;> rfl
  have hread : hasBit (bufev.setMarks events ⟨lowmark, highmark⟩).enabled Ev.read = true := h
  rw [hset, buffereventReadPressureCb_eq hread]
  rfl

/-- A call keeps what holds in any case. -/
theorem Enabled.step (h : Enabled bufev) (c : BuffereventCall)
    (hstep : buffereventStep bufev c = some bufev') : Enabled bufev' := by
  cases c with
  | setwatermark events lowmark highmark =>
    cases hstep
    rw [setwatermark_eq h.read]
    refine ⟨h.valid, h.cb, h.read, fun h0 => ?_⟩
    have h0' : (bufev.setMarks events ⟨lowmark, highmark⟩).wmRead.high = 0 := h0
    simp [h0']
  | readcb event io =>
    obtain ⟨-, ⟨hhigh, -, rfl⟩ | ⟨-, input, hvalid, -, rfl⟩⟩ := readcb_cases h hstep
    · exact ⟨h.valid, h.cb, h.read, fun h0 => absurd h0 hhigh⟩
    · exact ⟨hvalid, h.cb, h.read, fun h0 => decide_eq_true (Or.inr (Or.inl h0))⟩
  | drain len =>
    cases hstep
    rw [inputDrain_eq h.cb]
    exact ⟨(evbufferDrain_spec h.valid len).1, h.cb, h.read, h.unlimited⟩

/-- If the registration is right, the event is registered exactly if there is room. -/
theorem Enabled.evRead_iff (h : Enabled bufev) (hright : ReadRight bufev) :
    bufev.evRead = true ↔
      bufev.wmRead.high = 0 ∨ bufev.input.off < bufev.wmRead.high.toNat := by
  by_cases hhigh : bufev.wmRead.high = 0
  · exact iff_of_true (h.unlimited hhigh) (Or.inl hhigh)
  · rw [hright hhigh]
    exact ⟨Or.inr, fun hor => hor.resolve_left hhigh⟩

/-- A call is right exactly under the condition. -/
theorem readRight_step (h : Enabled bufev) (hright : ReadRight bufev) (c : BuffereventCall)
    (hstep : buffereventStep bufev c = some bufev') : ReadRight bufev' ↔ KeepsPressure bufev c := by
  cases c with
  | setwatermark events lowmark highmark =>
    cases hstep
    have hnew : ∀ new : EventWatermark,
        (new.high ≠ 0 → ((bufev.evRead || (new.high = 0 ∨ bufev.input.off < new.high.toNat)) =
            true ↔ bufev.input.off < new.high.toNat)) ↔
          (new.high = 0 ∨ bufev.input.off < new.high.toNat ∨
            bufev.wmRead.high ≠ 0 ∧ bufev.wmRead.high.toNat ≤ bufev.input.off) := by
      intro new
      rw [Bool.or_eq_true, decide_eq_true_eq, h.evRead_iff hright, ← Nat.not_lt]
      tauto
    rw [setwatermark_eq h.read]
    refine (hnew (bufev.setMarks events ⟨lowmark, highmark⟩).wmRead).trans ?_
    by_cases hread : hasBit events Ev.read = true
    · simp [KeepsPressure, Bufferevent.setMarks, hread]
    · simp only [KeepsPressure, Bufferevent.setMarks, hread, ← Nat.not_lt]
      tauto
  | readcb event io =>
    obtain ⟨hreg, ⟨hhigh, hle, rfl⟩ | ⟨hpos, input, -, hoff, rfl⟩⟩ := readcb_cases h hstep
    · have hroom := (hright hhigh).mp hreg
      refine iff_of_false (fun hr => ?_) fun hk => Int.not_lt.mpr hle (hk hhigh).1
      simpa using (hr hhigh).mpr hroom
    · refine forall_congr' fun hhigh => ?_
      have hhigh' : bufev.wmRead.high ≠ 0 := hhigh
      simp only [decide_eq_true_eq, Bufferevent.GoesOn, hoff, hpos hhigh', hhigh', false_or,
        true_and]
      exact iff_comm
  | drain len =>
    cases hstep
    rw [inputDrain_eq h.cb]
    simp only [ReadRight, KeepsPressure, length_evbufferDrain]
    refine forall_congr' fun hhigh => ?_
    rw [hright hhigh]
    have hpos : 0 < bufev.wmRead.high.toNat :=
      Nat.pos_of_ne_zero fun h0 => hhigh (UInt64.toNat_inj.mp h0)
    omega

/-! ## Whole runs -/

/-- A bit stays set. -/
theorem hasBit_or (x : Nat) {y mask : Nat} (h : hasBit y mask = true) :
    hasBit (x ||| y) mask = true := by
  simp only [hasBit, bne_iff_ne, ne_eq, Nat.and_or_distrib_right, Nat.or_eq_zero_iff] at h ⊢
  exact fun hor => h hor.2

/-- A bufferevent that is given marks and then enabled. -/
def buffereventStart (marks : List (Nat × UInt64 × UInt64)) (event : Nat) : Bufferevent :=
  buffereventEnable
    (marks.foldl (fun b m => buffereventSetwatermark b m.1 m.2.1 m.2.2) buffereventNew) event

/-- Setting marks does not touch an empty input. -/
theorem foldl_setwatermark (marks : List (Nat × UInt64 × UInt64)) {b : Bufferevent}
    (hinput : b.input = evbufferNew) (hcb : b.inputCb = false) :
    (marks.foldl (fun b m => buffereventSetwatermark b m.1 m.2.1 m.2.2) b).input = evbufferNew ∧
      (marks.foldl (fun b m => buffereventSetwatermark b m.1 m.2.1 m.2.2) b).inputCb = false := by
  induction marks generalizing b with
  | nil => exact ⟨hinput, hcb⟩
  | cons m marks ih =>
    have hkeep : ∀ c : Bufferevent, ∀ now, (buffereventReadPressureCb c now).input = c.input ∧
        (buffereventReadPressureCb c now).inputCb = c.inputCb := by
      intro c now
      unfold buffereventReadPressureCb evbufferSetcb
      split
      · simp only
        split <;> exact ⟨rfl, rfl⟩
      · exact ⟨rfl, rfl⟩
    have hset : (buffereventSetwatermark b m.1 m.2.1 m.2.2).input = b.input ∧
        (buffereventSetwatermark b m.1 m.2.1 m.2.2).inputCb = b.inputCb := by
      unfold buffereventSetwatermark
      simp only [hkeep]
      cases hasBit m.1 Ev.read <;> cases hasBit m.1 Ev.write <;> exact ⟨rfl, rfl⟩
    exact ih (hset.1.trans hinput) (hset.2.trans hcb)

/-- An enabled bufferevent has room and is registered. -/
theorem buffereventStart_enabled (marks : List (Nat × UInt64 × UInt64)) {event : Nat}
    (hread : hasBit event Ev.read = true) :
    Enabled (buffereventStart marks event) ∧ ReadRight (buffereventStart marks event) := by
  obtain ⟨hinput, hcb⟩ := foldl_setwatermark marks (b := buffereventNew) rfl rfl
  have hreg : (buffereventStart marks event).evRead = true := by
    simp [buffereventStart, buffereventEnable, hread]
  have hin : (buffereventStart marks event).input = evbufferNew := hinput
  refine ⟨⟨by rw [hin]; exact evbufferNew_valid, hcb, ?_, fun _ => hreg⟩, fun hhigh => ?_⟩
  · exact hasBit_or _ hread
  · rw [hin]
    exact iff_of_true hreg (Nat.pos_of_ne_zero fun h0 => hhigh (UInt64.toNat_inj.mp h0))

/-- **Back-pressure.** After every call of a run the event is registered exactly below the high
mark, exactly if every call meets the condition. -/
theorem readRight_iff (marks : List (Nat × UInt64 × UInt64)) {event : Nat}
    (hread : hasBit event Ev.read = true) {cs : List BuffereventCall} {last : Bufferevent}
    (hrun : run buffereventStep (buffereventStart marks event) cs = some last) :
    AllStates buffereventStep ReadRight (buffereventStart marks event) cs ↔
      AllSteps buffereventStep KeepsPressure (buffereventStart marks event) cs := by
  refine allStates_iff_allSteps (fun b => Enabled b ∧ ReadRight b)
    (fun b c => ∃ b', buffereventStep b c = some b') ?_ (fun _ h => h.2) ?_
    (buffereventStart_enabled marks hread) (allSteps_of_run hrun)
  · intro b c b' h _ hkeeps hstep
    exact ⟨h.1.step c hstep, (readRight_step h.1 h.2 c hstep).mpr hkeeps⟩
  · rintro b c h ⟨b', hstep⟩ hnot
    exact ⟨b', hstep, fun hr => hnot ((readRight_step h.1 h.2 c hstep).mp hr)⟩

/-- A call of `bufferevent_readcb` that finds the given bytes. -/
def readcbFinds (bytes : List UInt8) : BuffereventCall :=
  .readcb Ev.read ⟨some bytes.length, some fun _ => 0, some bytes, false⟩

/-- With one high mark for reading and writing, reading is suspended at the mark; it goes on when
the mark is raised. -/
theorem readRight_fill : AllStates buffereventStep ReadRight
    (buffereventStart [(Ev.read ||| Ev.write, 0, 4)] (Ev.read ||| Ev.write))
    [readcbFinds [1, 2], readcbFinds [3, 4, 5], .setwatermark Ev.read 0 8, .drain 1] := by
  have hrun : (run buffereventStep
      (buffereventStart [(Ev.read ||| Ev.write, 0, 4)] (Ev.read ||| Ev.write))
      [readcbFinds [1, 2], readcbFinds [3, 4, 5], .setwatermark Ev.read 0 8, .drain 1]).isSome =
      true := by decide +kernel
  obtain ⟨last, hlast⟩ := Option.isSome_iff_exists.mp hrun
  exact (readRight_iff _ (by decide) hlast).mpr (by decide +kernel)

/-- After a drain reading is not resumed, and without a mark for writing it is suspended long
before the high mark. -/
theorem not_readRight :
    ¬ AllStates buffereventStep ReadRight (buffereventStart [(Ev.read, 0, 4)] Ev.read)
        [readcbFinds [1, 2, 3, 4], .drain 4] ∧
      ¬ AllStates buffereventStep ReadRight (buffereventStart [(Ev.read, 0, 4)] Ev.read)
        [readcbFinds [1]] := by
  have hlast : ∀ {cs : List BuffereventCall},
      (run buffereventStep (buffereventStart [(Ev.read, 0, 4)] Ev.read) cs).map
        (fun b => decide (ReadRight b)) = some false →
      ¬ AllStates buffereventStep ReadRight (buffereventStart [(Ev.read, 0, 4)] Ev.read) cs := by
    intro cs hdecide hall
    obtain ⟨last, hrun, hfalse⟩ := Option.map_eq_some_iff.mp hdecide
    exact of_decide_eq_false hfalse (hall.last hrun)
  exact ⟨hlast (by decide +kernel), hlast (by decide +kernel)⟩

end Donkeyji.MyEvent
