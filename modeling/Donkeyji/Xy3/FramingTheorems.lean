/-
Donkeyji.Xy3.FramingTheorems — which payload lists survive the framing of
`cs/my_xy3` under fragmentation.

`getPack` decides whether a pack is complete from the low byte of its
two-byte length alone. So a payload of up to 127 bytes is recognised at its
last byte; one whose length has a low byte of 128 to 253 is never
recognised; any other is recognised too soon, as soon as `packSeenAt` bytes
of it are there. When that happens before the rest has arrived, `doRecv`
hands out bytes that were not received, `cutData` refuses to cut them, and
the caller's loop never sees `NULL`.

The proof follows the receiver chunk by chunk. `doRecv_spec` is one call,
`drain_cases` one loop (it returns the complete packs, or never ends), and
`recvRun_iff` the run, by induction on the chunks with the undelivered
payloads and the queued bytes as state. `framing_lossless_iff` adds the
sending side.
-/
import Donkeyji.Xy3.DataBufTheorems

namespace Donkeyji.Xy3.DataBuf

open Memory

/-! ## Frames -/

/-- A payload as `appendPack` queues it. -/
def frame (p : List UInt8) : List UInt8 := leBytes 2 p.length ++ p

/-- The frames of a list of payloads, one after another. -/
def frames (ps : List (List UInt8)) : List UInt8 := ps.flatMap frame

@[simp] theorem frames_nil : frames [] = [] := rfl

@[simp] theorem frames_cons (p : List UInt8) (ps : List (List UInt8)) :
    frames (p :: ps) = frame p ++ frames ps := rfl

@[simp] theorem frames_append (ps qs : List (List UInt8)) :
    frames (ps ++ qs) = frames ps ++ frames qs := by
  simp [frames]

@[simp] theorem length_frame (p : List UInt8) : (frame p).length = 2 + p.length := by
  simp [frame]

/-- How many bytes of a frame make `getPack` take its pack as complete, for a
payload of `n` bytes: the test reads the low byte of `n` as a signed `char`. -/
def packSeenAt (n : Nat) : Option Nat :=
  if n % 256 < 128 then some (n % 256 + 2) else if 254 ≤ n % 256 then some 2 else none

theorem two_le_packSeenAt {n t : Nat} (h : packSeenAt n = some t) : 2 ≤ t := by
  unfold packSeenAt at h
  split at h
  · simp only [Option.some.injEq] at h; omega
  · split at h
    · simp only [Option.some.injEq] at h; omega
    · cases h

theorem packSeenAt_le {n t : Nat} (h : packSeenAt n = some t) : t ≤ 2 + n := by
  unfold packSeenAt at h
  split at h
  · simp only [Option.some.injEq] at h; omega
  · split at h
    · simp only [Option.some.injEq] at h; omega
    · cases h

/-- The completeness test of `getPack` on a frame's first byte. -/
theorem seen_iff {n v : Nat} (hv : v < 2147483648) (h2 : 2 ≤ v) :
    toU64 v < toU64 (schar (UInt8.ofNat n) + 2) ↔ ∀ t ∈ packSeenAt n, v < t := by
  have hbyte : (UInt8.ofNat n).toNat = n % 256 := by simp
  have hlow : n % 256 < 256 := Nat.mod_lt _ (by omega)
  have hv64 : toU64 (v : Int) = v := toU64_of_bounds (by omega) (by omega)
  rw [hv64]
  unfold packSeenAt schar toU64
  rw [hbyte]
  split
  · simp only [Option.mem_def, Option.some.injEq, forall_eq']; omega
  · split
    · simp only [Option.mem_def, Option.some.injEq, forall_eq']; omega
    · simp only [Option.mem_def, reduceCtorEq, false_implies, implies_true, iff_true]; omega

/-! ## One call of doRecv -/

/-- `doRecv` returns `NULL` on fewer than two bytes. -/
theorem doRecv_short {b : DataBuf} (hv : b.Valid) (h : b.content.length < 2) :
    b.doRecv = some (none, b) :=
  doRecv_unseen hv fun hseen => absurd hseen.1 (by omega)

/-- A buffer that starts with a frame: the header bytes are the payload's
length, which a `short` can hold. -/
theorem header_of_frames {b : DataBuf} {q : List UInt8} {qs : List (List UInt8)}
    {rest : List UInt8} (hw : frames (q :: qs) = b.content ++ rest)
    (h2 : 2 ≤ b.content.length) : b.content.take 2 = leBytes 2 q.length := by
  have h : (frames (q :: qs)).take 2 = (b.content ++ rest).take 2 := by rw [hw]
  rw [List.take_append_of_le_length h2] at h
  rw [← h, frames_cons, frame, List.append_assoc, List.take_left' (length_leBytes 2 _)]

theorem leBytes_two (n : Nat) : leBytes 2 n = [UInt8.ofNat n, UInt8.ofNat (n / 256)] := rfl

/-- The size that at least two bytes of the frame of `q` give. -/
theorem packSize_frame {b : DataBuf} {q : List UInt8} {qs : List (List UInt8)}
    {rest : List UInt8} (hw : frames (q :: qs) = b.content ++ rest) (hq : q.length ≤ 32765)
    (h2 : 2 ≤ b.content.length) : packSize b.content = q.length := by
  rw [packSize, header_of_frames hw h2, leNat_leBytes_of_lt (by omega)]
  exact wrap16_of_bounds (by omega) (by omega)

/-- The pack of a frame is taken as complete from `packSeenAt` bytes on. -/
theorem packSeen_frame {b : DataBuf} (hv : b.Valid) {q : List UInt8} {qs : List (List UInt8)}
    {rest : List UInt8} (hw : frames (q :: qs) = b.content ++ rest)
    (h2 : 2 ≤ b.content.length) :
    PackSeen b.content ↔ ¬ ∀ t ∈ packSeenAt q.length, b.content.length < t := by
  have hbig : b.content.length < 2147483648 := by
    have hlen := length_content hv
    obtain ⟨h1, h2, h3, h4, h5, h6⟩ := hv
    omega
  have hfirst : b.content.headD 0 = UInt8.ofNat q.length := by
    have hhead := header_of_frames hw h2
    cases hc : b.content with
    | nil =>
      rw [hc] at h2
      cases h2
    | cons x xs =>
      rw [hc, leBytes_two] at hhead
      exact (List.cons.inj hhead).1
  rw [← seen_iff hbig h2, PackSeen, hfirst, not_lt]
  exact and_iff_right h2

/-- Behind its header a complete frame holds the payload. -/
theorem body_of_frames {b : DataBuf} {q : List UInt8} {qs : List (List UInt8)}
    {rest : List UInt8} (hw : frames (q :: qs) = b.content ++ rest)
    (hfull : 2 + q.length ≤ b.content.length) : b.content = frame q ++ b.content.drop (2 + q.length) := by
  have h : (frames (q :: qs)).take (2 + q.length) = (b.content ++ rest).take (2 + q.length) := by
    rw [hw]
  rw [List.take_append_of_le_length hfull, frames_cons, List.take_left' (length_frame q)] at h
  rw [h, List.take_append_drop]

/-- One `doRecv` call on a buffer whose first frame is that of `q`: `NULL` until
`packSeenAt` bytes are there, then the pack if it is complete; if it is not, a
call that returns leaves the buffer as it was. -/
theorem doRecv_spec {b : DataBuf} (hv : b.Valid) {q : List UInt8} {qs : List (List UInt8)}
    {rest : List UInt8} (hw : frames (q :: qs) = b.content ++ rest) (hq : q.length ≤ 32765) :
    ((∀ t ∈ packSeenAt q.length, b.content.length < t) ∧ b.doRecv = some (none, b)) ∨
    (∃ t ∈ packSeenAt q.length, t ≤ b.content.length ∧ b.content.length < 2 + q.length ∧
      (b.doRecv = none ∨ ∃ p, b.doRecv = some (some p, b))) ∨
    (∃ t ∈ packSeenAt q.length, ∃ b', b.doRecv = some (some q, b') ∧ b'.Valid ∧
      b.content = frame q ++ b'.content ∧ b'.len = b.len) := by
  rcases Nat.lt_or_ge b.content.length 2 with h2 | h2
  · refine Or.inl ⟨fun t ht => ?_, doRecv_short hv h2⟩
    have := two_le_packSeenAt (Option.mem_def.mp ht)
    omega
  have hsize := packSize_frame hw hq h2
  have hseen := packSeen_frame hv hw h2
  by_cases hnot : ∀ t ∈ packSeenAt q.length, b.content.length < t
  · exact Or.inl ⟨hnot, doRecv_unseen hv fun h => hseen.mp h hnot⟩
  · replace hseen := hseen.mpr hnot
    push Not at hnot
    obtain ⟨t, ht, hle⟩ := hnot
    rcases Nat.lt_or_ge b.content.length (2 + q.length) with hearly | hfull
    · refine Or.inr (Or.inl ⟨t, ht, hle, hearly, ?_⟩)
      have hcall : b.doRecv = (readAt b.data (b.head + 2) q.length).bind
          (fun pack => some (some pack, (b.cutData (wrap32 (q.length + 2))).2)) := by
        simp only [doRecv, getPack_content hv, if_pos hseen, hsize, Option.bind_eq_bind,
          Option.bind_some, Option.pure_def]
      rw [wrap32_of_bounds (by omega) (by omega),
        cutData_over hv (by omega : (b.content.length : Int) < q.length + 2)] at hcall
      cases hr : readAt b.data (b.head + 2) q.length with
      | none => exact Or.inl (by rw [hcall, hr, Option.bind_none])
      | some p => exact Or.inr ⟨p, by rw [hcall, hr, Option.bind_some]⟩
    · obtain ⟨b', hcall, hv', hc', hl'⟩ := doRecv_pack hv hseen hsize (by omega)
      have hframe := body_of_frames hw hfull
      have hslice : slice b.content 2 q.length = q := by
        rw [hframe, slice, frame, List.append_assoc, List.drop_left' (length_leBytes 2 _),
          List.take_left' rfl]
      rw [hslice] at hcall
      refine Or.inr (Or.inr ⟨t, ht, b', hcall, hv', ?_, hl'⟩)
      rw [hc', Nat.add_comm]
      exact hframe

/-! ## One drain loop -/

/-- More calls than the loop makes change nothing. -/
theorem drain_mono {fuel : Nat} {b : DataBuf} {r : List (List UInt8) × DataBuf}
    (h : b.drain fuel = some r) (k : Nat) : b.drain (fuel + k) = some r := by
  induction fuel generalizing b r with
  | zero => simp [drain] at h
  | succ fuel ih =>
    rw [Nat.succ_add]
    simp only [drain, Option.bind_eq_bind] at h ⊢
    cases hc : b.doRecv with
    | none => rw [hc] at h; cases h
    | some out =>
      obtain ⟨p, b1⟩ := out
      rw [hc] at h
      cases p with
      | none => exact h
      | some p =>
        simp only [Option.bind_some, Option.bind_eq_some_iff] at h ⊢
        obtain ⟨r1, hr1, hr⟩ := h
        exact ⟨r1, ih hr1, hr⟩

/-- A call that leaves the buffer as it was is made again for ever. -/
theorem drain_stuck {b : DataBuf} (h : b.doRecv = none ∨ ∃ p, b.doRecv = some (some p, b))
    (fuel : Nat) : b.drain fuel = none := by
  induction fuel with
  | zero => rfl
  | succ fuel ih =>
    rcases h with h | ⟨p, h⟩ <;> simp [drain, h, ih]

/-- The queue holds no pack that `getPack` would take as complete. -/
def Waiting (qs : List (List UInt8)) (n : Nat) : Prop :=
  ∀ q ∈ qs.head?, ∀ t ∈ packSeenAt q.length, n < t

/-- The loop returns exactly the complete packs and stops at one it does not
see; or it meets an incomplete one that it takes as complete, and never ends. -/
theorem drain_cases {qs : List (List UInt8)} (hqs : ∀ q ∈ qs, q.length ≤ 32765) {b : DataBuf}
    (hv : b.Valid) {rest : List UInt8} (hw : frames qs = b.content ++ rest) :
    (∃ got rem b' fuel, qs = got ++ rem ∧ b.drain fuel = some (got, b') ∧ b'.Valid ∧
      b'.len = b.len ∧ b.content = frames got ++ b'.content ∧
      Waiting rem b'.content.length ∧ ∀ q ∈ got, (packSeenAt q.length).isSome) ∨
    (∃ got q rem t, qs = got ++ q :: rem ∧ packSeenAt q.length = some t ∧
      (frames got).length + t ≤ b.content.length ∧
      b.content.length < (frames got).length + 2 + q.length ∧ ∀ fuel, b.drain fuel = none) := by
  induction qs generalizing b with
  | nil =>
    have hnil : b.content = [] := by
      have hlen := congrArg List.length hw
      simp only [frames_nil, List.length_nil, List.length_append] at hlen
      exact List.eq_nil_of_length_eq_zero (by omega)
    refine Or.inl ⟨[], [], b, 1, rfl, ?_, hv, rfl, by simp, by simp [Waiting], by simp⟩
    simp [drain, doRecv_short hv (by simp [hnil])]
  | cons q qs ih =>
    rcases doRecv_spec hv hw (hqs q (by simp)) with
      ⟨hnot, hcall⟩ | ⟨t, ht, hle, hlt, hcall⟩ | ⟨t, ht, b1, hcall, hv1, hsplit, hl1⟩
    · refine Or.inl ⟨[], q :: qs, b, 1, rfl, ?_, hv, rfl, by simp, ?_, by simp⟩
      · simp [drain, hcall]
      · simpa [Waiting] using hnot
    · exact Or.inr ⟨[], q, qs, t, rfl, ht, by simpa using hle, by simpa using hlt,
        drain_stuck hcall⟩
    · have hw1 : frames qs = b1.content ++ rest := by
        rw [hsplit, frames_cons, List.append_assoc] at hw
        exact List.append_cancel_left hw
      have hlen : b.content.length = 2 + q.length + b1.content.length := by
        rw [hsplit, List.length_append, length_frame]
      rcases ih (fun q' hq' => hqs q' (by simp [hq'])) hv1 hw1 with
        ⟨got, rem, b', fuel, hqs', hd, hv', hl', hc', hwait, hsome⟩ |
        ⟨got, q', rem, t', hqs', ht', h1, h2, hd⟩
      · refine Or.inl ⟨q :: got, rem, b', fuel + 1, by simp [hqs'], ?_, hv', by rw [hl', hl1], ?_,
          hwait, ?_⟩
        · simp [drain, hcall, hd]
        · rw [hsplit, hc', frames_cons, List.append_assoc]
        · intro x hx
          rcases List.mem_cons.mp hx with rfl | hx
          · rw [Option.mem_def.mp ht]; rfl
          · exact hsome x hx
      · refine Or.inr ⟨q :: got, q', rem, t', by simp [hqs'], ht', ?_, ?_, ?_⟩
        · simp only [frames_cons, List.length_append, length_frame]; omega
        · simp only [frames_cons, List.length_append, length_frame]; omega
        · intro fuel
          cases fuel with
          | zero => rfl
          | succ fuel => simp [drain, hcall, hd fuel]

/-! ## Whole runs -/

/-- The run of the receiver on `chunks` ends, returns exactly the payloads `ps`
in order, and after no chunk has returned a pack not all of whose bytes arrived. -/
def Lossless (junk : Nat → UInt8) (ps chunks : List (List UInt8)) : Prop :=
  ∃ b0 fuel out b, new junk 1024 = some b0 ∧ recvRun junk fuel b0 chunks = some (out, b) ∧
    out.flatten = ps ∧
    ∀ k, (frames (out.take k).flatten).length ≤ (chunks.take k).flatten.length

/-- The same of a receiver that already holds `n` bytes. -/
def LosslessFrom (junk : Nat → UInt8) (b0 : DataBuf) (ps chunks : List (List UInt8)) : Prop :=
  ∃ fuel out b, recvRun junk fuel b0 chunks = some (out, b) ∧ out.flatten = ps ∧
    ∀ k, (frames (out.take k).flatten).length ≤
      b0.content.length + (chunks.take k).flatten.length

/-- No payload has a length that `getPack` never recognises, and no chunk ends
inside a payload at a point where `getPack` already takes it as complete. `n`
bytes had arrived before the first chunk. -/
def NeverEarlyFrom (n : Nat) (ps chunks : List (List UInt8)) : Prop :=
  ∀ got q rem, ps = got ++ q :: rem → ∃ t, packSeenAt q.length = some t ∧
    ∀ k, 1 ≤ k → k ≤ chunks.length →
      n + (chunks.take k).flatten.length < (frames got).length + t ∨
      (frames got).length + 2 + q.length ≤ n + (chunks.take k).flatten.length

/-- The same from the start of the stream. -/
def NeverEarly (ps chunks : List (List UInt8)) : Prop := NeverEarlyFrom 0 ps chunks

/-- A loop that returned the packs `got` leaves the condition on what remains. -/
theorem neverEarlyFrom_cons {n m : Nat} {got rem : List (List UInt8)} {c : List UInt8}
    {cs : List (List UInt8)} (hn : n + c.length = (frames got).length + m)
    (hwait : Waiting rem m) (hsome : ∀ q ∈ got, (packSeenAt q.length).isSome) :
    NeverEarlyFrom n (got ++ rem) (c :: cs) ↔ NeverEarlyFrom m rem cs := by
  constructor
  · intro h got' q rem' hsplit
    obtain ⟨t, ht, hk⟩ := h (got ++ got') q rem' (by rw [hsplit, List.append_assoc])
    refine ⟨t, ht, fun k h1 hkl => ?_⟩
    have := hk (k + 1) (by omega) (by simpa using hkl)
    simp only [frames_append, List.length_append, List.take_succ_cons, List.flatten_cons] at this
    omega
  · intro h got' q rem' hsplit
    rcases List.append_eq_append_iff.mp hsplit with ⟨mid, hgot', hrem⟩ | ⟨mid, hgot, hmid⟩
    · -- the payload is one of those that remain
      obtain ⟨t, ht, hk⟩ := h mid q rem' hrem
      refine ⟨t, ht, fun k h1 hkl => ?_⟩
      obtain ⟨k, rfl⟩ : ∃ k', k = k' + 1 := ⟨k - 1, by omega⟩
      simp only [hgot', frames_append, List.length_append, List.take_succ_cons,
        List.flatten_cons]
      rcases Nat.eq_zero_or_pos k with rfl | hpos
      · -- at the first cut the queue is waiting for the first payload that remains
        left
        cases mid with
        | nil =>
          have hm := hwait q (by simp [hrem]) t ht
          simp only [List.take_zero, List.flatten_nil, List.length_nil, frames_nil]
          omega
        | cons q0 mid =>
          obtain ⟨t0, ht0, -⟩ := h [] q0 (mid ++ q :: rem') (by simp [hrem])
          have hm := hwait q0 (by simp [hrem]) t0 ht0
          have hle := packSeenAt_le ht0
          simp only [List.take_zero, List.flatten_nil, List.length_nil, frames_cons,
            List.length_append, length_frame]
          omega
      · have := hk k (by omega) (by simpa using hkl)
        omega
    · -- the payload was returned: it lies before every cut
      cases mid with
      | nil =>
        simp only [List.append_nil] at hgot
        simp only [List.nil_append] at hmid
        subst hgot
        obtain ⟨t, ht, hk⟩ := h [] q rem' (by simp [hmid])
        refine ⟨t, ht, fun k h1 hkl => ?_⟩
        obtain ⟨k, rfl⟩ : ∃ k', k = k' + 1 := ⟨k - 1, by omega⟩
        simp only [List.take_succ_cons, List.flatten_cons, List.length_append]
        rcases Nat.eq_zero_or_pos k with rfl | hpos
        · have hm := hwait q (by simp [← hmid]) t ht
          simp only [List.take_zero, List.flatten_nil, List.length_nil]
          omega
        · have := hk k (by omega) (by simpa using hkl)
          simp only [frames_nil, List.length_nil] at this
          omega
      | cons q0 mid =>
        simp only [List.cons_append, List.cons.injEq] at hmid
        obtain ⟨rfl, -⟩ := hmid
        obtain ⟨t, ht⟩ := Option.isSome_iff_exists.mp (hsome q (by simp [hgot]))
        refine ⟨t, ht, fun k h1 hkl => Or.inr ?_⟩
        obtain ⟨k, rfl⟩ : ∃ k', k = k' + 1 := ⟨k - 1, by omega⟩
        simp only [hgot, frames_append, frames_cons, List.length_append, length_frame] at hn
        simp only [List.take_succ_cons, List.flatten_cons, List.length_append]
        omega

/-- Two counts of calls that both let the loop end give the same result. -/
theorem drain_unique {m n : Nat} {b : DataBuf} {r s : List (List UInt8) × DataBuf}
    (hr : b.drain m = some r) (hs : b.drain n = some s) : r = s := by
  have h1 := drain_mono hr n
  have h2 := drain_mono hs m
  rw [Nat.add_comm, h2] at h1
  exact (Option.some.inj h1).symm

/-- More calls per loop than a run needs change nothing. -/
theorem recvRun_mono {junk : Nat → UInt8} {fuel : Nat} {chunks : List (List UInt8)}
    {b : DataBuf} {r : List (List (List UInt8)) × DataBuf}
    (h : recvRun junk fuel b chunks = some r) (k : Nat) :
    recvRun junk (fuel + k) b chunks = some r := by
  induction chunks generalizing b r with
  | nil => exact h
  | cons c cs ih =>
    simp only [recvRun, Option.bind_eq_bind, Option.bind_eq_some_iff, Prod.exists] at h ⊢
    obtain ⟨x, b1, happ, ps, b2, hd, rest, b3, hrun, hr⟩ := h
    exact ⟨x, b1, happ, ps, b2, drain_mono hd k, rest, b3, ih hrun, hr⟩

/-- A run that delivers everything never met a payload too early. -/
theorem neverEarlyFrom_of_lossless {junk : Nat → UInt8} {chunks : List (List UInt8)}
    {qs : List (List UInt8)} {b : DataBuf} (hv : b.Valid) (hqs : ∀ q ∈ qs, q.length ≤ 32765)
    (hw : frames qs = b.content ++ chunks.flatten) (h : LosslessFrom junk b qs chunks) :
    NeverEarlyFrom b.content.length qs chunks := by
  induction chunks generalizing b qs with
  | nil =>
    obtain ⟨fuel, out, b', hrun, hout, -⟩ := h
    simp only [recvRun, Option.some.injEq, Prod.mk.injEq] at hrun
    obtain ⟨rfl, -⟩ := hrun
    intro got q rem hsplit
    simp [← hout] at hsplit
  | cons c cs ih =>
    obtain ⟨fuel, out, b', hrun, hout, harr⟩ := h
    simp only [recvRun, Option.bind_eq_bind, Option.bind_eq_some_iff, Option.pure_def,
      Option.some.injEq, Prod.mk.injEq, Prod.exists] at hrun
    obtain ⟨_, b1, happ, ps, b2, hd, rest, b3, hrest, rfl, -⟩ := hrun
    obtain ⟨hv1, hc1⟩ := appendRawData_content hv happ
    have hw1 : frames qs = b1.content ++ cs.flatten := by
      rw [hw, hc1, List.flatten_cons, List.append_assoc]
    rcases drain_cases hqs hv1 hw1 with
      ⟨got, rem, b2', fuel', rfl, hd', hv2, -, hc2, hwait, hsome⟩ |
      ⟨got, q, rem, t, -, -, -, -, hnone⟩
    · obtain ⟨rfl, rfl⟩ := Prod.mk.inj (drain_unique hd hd')
      have hlen : b.content.length + c.length = (frames ps).length + b2.content.length := by
        rw [← List.length_append, ← hc1, hc2, List.length_append]
      have hrem : rest.flatten = rem := by
        rw [List.flatten_cons] at hout
        exact List.append_cancel_left hout
      have hw2 : frames rem = b2.content ++ cs.flatten := by
        rw [hc2, frames_append, List.append_assoc] at hw1
        exact List.append_cancel_left hw1
      refine (neverEarlyFrom_cons hlen hwait hsome).mpr
        (ih hv2 (fun q hq => hqs q (by simp [hq])) hw2 ⟨fuel, rest, b3, hrest, hrem, fun k => ?_⟩)
      have hk := harr (k + 1)
      simp only [List.take_succ_cons, List.flatten_cons, frames_append, List.length_append] at hk
      omega
    · rw [hnone fuel] at hd
      cases hd

/-- A stream that meets no payload too early is delivered whole. -/
theorem lossless_of_neverEarlyFrom (junk : Nat → UInt8) {chunks : List (List UInt8)}
    (hchunks : ∀ c ∈ chunks, c.length ≤ 2 ^ 29) {qs : List (List UInt8)} {b : DataBuf}
    (hv : b.Valid) (hp : b.Pow2Len) (hqs : ∀ q ∈ qs, q.length ≤ 32765)
    (hwait : Waiting qs b.content.length) (hw : frames qs = b.content ++ chunks.flatten)
    (h : NeverEarlyFrom b.content.length qs chunks) : LosslessFrom junk b qs chunks := by
  -- what is queued is less than one frame
  have hshort : ∀ q rem, qs = q :: rem → b.content.length < 2 + q.length := by
    intro q rem hsplit
    obtain ⟨t, ht, -⟩ := h [] q rem hsplit
    have hlt := hwait q (by simp [hsplit]) t ht
    have hle := packSeenAt_le ht
    omega
  induction chunks generalizing b qs with
  | nil =>
    have hnil : qs = [] := by
      cases qs with
      | nil => rfl
      | cons q rem =>
        have hlt := hshort q rem rfl
        have hlen := congrArg List.length hw
        simp only [frames_cons, List.length_append, length_frame, List.flatten_nil,
          List.length_nil] at hlen
        omega
    exact ⟨0, [], b, rfl, by simp [hnil], by simp⟩
  | cons c cs ih =>
    have hsmall : b.content.length ≤ 32768 := by
      cases qs with
      | nil =>
        have hlen := congrArg List.length hw
        simp only [frames_nil, List.length_nil, List.length_append] at hlen
        omega
      | cons q rem =>
        have hlt := hshort q rem rfl
        have hq := hqs q (by simp)
        omega
    obtain ⟨b1, happ, hp1⟩ := appendRawData_ok junk hv hp hsmall
      (hchunks c (by simp))
    obtain ⟨hv1, hc1⟩ := appendRawData_content hv happ
    have hw1 : frames qs = b1.content ++ cs.flatten := by
      rw [hw, hc1, List.flatten_cons, List.append_assoc]
    rcases drain_cases hqs hv1 hw1 with
      ⟨got, rem, b2, fuel, rfl, hd, hv2, hl2, hc2, hwait2, hsome⟩ |
      ⟨got, q, rem, t, hsplit, ht, h1, h2, -⟩
    · have hlen : b.content.length + c.length = (frames got).length + b2.content.length := by
        rw [← List.length_append, ← hc1, hc2, List.length_append]
      have hw2 : frames rem = b2.content ++ cs.flatten := by
        rw [hc2, frames_append, List.append_assoc] at hw1
        exact List.append_cancel_left hw1
      have hcond := (neverEarlyFrom_cons hlen hwait2 hsome).mp h
      have hshort2 : ∀ q rem', rem = q :: rem' → b2.content.length < 2 + q.length := by
        intro q rem' hsplit
        obtain ⟨t, ht, -⟩ := hcond [] q rem' hsplit
        have hlt := hwait2 q (by simp [hsplit]) t ht
        have hle := packSeenAt_le ht
        omega
      obtain ⟨fuel', out, b', hrun, hout, harr⟩ :=
        ih (fun c' hc' => hchunks c' (by simp [hc'])) hv2 (by rw [Pow2Len, hl2]; exact hp1)
          (fun q hq => hqs q (by simp [hq])) hwait2 hw2 hcond hshort2
      refine ⟨fuel + fuel', got :: out, b', ?_, by simp [hout], fun k => ?_⟩
      · have hrun' := recvRun_mono hrun fuel
        rw [Nat.add_comm] at hrun'
        simp [recvRun, happ, drain_mono hd fuel', hrun']
      · cases k with
        | zero => simp
        | succ k =>
          have hk := harr k
          simp only [List.take_succ_cons, List.flatten_cons, frames_append, List.length_append]
          omega
    · -- the first chunk ends inside a payload that is already taken as complete
      obtain ⟨t', ht', hk⟩ := h got q rem hsplit
      obtain rfl : t' = t := Option.some.inj (ht'.symm.trans ht)
      have hk1 := hk 1 (by omega) (by simp)
      simp only [List.take_succ_cons, List.take_zero, List.flatten_cons, List.flatten_nil,
        List.append_nil] at hk1
      rw [hc1, List.length_append] at h1 h2
      omega

/-- The receiver delivers a stream of frames exactly when it meets none too early. -/
theorem lossless_iff {junk : Nat → UInt8} {ps chunks : List (List UInt8)}
    (hps : ∀ p ∈ ps, p.length ≤ 32765) (hchunks : ∀ c ∈ chunks, c.length ≤ 2 ^ 29)
    (hw : frames ps = chunks.flatten) : Lossless junk ps chunks ↔ NeverEarly ps chunks := by
  obtain ⟨b0, hb0⟩ : ∃ b0, new junk 1024 = some b0 := ⟨_, rfl⟩
  obtain ⟨hv, hc, hl⟩ := new_spec (by omega) hb0
  have hp : b0.Pow2Len := ⟨10, by omega, by rw [hl]; norm_num⟩
  have hwait : Waiting ps b0.content.length := by
    intro q _ t ht
    have := two_le_packSeenAt (Option.mem_def.mp ht)
    rw [hc, List.length_nil]
    omega
  have hw0 : frames ps = b0.content ++ chunks.flatten := by rw [hc, hw, List.nil_append]
  have hzero : b0.content.length = 0 := by rw [hc, List.length_nil]
  constructor
  · rintro ⟨b0', fuel, out, b, hb0', hrun, hout, harr⟩
    obtain rfl : b0 = b0' := Option.some.inj (hb0.symm.trans hb0')
    have h := neverEarlyFrom_of_lossless hv hps hw0
      ⟨fuel, out, b, hrun, hout, fun k => by rw [hzero, Nat.zero_add]; exact harr k⟩
    rwa [hzero] at h
  · intro h
    obtain ⟨fuel, out, b, hrun, hout, harr⟩ :=
      lossless_of_neverEarlyFrom junk hchunks hv hp hps hwait hw0 (by rwa [hzero])
    exact ⟨b0, fuel, out, b, hb0, hrun, hout, fun k => by
      have := harr k
      rwa [hzero, Nat.zero_add] at this⟩

/-! ## Both sides -/

/-- What a sending run put on the wire, with what is still queued, is what was
queued before and the frames of the accepted payloads. -/
theorem writeRun_content {ops : List WriteOp} {b b' : DataBuf} {ps : List (List UInt8)}
    {wire : List UInt8} (hv : b.Valid) (h : b.writeRun ops = some (ps, wire, b')) :
    b.content ++ frames ps = wire ++ b'.content := by
  induction ops generalizing b ps wire with
  | nil =>
    simp only [writeRun, Option.some.injEq, Prod.mk.injEq] at h
    obtain ⟨rfl, rfl, rfl⟩ := h
    simp
  | cons op ops ih =>
    cases op with
    | append p =>
      simp only [writeRun, Option.bind_eq_bind, Option.bind_eq_some_iff, Option.pure_def,
        Option.some.injEq, Prod.mk.injEq, Prod.exists] at h
      obtain ⟨r, b1, happ, ps1, wire1, b2, hrest, hps, rfl, rfl⟩ := h
      obtain ⟨hv1, ⟨rfl, hc1⟩ | ⟨hr, hc1⟩⟩ := appendPack_content hv happ
      · have hih := ih hv1 hrest
        rw [if_pos rfl] at hps
        rw [← hih, hc1, ← hps, frames_cons, frame]
        simp only [List.append_assoc]
      · have hih := ih hv1 hrest
        rw [if_neg hr] at hps
        rw [← hih, hc1, ← hps]
    | sent n =>
      simp only [writeRun, Option.bind_eq_bind, Option.bind_eq_some_iff, Option.pure_def,
        Option.some.injEq, Prod.mk.injEq, Prod.exists] at h
      obtain ⟨bytes, hbytes, ps1, wire1, b2, hrest, rfl, rfl, rfl⟩ := h
      rw [getDataSize, wrap32_size hv] at hbytes
      split at hbytes
      · rename_i hn
        have hn' : n ≤ b.content.length := by omega
        have hread := readAt_live hv (a := 0) (n := n) (by omega)
        simp only [Nat.cast_zero, Int.add_zero, slice, List.drop_zero] at hread
        obtain rfl : b.content.take n = bytes := Option.some.inj (hread.symm.trans hbytes)
        obtain ⟨b1, hcut, hv1, hc1, -⟩ := cutData_spec hv hn'
        rw [hcut] at hrest
        have hih := ih hv1 hrest
        rw [List.append_assoc, ← hih, hc1, ← List.append_assoc, List.take_append_drop]
      · cases hbytes

/-- Payloads of 1 to 32765 bytes that `appendPack` accepted, in any sending run
and over any cutting of the bytes into chunks, arrive losslessly exactly when no
payload's length has a low byte of 128 to 253 and no chunk ends inside a payload
of more than 127 bytes once `packSeenAt` bytes of its frame are there. -/
theorem framing_lossless_iff (junk : Nat → UInt8) (len : Int) (ops : List WriteOp)
    (s0 s : DataBuf) (ps : List (List UInt8)) (wire : List UInt8) (chunks : List (List UInt8))
    (hlen : len < 2147483648) (hnew : new junk len = some s0)
    (hwrite : s0.writeRun ops = some (ps, wire, s))
    (hps : ∀ p ∈ ps, 1 ≤ p.length ∧ p.length ≤ 32765)
    (hcut : chunks.flatten = wire ++ s.content) (hchunks : ∀ c ∈ chunks, c.length ≤ 2 ^ 29) :
    Lossless junk ps chunks ↔ NeverEarly ps chunks := by
  obtain ⟨hv, hc, -⟩ := new_spec hlen hnew
  have hw := writeRun_content hv hwrite
  rw [hc, List.nil_append] at hw
  exact lossless_iff (fun p hp => (hps p hp).2) hchunks (by rw [hw, hcut])

theorem framing_lossless_iff_small :
    Lossless (fun _ => 0) [[7], [8, 9]] [[1, 0, 7, 2], [0, 8], [9]] ↔
      NeverEarly [[7], [8, 9]] [[1, 0, 7, 2], [0, 8], [9]] :=
  framing_lossless_iff (fun _ => 0) 8 [.append [7], .sent 2, .append [8, 9], .sent 5] _ _ _ _ _
    (by omega) rfl rfl (by decide) (by decide) (by decide)

/-- A payload of 128 bytes, handed over in one piece, is never returned. -/
theorem framing_loses_128 :
    ((new (fun _ => 0) 200).bind fun s0 =>
      (s0.writeRun [.append (List.replicate 128 0)]).map fun r => (r.1, r.2.1, r.2.2.content))
        = some ([List.replicate 128 0], [], frame (List.replicate 128 0)) ∧
    ¬ Lossless (fun _ => 0) [List.replicate 128 0] [frame (List.replicate 128 0)] := by
  refine ⟨by decide +kernel, fun h => ?_⟩
  have hcond := (lossless_iff (by simp) (by simp) (by simp)).mp h
  obtain ⟨t, ht, -⟩ := hcond [] (List.replicate 128 0) [] rfl
  simp [packSeenAt] at ht

end Donkeyji.Xy3.DataBuf
