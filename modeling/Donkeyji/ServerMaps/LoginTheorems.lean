/-
Donkeyji.ServerMaps.LoginTheorems — login frames, responses, and the call of
the script.

The two inner lengths of a request are not checked against the length of its
frame, and the frame of an unknown protocol is not taken: `reads_in_frame_iff`
says which contents are parsed within their bounds.

`on_check_user` is pushed behind its arguments, so the value that is called is
the name, a string: the script is never reached (`checkUser_eq`).

The response is laid out with a 4-byte id, and its length is computed with
that of a 2-byte one: its last two bytes are never queued
(`loginResponse_short`).
-/
import Mathlib.Data.List.TakeWhile
import Donkeyji.ServerMaps.ResponseTheorems
import Donkeyji.ServerMaps.Login

namespace Donkeyji.ServerMaps

open Memory

variable {script : Script} {junk : Nat → UInt8} {L : LuaState} {rbuf wbuf : Buffer}
  {urs pwd : List UInt8} {res : LoginResult}

/-! ## Frames -/

/-- The value of a byte of a block. -/
def byteVal (ptr : List UInt8) (i : Nat) : Nat := (ptr.getD i 0).toNat

/-- The length byte of the frame that begins at the offset. -/
def frameLen (b : Buffer) : Nat := byteVal b.ptr b.offset

/-- A complete frame is there: the length byte and as many bytes as it says. -/
def HasFrame (b : Buffer) : Prop := b.offset < b.used ∧ b.offset + 1 + frameLen b ≤ b.used

/-- The frame is a request for a check, and its inner lengths add up to its length. -/
def Reconciled (b : Buffer) : Prop :=
  byteVal b.ptr (b.offset + 1) = 1 ∧ byteVal b.ptr (b.offset + 2) = 0 ∧
    frameLen b = 4 + byteVal b.ptr (b.offset + 3) +
      byteVal b.ptr (b.offset + 4 + byteVal b.ptr (b.offset + 3))

/-- Without a complete frame nothing is done. With one, every byte that is read lies in it, and
the offset moves behind it. -/
def ReadsInFrame (script : Script) (junk : Nat → UInt8) (L : LuaState) (rbuf wbuf : Buffer) :
    Prop :=
  ∃ res, loginClientRead script junk L rbuf wbuf = some res ∧
    (¬ HasFrame rbuf → res.rbuf = rbuf ∧ res.wbuf = wbuf ∧ res.lua = L) ∧
    (HasFrame rbuf →
      (∀ a ∈ res.reads, rbuf.offset ≤ a ∧ a < rbuf.offset + 1 + frameLen rbuf) ∧
        res.rbuf = { rbuf with offset := rbuf.offset + 1 + frameLen rbuf })

theorem byteAt_some {ptr : List UInt8} {i : Nat} (h : i < ptr.length) :
    byteAt ptr i = some (byteVal ptr i) := by
  simp [byteAt, byteVal, h]

theorem byteAt_eq {ptr : List UInt8} {i v : Nat} (h : byteAt ptr i = some v) :
    v = byteVal ptr i := by
  obtain ⟨b, hb, rfl⟩ := Option.map_eq_some_iff.mp h
  simp [byteVal, hb]

/-- The protocol id is the two bytes behind the length. -/
theorem leNat_word {ptr bs : List UInt8} {i : Nat} (h : readAt ptr i lenWord = some bs) :
    leNat bs = byteVal ptr i + 256 * byteVal ptr (i + 1) := by
  obtain ⟨-, -, hle, rfl⟩ := readAt_eq_some.mp h
  have hlen : i + 2 ≤ ptr.length := by
    unfold lenWord at hle
    omega
  have hslice : slice ptr i 2 = [ptr.getD i 0, ptr.getD (i + 1) 0] := by
    have h0 : i < ptr.length := by omega
    have h1 : i + 1 < ptr.length := by omega
    rw [slice, List.drop_eq_getElem_cons h0, List.drop_eq_getElem_cons h1]
    simp only [List.take_succ_cons, List.take_zero, List.getD, List.getElem?_eq_getElem h0,
      List.getElem?_eq_getElem h1, Option.getD_some]
  show leNat (slice ptr i 2) = _
  rw [hslice]
  simp [leNat, byteVal]

/-- **The script is never called**: the value below the two arguments is the name. -/
theorem checkUser_eq (script : Script) (junk : Nat → UInt8) (L : LuaState) (wbuf : Buffer)
    (urs pwd : List UInt8) : checkUser script junk L wbuf urs pwd = some (L, wbuf, []) := by
  rfl

/-- Without a complete frame nothing happens. -/
theorem loginClientRead_idle (hused : rbuf.used ≤ rbuf.ptr.length) (h : ¬ HasFrame rbuf) :
    ∃ res, loginClientRead script junk L rbuf wbuf = some res ∧ res.rbuf = rbuf ∧
      res.wbuf = wbuf ∧ res.lua = L := by
  unfold HasFrame at h
  by_cases hempty : rbuf.offset ≥ rbuf.used
  · exact ⟨_, by simp only [loginClientRead, if_pos hempty]; rfl, rfl, rfl, rfl⟩
  · have hbyte := byteAt_some (show rbuf.offset < rbuf.ptr.length by omega)
    have hshort : rbuf.used - rbuf.offset - lenByte < byteVal rbuf.ptr rbuf.offset := by
      unfold frameLen at h
      unfold lenByte
      omega
    refine ⟨⟨rbuf, wbuf, L, [rbuf.offset], []⟩, ?_, rfl, rfl, rfl⟩
    simp only [loginClientRead, if_neg hempty, hbyte, Option.bind_eq_bind, Option.bind_some,
      if_pos hshort]
    rfl

/-- What is left of a request for a check whose bytes all lie in the block. -/
def checked (L : LuaState) (rbuf wbuf : Buffer) (u p : Nat) : LoginResult :=
  ⟨{ rbuf with offset := rbuf.offset + 4 + u + 1 + p }, wbuf, L,
    [rbuf.offset] ++ List.range' (rbuf.offset + 1) 2 ++ [rbuf.offset + 3] ++
      [rbuf.offset + 4 + u] ++ List.range' (rbuf.offset + 4) u ++
      List.range' (rbuf.offset + 4 + u + 1) p, []⟩

/-- The frame of a request for a check whose inner lengths add up. -/
theorem loginClientRead_check (hused : rbuf.used ≤ rbuf.ptr.length) (h : HasFrame rbuf)
    (hr : Reconciled rbuf) : ∃ u p, frameLen rbuf = 4 + u + p ∧
      loginClientRead script junk L rbuf wbuf = some (checked L rbuf wbuf u p) := by
  obtain ⟨hlt, hfit⟩ := h
  obtain ⟨hid0, hid1, hlen⟩ := hr
  generalize hu : byteVal rbuf.ptr (rbuf.offset + 3) = u at *
  generalize hp : byteVal rbuf.ptr (rbuf.offset + 4 + u) = p at *
  refine ⟨u, p, hlen, ?_⟩
  have hbyte := byteAt_some (show rbuf.offset < rbuf.ptr.length by omega)
  have hbyteU : byteAt rbuf.ptr (rbuf.offset + 1 + 2) = some u := by
    rw [byteAt_some (by omega), ← hu]
  have hbyteP : byteAt rbuf.ptr (rbuf.offset + 1 + 2 + 1 + u) = some p := by
    rw [byteAt_some (by omega), ← hp]
  have hword : readAt rbuf.ptr (rbuf.offset + 1 : Nat) (2 : Nat) =
      some (slice rbuf.ptr (rbuf.offset + 1) 2) := readAt_some (by omega) (by omega) (by omega)
  have hid : leNat (slice rbuf.ptr (rbuf.offset + 1) 2) = sCheck := by
    rw [leNat_word hword, hid0, hid1]
    rfl
  have hurs : readAt rbuf.ptr (rbuf.offset + 1 + 2 + 1 : Nat) u =
      some (slice rbuf.ptr (rbuf.offset + 4) u) := readAt_some (by omega) (by omega) (by omega)
  have hpwd : readAt rbuf.ptr (rbuf.offset + 1 + 2 + 1 + u + 1 : Nat) p =
      some (slice rbuf.ptr (rbuf.offset + 4 + u + 1) p) :=
    readAt_some (by omega) (by omega) (by omega)
  have hthere : ¬ rbuf.offset ≥ rbuf.used := by omega
  have hwhole : ¬ rbuf.used - rbuf.offset - 1 < byteVal rbuf.ptr rbuf.offset := by
    unfold frameLen at hfit
    omega
  simp only [loginClientRead, lenByte, lenWord, if_neg hthere, hbyte, Option.bind_eq_bind,
    Option.bind_some, if_neg hwhole, hword, hid, if_true, hbyteU, hbyteP, hurs, hpwd,
    checkUser_eq]
  rfl

/-- Where the offset stands after a complete frame. -/
theorem loginClientRead_offset (h : HasFrame rbuf)
    (hres : loginClientRead script junk L rbuf wbuf = some res) :
    res.rbuf.offset = rbuf.offset ∨
      byteVal rbuf.ptr (rbuf.offset + 1) = 1 ∧ byteVal rbuf.ptr (rbuf.offset + 2) = 0 ∧
        res.rbuf.offset = rbuf.offset + 4 + byteVal rbuf.ptr (rbuf.offset + 3) + 1 +
          byteVal rbuf.ptr (rbuf.offset + 4 + byteVal rbuf.ptr (rbuf.offset + 3)) := by
  obtain ⟨hlt, hfit⟩ := h
  have hthere : ¬ rbuf.offset ≥ rbuf.used := by omega
  simp only [loginClientRead, if_neg hthere] at hres
  obtain ⟨n, hn, hres⟩ := Option.bind_eq_some_iff.mp hres
  have hwhole : ¬ rbuf.used - rbuf.offset - lenByte < n := by
    rw [byteAt_eq hn]
    unfold frameLen at hfit
    unfold lenByte
    omega
  rw [if_neg hwhole] at hres
  obtain ⟨word, hword, hres⟩ := Option.bind_eq_some_iff.mp hres
  by_cases hid : leNat word = sCheck
  · rw [if_pos hid] at hres
    obtain ⟨u, hu, hres⟩ := Option.bind_eq_some_iff.mp hres
    obtain ⟨p, hp, hres⟩ := Option.bind_eq_some_iff.mp hres
    obtain ⟨urs, -, hres⟩ := Option.bind_eq_some_iff.mp hres
    obtain ⟨pwd, -, hres⟩ := Option.bind_eq_some_iff.mp hres
    rw [checkUser_eq] at hres
    cases hres
    have hu' : u = byteVal rbuf.ptr (rbuf.offset + 3) := byteAt_eq hu
    have hp' : p = byteVal rbuf.ptr (rbuf.offset + 4 + u) := byteAt_eq hp
    have hid' := leNat_word hword
    rw [hid] at hid'
    have hlow : byteVal rbuf.ptr (rbuf.offset + 1) + 256 * byteVal rbuf.ptr (rbuf.offset + 2) =
        1 := hid'.symm
    rw [← hu', ← hp']
    exact Or.inr ⟨by omega, by omega, rfl⟩
  · rw [if_neg hid] at hres
    cases hres
    exact Or.inl rfl

/-- **When a frame is parsed within its bounds**: for every content of `rbuf`, exactly if no
complete frame is there, or it is a request for a check whose inner lengths add up. -/
theorem reads_in_frame_iff (script : Script) (junk : Nat → UInt8) (L : LuaState)
    (rbuf wbuf : Buffer) (hused : rbuf.used ≤ rbuf.ptr.length) :
    ReadsInFrame script junk L rbuf wbuf ↔ (HasFrame rbuf → Reconciled rbuf) := by
  constructor
  · rintro ⟨res, hres, -, hframe⟩ h
    obtain ⟨-, hoffset⟩ := hframe h
    have hsame : res.rbuf.offset = rbuf.offset + 1 + frameLen rbuf := by rw [hoffset]
    rcases loginClientRead_offset h hres with hstay | ⟨hid0, hid1, hmove⟩
    · omega
    · exact ⟨hid0, hid1, by omega⟩
  · intro h
    by_cases hframe : HasFrame rbuf
    · obtain ⟨u, p, hlen, hres⟩ := loginClientRead_check hused hframe (h hframe)
      refine ⟨_, hres, fun hnot => absurd hframe hnot, fun _ => ⟨?_, ?_⟩⟩
      · intro a ha
        simp only [checked, List.mem_append, List.mem_singleton, List.mem_range'_1] at ha
        omega
      · have hend : rbuf.offset + 4 + u + 1 + p = rbuf.offset + 1 + frameLen rbuf := by omega
        simp only [checked, hend]
    · obtain ⟨res, hres, hsame⟩ := loginClientRead_idle hused hframe
      exact ⟨res, hres, fun _ => hsame, fun h => absurd h hframe⟩

/-- A name and a password of one byte each. -/
theorem reads_in_frame_iff_two :
    ReadsInFrame ⟨fun _ _ => .returns [], .nil, id, fun _ => 0, fun _ => none⟩ (fun _ => 0) ⟨[], []⟩
      ⟨[6, 1, 0, 1, 97, 1, 98], 7, 7, 0⟩ bufferNew :=
  (reads_in_frame_iff _ _ _ ⟨[6, 1, 0, 1, 97, 1, 98], 7, 7, 0⟩ bufferNew (by decide)).mpr
    fun _ => ⟨by decide, by decide, by decide⟩

/-- The inner lengths of a frame of four bytes reach behind it: the name is read in the next
frame, and the offset moves into the middle of that one. -/
theorem inner_length_leaves_frame :
    ¬ ReadsInFrame ⟨fun _ _ => .returns [], .nil, id, fun _ => 0, fun _ => none⟩ (fun _ => 0)
      ⟨[], []⟩ ⟨[4, 1, 0, 2, 0, 2, 1, 0], 8, 8, 0⟩ bufferNew := by
  rintro ⟨res, hres, -, hframe⟩
  cases hres
  obtain ⟨hreads, -⟩ := hframe ⟨by decide, by decide⟩
  exact absurd (hreads 6 (by decide)) (by decide)

/-! ## The response -/

/-- The layout of a response: the length of the frame, the id, the uid, the length of the key and
the key. -/
def responseLayout (n uid : Nat) (key : List UInt8) : List UInt8 :=
  leBytes 1 n ++ leBytes 4 2 ++ leBytes 8 uid ++ leBytes 1 key.length ++ key

/-- A reader of the layout: the uid, the key, and what is behind them. -/
def readResponse (bytes : List UInt8) : Option (Nat × List UInt8 × List UInt8) := do
  let uid ← readAt bytes (5 : Nat) (8 : Nat)
  let klen ← byteAt bytes 13
  let key ← readAt bytes (14 : Nat) klen
  return (leNat uid, key, bytes.drop (14 + klen))

/-- The bytes are the layout, with a frame length from which the next response is found, and
reading them yields the uid and the key. -/
def ResponseDecodes (uid : Int) (key : List UInt8) : Prop :=
  (∃ n, loginResponse uid key = responseLayout n (toU64 uid).toNat key ∧
    (n = (loginResponse uid key).length ∨ n + 1 = (loginResponse uid key).length)) ∧
  ∀ next, readResponse (loginResponse uid key ++ next) = some ((toU64 uid).toNat, key, next)

theorem strlen_le (key : List UInt8) : strlen key ≤ key.length :=
  (List.takeWhile_sublist _).length_le

/-- The length of a key without a zero. -/
theorem strlen_of_notMem {key : List UInt8} (h : 0 ∉ key) : strlen key = key.length := by
  have hall : key.takeWhile (· ≠ 0) = key := by
    rw [List.takeWhile_eq_self_iff]
    intro b hb
    simpa using fun hb0 : b = 0 => h (hb0 ▸ hb)
  rw [strlen, hall]

/-- Two of the bytes that are laid out are not taken. -/
theorem length_loginResponse (uid : Int) (key : List UInt8) :
    (loginResponse uid key).length = 12 + strlen key % 256 := by
  have hkey := strlen_le key
  have hmod := Nat.mod_le (strlen key) 256
  simp only [loginResponse, List.length_take, List.length_append, length_leBytes, lenHeader,
    lenByte, lenWord, lenLword, lenDword]
  omega

/-- The byte for the length of the key. -/
theorem byteAt_loginResponse (uid : Int) {key : List UInt8} (h : 2 ≤ strlen key % 256) :
    byteAt (loginResponse uid key) 13 = some (strlen key % 256) := by
  have hpre : (leBytes 1 (12 + strlen key % 256) ++ leBytes 4 2 ++
      leBytes 8 (toU64 uid).toNat).length = 13 := by simp
  have hbuf : loginResponse uid key = (leBytes 1 (12 + strlen key % 256) ++ leBytes 4 2 ++
      leBytes 8 (toU64 uid).toNat ++ (UInt8.ofNat (strlen key % 256) ::
        key.take (strlen key % 256))).take (12 + strlen key % 256) := by
    simp [loginResponse, lenHeader, lenByte, lenWord, lenLword, lenDword, leBytes]
  rw [hbuf, byteAt, List.getElem?_take_of_lt (by omega), List.getElem?_append_right (by omega),
    hpre]
  simp

/-- **A response cannot be read**: the key, or its length, is not all there. -/
theorem readResponse_loginResponse (uid : Int) (key : List UInt8) :
    readResponse (loginResponse uid key) = none := by
  have hlen := length_loginResponse uid key
  unfold readResponse
  by_cases hshort : strlen key % 256 < 2
  · have hbyte : byteAt (loginResponse uid key) 13 = none := by
      rw [byteAt, List.getElem?_eq_none (by omega)]
      rfl
    simp [hbyte]
  · have hbyte : byteAt (loginResponse uid key) 13 = some (strlen key % 256) :=
      byteAt_loginResponse uid (by omega)
    have hkey : readAt (loginResponse uid key) (14 : Nat) (strlen key % 256 : Nat) = none :=
      if_neg (by omega)
    simp only [hbyte, hkey, Option.bind_eq_bind, Option.bind_some, Option.bind_none,
      Option.bind_fun_none]

/-- The first bytes of the layout, which is what is queued. -/
theorem loginResponse_short (uid : Int) {key : List UInt8} (hkey : key.length ≤ 200)
    (hzero : 0 ∉ key) : loginResponse uid key =
      (responseLayout (12 + key.length) (toU64 uid).toNat key).take (12 + key.length) := by
  have hmod : key.length % 256 = key.length := Nat.mod_eq_of_lt (by omega)
  simp [loginResponse, strlen_of_notMem hzero, hmod, responseLayout, lenHeader, lenByte, lenWord,
    lenLword, lenDword]

/-- The layout itself can be read. -/
theorem readResponse_layout {n uid : Nat} {key : List UInt8} (huid : uid < 18446744073709551616)
    (hkey : key.length ≤ 200) (next : List UInt8) :
    readResponse (responseLayout n uid key ++ next) = some (uid, key, next) := by
  have huidAt : readAt (responseLayout n uid key ++ next) (5 : Nat) (8 : Nat) =
      some (leBytes 8 uid) := by
    have h : readAt ((leBytes 1 n ++ leBytes 4 2) ++ (leBytes 8 uid ++
        (leBytes 1 key.length ++ key ++ next))) (5 : Nat) (8 : Nat) = some (leBytes 8 uid) :=
      readAt_append _ _ _ (by simp) (by simp)
    simpa [responseLayout] using h
  have hklenAt : byteAt (responseLayout n uid key ++ next) 13 = some key.length := by
    have hmod : key.length % 256 = key.length := Nat.mod_eq_of_lt (by omega)
    simp [byteAt, responseLayout, leBytes, hmod]
  have hkeyAt : readAt (responseLayout n uid key ++ next) (14 : Nat) key.length = some key := by
    have h : readAt ((leBytes 1 n ++ leBytes 4 2 ++ leBytes 8 uid ++ leBytes 1 key.length) ++
        (key ++ next)) (14 : Nat) key.length = some key :=
      readAt_append _ _ _ (by simp) rfl
    simpa [responseLayout] using h
  have hlen : (responseLayout n uid key).length = 14 + key.length := by
    simp [responseLayout]
    omega
  unfold readResponse
  rw [huidAt, hklenAt]
  have huidLe : leNat (leBytes 8 uid) = uid := leNat_leBytes_of_lt (by omega)
  simp only [Option.bind_eq_bind, Option.bind_some, hkeyAt, huidLe]
  rw [← hlen, List.drop_left]
  rfl

/-- **The bytes of a response are never the layout**, whatever the uid and the key are. -/
theorem response_never_decodes (uid : Int) (key : List UInt8) : ¬ ResponseDecodes uid key := by
  rintro ⟨-, hread⟩
  have hnone := readResponse_loginResponse uid key
  have hsome := hread []
  rw [List.append_nil, hnone] at hsome
  exact absurd hsome (by simp)

/-- The key "ab" of the uid 7: its length and nothing of it. -/
theorem response_of_seven_short : loginResponse 7 [97, 98] =
      [14, 2, 0, 0, 0, 7, 0, 0, 0, 0, 0, 0, 0, 2] ∧ ¬ ResponseDecodes 7 [97, 98] := by
  have hbytes : loginResponse 7 [97, 98] = [14, 2, 0, 0, 0, 7, 0, 0, 0, 0, 0, 0, 0, 2] := by
    decide
  refine ⟨hbytes, ?_⟩
  rintro ⟨-, hread⟩
  have hsome := hread []
  rw [hbytes] at hsome
  exact absurd hsome (by decide)

/-! ## The call of the script -/

/-- A request for a check: the length of the frame, the id, and the name and the password, each
behind its length. -/
def checkFrame (urs pwd : List UInt8) : List UInt8 :=
  leBytes 1 (4 + urs.length + pwd.length) ++ leBytes 2 sCheck ++ leBytes 1 urs.length ++ urs ++
    leBytes 1 pwd.length ++ pwd

/-- The request is what the buffer has next. -/
structure HoldsRequest (b : Buffer) (urs pwd : List UInt8) : Prop where
  small : 4 + urs.length + pwd.length < 256
  block : b.used ≤ b.ptr.length
  whole : b.offset + (5 + urs.length + pwd.length) ≤ b.used
  there : slice b.ptr b.offset (5 + urs.length + pwd.length) = checkFrame urs pwd

/-- The function is called once, with the name and the password. The two values that it returns
are in the response, none is queued when it raises an error, and the stack is as high as
before. -/
def RequestServed (script : Script) (junk : Nat → UInt8) (L : LuaState) (rbuf wbuf : Buffer)
    (urs pwd : List UInt8) : Prop :=
  ∃ f res, script.onCheckUser = .other f ∧
    loginClientRead script junk L rbuf wbuf = some res ∧
    res.lua.calls = L.calls ++ [(f, [.string urs, .string pwd])] ∧
    res.lua.stack.length = L.stack.length ∧
    match script.call f [.string urs, .string pwd] with
    | .raises _ => res.wbuf = wbuf ∧ res.sent = []
    | .returns values => ∀ uid key, values = [uid, .string key] → key.length ≤ 200 →
        ∃ r, bufferAppend junk wbuf (loginResponse (script.tointeger uid) key) = some (r, res.wbuf)

/-- A byte of the frame in the block. -/
theorem HoldsRequest.byteVal_eq (h : HoldsRequest rbuf urs pwd) {i : Nat}
    (hi : i < 5 + urs.length + pwd.length) :
    byteVal rbuf.ptr (rbuf.offset + i) = byteVal (checkFrame urs pwd) i := by
  rw [← h.there]
  simp [byteVal, slice, List.getD, hi]

/-- The inner lengths of a request add up. -/
theorem HoldsRequest.reconciled (h : HoldsRequest rbuf urs pwd) :
    HasFrame rbuf ∧ Reconciled rbuf ∧ frameLen rbuf = 4 + urs.length + pwd.length := by
  have hsmall := h.small
  have hwhole := h.whole
  have hlen : frameLen rbuf = 4 + urs.length + pwd.length := by
    have h0 : byteVal rbuf.ptr (rbuf.offset + 0) = _ := h.byteVal_eq (by omega)
    rw [frameLen, ← Nat.add_zero rbuf.offset, h0]
    simp [checkFrame, byteVal, leBytes, Nat.mod_eq_of_lt hsmall]
  have hid0 : byteVal rbuf.ptr (rbuf.offset + 1) = 1 := by
    rw [h.byteVal_eq (by omega)]
    rfl
  have hid1 : byteVal rbuf.ptr (rbuf.offset + 2) = 0 := by
    rw [h.byteVal_eq (by omega)]
    rfl
  have hurs : byteVal rbuf.ptr (rbuf.offset + 3) = urs.length := by
    rw [h.byteVal_eq (by omega)]
    have hlt : urs.length < 256 := by omega
    simp [checkFrame, byteVal, leBytes, Nat.mod_eq_of_lt hlt]
  have hpwd : byteVal rbuf.ptr (rbuf.offset + 4 + urs.length) = pwd.length := by
    rw [Nat.add_assoc, h.byteVal_eq (by omega)]
    have hlt : pwd.length < 256 := by omega
    have hpre : (leBytes 1 (4 + urs.length + pwd.length) ++ leBytes 2 sCheck ++
        leBytes 1 urs.length ++ urs).length = 4 + urs.length := by
      simp
      omega
    have hget : (checkFrame urs pwd)[4 + urs.length]? = some (UInt8.ofNat pwd.length) := by
      rw [checkFrame, List.append_assoc, List.getElem?_append_right (by omega), hpre]
      simp [leBytes]
    simp [byteVal, List.getD, hget, Nat.mod_eq_of_lt hlt]
  refine ⟨⟨by omega, by omega⟩, ⟨hid0, hid1, ?_⟩, hlen⟩
  rw [hurs, hpwd, hlen]

/-- **No request is served**: the frame is taken, the script is not called, and there is no
response. -/
theorem request_never_served (script : Script) (junk : Nat → UInt8) (L : LuaState)
    (rbuf wbuf : Buffer) (urs pwd : List UInt8) (h : HoldsRequest rbuf urs pwd) :
    (∃ res, loginClientRead script junk L rbuf wbuf = some res ∧ res.lua = L ∧ res.wbuf = wbuf ∧
      res.sent = [] ∧ res.rbuf.offset = rbuf.offset + (5 + urs.length + pwd.length)) ∧
    ¬ RequestServed script junk L rbuf wbuf urs pwd := by
  obtain ⟨hframe, hrec, hlen⟩ := h.reconciled
  obtain ⟨u, p, hup, hread⟩ := @loginClientRead_check script junk L rbuf wbuf h.block hframe hrec
  constructor
  · refine ⟨_, hread, rfl, rfl, rfl, ?_⟩
    show rbuf.offset + 4 + u + 1 + p = _
    omega
  · rintro ⟨f, res, -, hres, hcalls, -⟩
    rw [hread] at hres
    cases hres
    have hlength := congrArg List.length hcalls
    simp [checked] at hlength

/-- The function raises an error; the name and the password are empty. -/
theorem request_never_served_empty :
    ¬ RequestServed ⟨fun _ _ => .raises .nil, .other 0, id, fun _ => 0, fun _ => none⟩ (fun _ => 0)
      ⟨[], []⟩ ⟨[4, 1, 0, 0, 0], 5, 5, 0⟩ bufferNew [] [] :=
  (request_never_served _ _ _ ⟨[4, 1, 0, 0, 0], 5, 5, 0⟩ bufferNew [] []
    ⟨by decide, by decide, by decide, by decide⟩).2

/-- The function `0` returns the uid 7 and the key "ab", but the name "a", a string, is called. -/
theorem name_is_called :
    LuaState.pcall ⟨fun _ _ => .returns [.number (.finite 7), .string [97, 98]], .other 0, id,
      fun _ => 7, fun _ => some [97, 98]⟩ ⟨[.other 0, .string [98], .string [97]], []⟩ 2 1 =
        some (2, ⟨[.string [97]], []⟩) ∧
    ¬ RequestServed ⟨fun _ _ => .returns [.number (.finite 7), .string [97, 98]], .other 0, id,
      fun _ => 7, fun _ => some [97, 98]⟩ (fun _ => 0) ⟨[], []⟩ ⟨[6, 1, 0, 1, 97, 1, 98], 7, 7, 0⟩
      bufferNew [97] [98] := by
  refine ⟨rfl, ?_⟩
  rintro ⟨f, res, -, hres, hcalls, -⟩
  cases hres
  cases hcalls

end Donkeyji.ServerMaps
