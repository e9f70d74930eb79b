/-
Donkeyji.Xy3.RecvLoopTheorems — the loop of `Server::dispatch` over whatever bytes a peer
sent.

`getPack` tests the first byte of a header, as a signed `char`, and returns a size made of
both; nothing compares that size with the bytes that are there. A negative size goes to
`new char[]`. A size beyond the tail is copied all the same, and `cutData` then refuses to
cut it, so the loop gets the same pack again. `WellCut` says of the queued bytes that
neither happens at any header the loop comes to.

`size_of_recvSafe` and `recvSafe_of_size` are one call on any content, `recvLoop_of_wellCut`
and `wellCut_of_recvLoop` the loop, by recursion on the bytes that are left.
-/
import Mathlib.Logic.Relation
import Donkeyji.Xy3.DataBufTheorems
import Donkeyji.Xy3.Server

namespace Donkeyji.Xy3

open Memory
open Relation (ReflTransGen)

/-! ## Packs that are there -/

/-- Wherever `getPack` takes a pack as complete, its size is not negative and its bytes are
there; behind an empty pack nothing is looked at. -/
inductive WellCut : List UInt8 → Prop where
  | unseen {bytes : List UInt8} : ¬ PackSeen bytes → WellCut bytes
  | empty {bytes : List UInt8} : PackSeen bytes → packSize bytes = 0 → WellCut bytes
  | pack {bytes : List UInt8} {n : Nat} : PackSeen bytes → packSize bytes = n → 0 < n →
      n + 2 ≤ bytes.length → WellCut (bytes.drop (n + 2)) → WellCut bytes

/-! ## The loop -/

/-- A call of `doRecv` after which the loop goes on. -/
def RecvTurn (b b' : DataBuf) : Prop := ∃ pack, b.doRecv = some (some pack, b') ∧ pack ≠ []

/-- A call of `doRecv` is safe: it asks for no negative number of bytes, copies none from
behind the tail, and a pack it returns takes at least its header from the buffer. -/
def RecvSafe (b : DataBuf) : Prop :=
  (∀ size p, b.getPack = some (some (size, p)) → 0 ≤ size ∧ p + size ≤ b.tail) ∧
    ∃ r b', b.doRecv = some (r, b') ∧
      (r.isSome → b'.content.length + 2 ≤ b.content.length)

/-- The loop ends, and every call it makes is safe. -/
def RecvLoopOk (b : DataBuf) : Prop :=
  (∃ fuel packs b', takePacks fuel b = some (packs, b')) ∧
    ∀ b', ReflTransGen RecvTurn b b' → RecvSafe b'

/-! ## One call -/

/-- A call that is safe sees no pack or a complete one. -/
theorem size_of_recvSafe {b : DataBuf} (hv : b.Valid) (h : RecvSafe b)
    (hseen : PackSeen b.content) :
    ∃ n : Nat, packSize b.content = n ∧ n + 2 ≤ b.content.length := by
  have hlen := DataBuf.length_content hv
  obtain ⟨hpos, hle⟩ := h.1 (packSize b.content) (b.head + 2) (by
    rw [DataBuf.getPack_content hv, if_pos hseen])
  exact ⟨(packSize b.content).toNat, by omega, by omega⟩

/-- A call on no pack or a complete one is safe. -/
theorem recvSafe_of_size {b : DataBuf} (hv : b.Valid)
    (h : PackSeen b.content → ∃ n : Nat, packSize b.content = n ∧ n + 2 ≤ b.content.length) :
    RecvSafe b := by
  have hlen := DataBuf.length_content hv
  by_cases hseen : PackSeen b.content
  · obtain ⟨n, hsize, hfull⟩ := h hseen
    obtain ⟨b', hcall, -, hcontent, -⟩ := DataBuf.doRecv_pack hv hseen hsize hfull
    refine ⟨fun size p hget => ?_, _, b', hcall, fun _ => ?_⟩
    · rw [DataBuf.getPack_content hv, if_pos hseen] at hget
      obtain ⟨rfl, rfl⟩ := Prod.mk.inj (Option.some.inj (Option.some.inj hget))
      omega
    · rw [hcontent, List.length_drop]
      omega
  · refine ⟨fun size p hget => ?_, none, b, DataBuf.doRecv_unseen hv hseen, nofun⟩
    rw [DataBuf.getPack_content hv, if_neg hseen] at hget
    cases hget

/-! ## The whole loop -/

/-- On well-cut bytes the loop ends and every call is safe. -/
theorem recvLoop_of_wellCut {bytes : List UInt8} (h : WellCut bytes) :
    ∀ {b : DataBuf}, b.Valid → b.content = bytes → RecvLoopOk b := by
  induction h with
  | @unseen bytes hseen =>
    rintro b hv rfl
    have hcall := DataBuf.doRecv_unseen hv hseen
    refine ⟨⟨1, [], b, by simp [takePacks, hcall]⟩, fun b' hreach => ?_⟩
    obtain rfl | ⟨b1, ⟨pack, hturn, -⟩, -⟩ := hreach.cases_head
    · exact recvSafe_of_size hv fun h => absurd h hseen
    · rw [hcall] at hturn
      cases hturn
  | @empty bytes hseen hsize =>
    rintro b hv rfl
    obtain ⟨b1, hcall, -⟩ := DataBuf.doRecv_pack hv (n := 0) hseen hsize hseen.1
    refine ⟨⟨1, [], b1, by simp [takePacks, hcall, slice]⟩, fun b' hreach => ?_⟩
    obtain rfl | ⟨b2, ⟨pack, hturn, hpack⟩, -⟩ := hreach.cases_head
    · exact recvSafe_of_size hv fun _ => ⟨0, hsize, hseen.1⟩
    · rw [hcall] at hturn
      cases hturn
      exact absurd (by simp [slice]) hpack
  | @pack bytes n hseen hsize hpos hfull _ ih =>
    rintro b hv rfl
    obtain ⟨b1, hcall, hv1, hcontent, -⟩ := DataBuf.doRecv_pack hv hseen hsize hfull
    obtain ⟨⟨fuel, packs, b2, hends⟩, hsafe⟩ := ih hv1 hcontent
    have hne : slice b.content 2 n ≠ [] := by
      have hlen : (slice b.content 2 n).length = n := length_slice (by omega)
      exact List.ne_nil_of_length_pos (by omega)
    refine ⟨⟨fuel + 1, slice b.content 2 n :: packs, b2, ?_⟩, fun b' hreach => ?_⟩
    · obtain ⟨x, xs, hslice⟩ := List.exists_cons_of_ne_nil hne
      rw [hslice] at hcall ⊢
      simp [takePacks, hcall, hends]
    · obtain rfl | ⟨b3, ⟨pack, hturn, -⟩, hrest⟩ := hreach.cases_head
      · exact recvSafe_of_size hv fun _ => ⟨n, hsize, hfull⟩
      · rw [hcall] at hturn
        cases hturn
        exact hsafe b' hrest

/-- Where every call is safe the bytes are well cut. -/
theorem wellCut_of_recvLoop {m : Nat} : ∀ {b : DataBuf}, b.content.length ≤ m → b.Valid →
    (∀ b', ReflTransGen RecvTurn b b' → RecvSafe b') → WellCut b.content := by
  induction m with
  | zero =>
    intro b hm hv hsafe
    exact .unseen fun hseen => absurd hseen.1 (by omega)
  | succ m ih =>
    intro b hm hv hsafe
    by_cases hseen : PackSeen b.content
    · obtain ⟨n, hsize, hfull⟩ := size_of_recvSafe hv (hsafe b .refl) hseen
      obtain ⟨b1, hcall, hv1, hcontent, -⟩ := DataBuf.doRecv_pack hv hseen hsize hfull
      rcases Nat.eq_zero_or_pos n with rfl | hpos
      · exact .empty hseen hsize
      · have hlen : (slice b.content 2 n).length = n := length_slice (by omega)
        have hturn : RecvTurn b b1 := ⟨_, hcall, List.ne_nil_of_length_pos (by omega)⟩
        refine .pack hseen hsize hpos hfull (hcontent ▸ ih ?_ hv1 fun b' hreach => ?_)
        · rw [hcontent, List.length_drop]
          omega
        · exact hsafe b' (.head hturn hreach)
    · exact .unseen hseen

/-- **When the receive loop is safe.** For every content of the buffer the loop ends, with
every call safe, exactly if the bytes are well cut. -/
theorem recvLoop_iff {b : DataBuf} (hv : b.Valid) : RecvLoopOk b ↔ WellCut b.content :=
  ⟨fun h => wellCut_of_recvLoop (Nat.le_refl _) hv h.2, fun h => recvLoop_of_wellCut h hv rfl⟩

/-- A pack of one byte, and the first byte of the next. -/
theorem recvLoop_iff_one : RecvLoopOk ⟨[1, 0, 7, 2], 4, 0, 4, 0⟩ := by
  refine (recvLoop_iff ⟨rfl, by decide, by decide, by decide, rfl, by decide⟩).mpr ?_
  exact .pack (n := 1) (by decide) (by decide) (by decide) (by decide) (.unseen (by decide))

/-- **A peer stops the server.** The header 0, 128 announces -32768 bytes. -/
theorem negative_size_asked : ¬ ∀ b : DataBuf, b.Valid → RecvLoopOk b := by
  intro h
  have hok := h ⟨[0, 128], 2, 0, 2, 0⟩ ⟨rfl, by decide, by decide, by decide, rfl, by decide⟩
  have hsize := ((hok.2 _ .refl).1 (-32768) 2 (by decide)).1
  omega

end Donkeyji.Xy3
