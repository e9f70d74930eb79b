/-
Donkeyji.Mydb.StackTheorems — what an `unpack` call leaves on the Lua stack.

A call on malformed or truncated bytes should return 0 over the caller's stack, and a call
that succeeds should leave one value more (`StackAtomic`). Every exit of the seven packers
does so but one: `fcall_array_arg::unpack` pushes its table first, and the `return` inside
`check_buf` then skips the `lua_settop` that its other failure exit makes. That exit is taken
exactly by an array of variable length on an empty buffer; inside a table or another array
the outer packer resets the stack.
-/
import Donkeyji.Mydb.ArgTreeTheorems

namespace Donkeyji.Mydb

open Memory

/-! ## The two outcomes -/

/-- A call on bytes that the decoder refuses returns 0 with the stack as high as before, a
call on bytes that it decodes returns their number with one value more. -/
def StackAtomic (dec : Dec LuaValue) (L : LuaStack) (r : Option (Nat × LuaStack)) : Prop :=
  match dec with
  | some (_, n) => ∃ L', r = some (n, L') ∧ L'.length = L.length + 1
  | none => ∃ L', r = some (0, L') ∧ L'.length = L.length

theorem stackAtomic_clean (dec : Dec LuaValue) (L : LuaStack) :
    StackAtomic dec L (dec.clean L) := by
  cases dec with
  | none => exact ⟨L, rfl, rfl⟩
  | some r => exact ⟨r.1 :: L, rfl, rfl⟩

/-- The packer is an array that reads its length first, and there is no byte to read. -/
def LengthMissing (d : ArgTree) (buf : List UInt8) : Prop := buf = [] ∧ ∃ b, d = .array b 0

/-! ## The packers -/

/-- All seven packers, one case for each. -/
theorem ArgTree.unpack_clean (d : ArgTree) (L : LuaStack) (buf : List UInt8)
    (h : ¬ LengthMissing d buf) : d.arg.unpack L buf = (d.decode buf).clean L := by
  cases d with
  | number => exact (basicUnpack_number buf).clean L
  | byte => exact (basicUnpack_fixed 1 (by omega) id buf).clean L
  | word => exact (basicUnpack_fixed 2 (by omega) wrap16 buf).clean L
  | dword => exact (basicUnpack_fixed 4 (by omega) wrap32 buf).clean L
  | string => exact (basicUnpack_string buf).clean L
  | array b size =>
    refine arrayUnpack_clean b.unpack_arg size L buf ?_
    by_contra hno
    push Not at hno
    obtain ⟨hbuf, hsize⟩ := hno
    exact h ⟨hbuf, b, by rw [hsize]⟩
  | table ty hash fs =>
    exact tableUnpack_clean ty hash
      (fs.unpackLoop_code .nil L L (List.suffix_refl L) buf 0 fun _ => .nil)

/-- **When `unpack` is stack-atomic.** Every packer of the registry is that of a tree. -/
theorem unpack_atomic_iff (lua : Lua) :
    (∀ reg, Registered lua reg → ∀ a ∈ reg, ∃ d : ArgTree, d.arg = a) ∧
      ∀ (d : ArgTree) (L : LuaStack) (buf : List UInt8),
        StackAtomic (d.decode buf) L (d.arg.unpack L buf) ↔ ¬ LengthMissing d buf := by
  constructor
  · intro reg hreg a ha
    obtain ⟨d, -, hd⟩ := registered_isTree hreg a ha
    exact ⟨d, hd⟩
  · intro d L buf
    refine ⟨?_, fun h => ?_⟩
    · rintro hatomic ⟨rfl, b, rfl⟩
      obtain ⟨hdec, hun⟩ := arrayUnpack_leaks b L
      rw [hdec, hun] at hatomic
      obtain ⟨L', hL, hlen⟩ := hatomic
      cases hL
      rw [List.length_cons] at hlen
      omega
    · rw [d.unpack_clean L buf h]
      exact stackAtomic_clean _ L

/-- An array that has its length byte but not its element. -/
theorem unpack_atomic_iff_truncated :
    (∃ d : ArgTree, d.arg = .byte) ∧
      StackAtomic ((ArgTree.array .byte 0).decode [1]) [] ((ArgTree.array .byte 0).arg.unpack [] [1]) :=
  ⟨(unpack_atomic_iff .x86).1 _ .init _ (by simp [Registry.init]),
    ((unpack_atomic_iff .x86).2 _ _ _).mpr (by simp [LengthMissing])⟩

/-- **The early return of `check_buf`.** An array of numbers of variable length, on an empty
buffer. -/
theorem missing_length_leaks :
    ¬ ∀ (d : ArgTree) (L : LuaStack) (buf : List UInt8),
      StackAtomic (d.decode buf) L (d.arg.unpack L buf) := by
  intro h
  obtain ⟨L', hL, hlen⟩ := h (.array .number 0) [] []
  cases hL
  cases hlen

end Donkeyji.Mydb
