/-
Donkeyji.Mydb.SendTheorems — what reaches `s_data_sender`.

`multicast_exact` is about the destination list of `net_protocol::pack`. `Multicast.after` is
the state of its loop when the destinations `vfds` have passed the filter: the ones that fit
are in the buffer, all are counted.

`prepacked_agrees_iff` compares a direct call with `pack_protocol` and `send_pack_data`. Both
call `marshal` with the same arguments, but only the direct call looks at the destination, and
`send_pack_data` copies a string of any length.
-/
import Donkeyji.Mydb.CheckIdTheorems
import Donkeyji.Mydb.Send

namespace Donkeyji.Mydb

open Memory

/-! ## marshal into a packet -/

theorem NetProtocol.length_header (P : NetProtocol) :
    0 < P.header.length ∧ P.header.length ≤ 3 := by
  unfold header
  split
  · simp
  · simp

/-- `marshal` into a packet, from the encoder of the arguments. -/
theorem marshal_eq (lua : Lua) {P : NetProtocol} {ds : List ArgTree} (hP : P.ArgTypes ds)
    (hid : P.id ≠ 0) (L : LuaStack) :
    P.marshal lua L maxToNetd =
      match (argFields ds 1).encode lua (stackArgs L) (maxToNetd - P.header.length) with
      | .ok bytes => .ret (P.header.length + bytes.length) (P.header ++ bytes) L
      | .error .fault => .fault
      | .error _ => .raise := by
  have hlen := P.length_header
  unfold NetProtocol.marshal
  rw [if_neg (by unfold maxToNetd; omega), hP.1]
  exact marshalArgs_eq lua (by decide) L ds 0 _ (by omega) P.header

/-- What `marshal` returns is the number of bytes it wrote, over the same stack. -/
theorem marshal_ret {lua : Lua} {P : NetProtocol} {ds : List ArgTree} (hP : P.ArgTypes ds)
    {L L' : LuaStack} {usedLen : Int} {out : List UInt8}
    (h : P.marshal lua L maxToNetd = .ret usedLen out L') : usedLen = out.length ∧ L' = L := by
  have hid : P.id ≠ 0 := by
    intro hzero
    rw [NetProtocol.marshal, if_pos (.inl hzero)] at h
    cases h
  rw [marshal_eq lua hP hid] at h
  split at h
  · cases h
    exact ⟨by simp, rfl⟩
  · cases h
  · cases h

/-! ## Multicast -/

/-- How many destinations have room behind the packed protocol. -/
def multicastRoom (usedLen : Int) : Nat := ((maxToNetd - usedLen) / 4).toNat

/-- The loop when `vfds` have passed the filter. -/
def Multicast.after (usedLen : Int) (out : List UInt8) (vfds : List Int) : Multicast where
  beginp := usedLen + 4 * min vfds.length (multicastRoom usedLen)
  data := out ++ (vfds.take (multicastRoom usedLen)).flatMap vfdBytes
  c := min vfds.length (multicastRoom usedLen)
  t := vfds.length

/-- One destination. -/
theorem Multicast.after_add (usedLen : Int) (out : List UInt8) (vfds : List Int) (vfd : Int) :
    (after usedLen out vfds).add vfd =
      after usedLen out (vfds ++ [vfd].filter (vfdNull < ·)) := by
  unfold add
  by_cases hvfd : vfd > vfdNull
  · have hfilter : [vfd].filter (vfdNull < ·) = [vfd] := by simp [hvfd]
    rw [if_pos hvfd, hfilter]
    by_cases hroom : vfds.length < multicastRoom usedLen
    · -- the destination is the next one in the buffer
      have hfits : (after usedLen out vfds).beginp + 4 ≤ maxToNetd := by
        simp only [after]
        unfold multicastRoom at hroom ⊢
        omega
      rw [if_pos hfits]
      simp only [after, List.length_append, List.length_singleton, Multicast.mk.injEq]
      refine ⟨by omega, ?_, by omega, trivial⟩
      rw [List.take_of_length_le (by omega), List.take_of_length_le (by simp; omega)]
      simp
    · -- the buffer is full, and stays as it is
      have hfull : ¬ (after usedLen out vfds).beginp + 4 ≤ maxToNetd := by
        simp only [after]
        unfold multicastRoom at hroom ⊢
        omega
      rw [if_neg hfull]
      simp only [after, List.length_append, List.length_singleton, Multicast.mk.injEq]
      refine ⟨by omega, ?_, by omega, trivial⟩
      rw [List.take_append_of_le_length (by omega)]
  · have hfilter : [vfd].filter (vfdNull < ·) = [] := by simp; omega
    rw [if_neg hvfd, hfilter, List.append_nil]

/-- The whole loop over a list of numbers. -/
theorem multicastLoop_after (env : SendEnv) {get : LuaKey → LuaValue} (usedLen : Int)
    (out : List UInt8) (xs : List Int) (i : Nat) (vfds : List Int)
    (hget : ∀ (j : Nat) (x : Int), xs[j]? = some x → get (.index (i + j + 1)) = .ofInt x) :
    multicastLoop env get xs.length i (.after usedLen out vfds) =
      some (.after usedLen out
        (vfds ++ (xs.map fun x : Int => env.integerVfd (.finite x)).filter (vfdNull < ·))) := by
  induction xs generalizing i vfds with
  | nil => simp [multicastLoop]
  | cons x xs ih =>
    have hfirst : env.checkinteger (get (.index (i + 1))) = some (env.integerVfd (.finite x)) := by
      rw [hget 0 x rfl]
      rfl
    have hrest : ∀ (j : Nat) (y : Int), xs[j]? = some y →
        get (.index (i + 1 + j + 1)) = .ofInt y := by
      intro j y hj
      rw [← hget (j + 1) y hj]
      congr 2
      omega
    rw [List.length_cons, multicastLoop, hfirst]
    simp only
    rw [Multicast.after_add, ih (i + 1) _ hrest, List.append_assoc, ← List.filter_append]
    rfl

/-- The multicast branch makes at most one call, with what the loop has collected. -/
theorem pack_multicast {env : SendEnv} {P : NetProtocol} {L L' : LuaStack}
    {get : LuaKey → LuaValue} {usedLen : Int} {out : List UInt8} {m : Multicast}
    (hdest : stackAt L 1 = .table get) (hcount : 0 < env.objlen get) (halloc : env.alloc = true)
    (hmarshal : P.marshal env.lua L maxToNetd = .ret usedLen out L') (hpos : 0 < usedLen)
    (hloop : multicastLoop env get (env.objlen get) 0 ⟨usedLen, out, 0, 0⟩ = some m) :
    P.pack env L =
      .ret (if 0 < m.c then [⟨m.data, usedLen + m.c * 4, m.c, 1, usedLen⟩] else []) []
        (settop L.length L') := by
  unfold NetProtocol.pack
  simp only [hdest, gt_iff_lt, hcount, if_true, halloc, reduceCtorEq, if_false, hmarshal, hpos, hloop]
  split
  · rfl
  · rfl

/-- **Multicast packing is exact.** With `usedLen` bytes of payload, the valid destinations
that fit behind it are sent in one call, in the list's order, and there is no call if there
is none of them. -/
theorem multicast_exact (env : SendEnv) (P : NetProtocol) (hP : P.Built env.lua) (L : LuaStack)
    (get : LuaKey → LuaValue) (xs : List Int) (usedLen : Int) (out : List UInt8) (L' : LuaStack)
    (hdest : stackAt L 1 = .table get) (hxs : xs ≠ [])
    (hget : ∀ (i : Nat) (x : Int), xs[i]? = some x → get (.index (i + 1)) = .ofInt x)
    (hobjlen : env.objlen get = xs.length) (halloc : env.alloc = true)
    (hmarshal : P.marshal env.lua L maxToNetd = .ret usedLen out L') (hpos : 0 < usedLen)
    (hused : usedLen ≤ maxToNetd) :
    let valid := (xs.map fun x : Int => env.integerVfd (.finite x)).filter (vfdNull < ·)
    let k := min valid.length ((maxToNetd - usedLen) / 4).toNat
    P.pack env L =
      .ret (if 0 < k then
        [⟨out ++ (valid.take k).flatMap vfdBytes, usedLen + 4 * k, k, 1, usedLen⟩] else []) [] L ∧
    (out.length : Int) = usedLen ∧ usedLen + 4 * k ≤ maxToNetd := by
  intro valid k
  obtain ⟨ds, hds⟩ := hP.argTypes
  obtain ⟨hlen, rfl⟩ := marshal_ret hds hmarshal
  have hloop := multicastLoop_after env usedLen out xs 0 [] fun j x hj => by
    rw [Nat.zero_add]
    exact hget j x hj
  have hstart : Multicast.after usedLen out [] = ⟨usedLen, out, 0, 0⟩ := by
    simp [Multicast.after]
  rw [hstart, List.nil_append, ← hobjlen] at hloop
  have htake : valid.take (multicastRoom usedLen) = valid.take k := by
    rw [List.take_eq_take_iff]
    unfold multicastRoom
    omega
  have hcount : 0 < env.objlen get := by
    rw [hobjlen]
    exact List.length_pos_iff.mpr hxs
  refine ⟨?_, hlen.symm, by omega⟩
  rw [pack_multicast hdest hcount halloc hmarshal hpos hloop, settop_self, Int.mul_comm]
  change CFunOut.ret (if 0 < k then
    [⟨out ++ (valid.take (multicastRoom usedLen)).flatMap vfdBytes, usedLen + 4 * k, k, 1, usedLen⟩]
    else []) [] _ = _
  rw [htake]

/-- Lua on x86, with buffers to be had. -/
def x86SendEnv (upvalue : Nat → Option (LuaValue × Option NetProtocol)) : SendEnv where
  lua := .x86
  castVfd := Lua.x86.number2int
  castVfd_exact := Lua.x86.number2int_exact
  integerVfd := Lua.x86.number2int
  integerVfd_exact := Lua.x86.number2int_exact
  objlen := objlen
  alloc := true
  upvalue := upvalue

/-- The list `{200001, 5}`. -/
def twoDestinations (key : LuaKey) : LuaValue :=
  if key = .index 1 then .ofInt 200001 else if key = .index 2 then .ofInt 5 else .nil

/-- The list `{7}`. -/
def oneNumber (key : LuaKey) : LuaValue := if key = .index 1 then .ofInt 7 else .nil

/-- One of the two destinations is valid. -/
theorem multicast_exact_two :
    (numbersProtocol 1).pack (x86SendEnv fun _ => none)
        [.table oneNumber, .table twoDestinations] =
      .ret [⟨[1, 2, 7] ++ vfdBytes 200001, 7, 1, 1, 3⟩] []
        [.table oneNumber, .table twoDestinations] := by
  have hmarshal : (numbersProtocol 1).marshal .x86 [.table oneNumber, .table twoDestinations]
      maxToNetd = .ret 3 [1, 2, 7] [.table oneNumber, .table twoDestinations] := by
    rfl
  have hvalid : ([200001, 5].map fun x : Int => Lua.x86.number2int (.finite x)).filter
      (vfdNull < ·) = [200001] := by
    rw [List.map_cons, List.map_singleton, Lua.x86.number2int_exact 200001 (by omega) (by omega),
      Lua.x86.number2int_exact 5 (by omega) (by omega)]
    rfl
  have hget : ∀ (i : Nat) (x : Int), [200001, 5][i]? = some x →
      twoDestinations (.index (i + 1)) = .ofInt x := by
    intro i x hx
    match i with
    | 0 => cases hx; rfl
    | 1 => cases hx; rfl
    | i + 2 => cases hx
  have h := (multicast_exact (x86SendEnv fun _ => none) (numbersProtocol 1)
    (numbersProtocol_built .x86 (by omega)) [.table oneNumber, .table twoDestinations]
    twoDestinations [200001, 5] 3 [1, 2, 7] _ rfl (by simp) hget rfl rfl hmarshal (by omega)
    (by decide)).1
  have henv : (x86SendEnv fun _ => none).integerVfd = Lua.x86.number2int := rfl
  rw [henv, hvalid] at h
  exact h

/-! ## Arguments of both ways -/

/-- A value that no packer takes. -/
def Unusable : LuaValue → Prop
  | .nil => True
  | .other _ => True
  | _ => False

theorem ArgTree.encode_unusable (lua : Lua) (d : ArgTree) {v : LuaValue} (hv : Unusable v)
    (n : Int) : d.encode lua v n = .error .raise := by
  cases v with
  | nil => cases d <;> rfl
  | other tag => cases d <;> rfl
  | number x => exact absurd hv id
  | string s => exact absurd hv id
  | table get => exact absurd hv id

/-- Arguments are encoded alike if they are the same or unusable both times. -/
theorem argFields_encode_congr (lua : Lua) {get get' : LuaKey → LuaValue} (ds : List ArgTree)
    (i : Nat) (h : ∀ j, i ≤ j → get (.index j) = get' (.index j) ∨
      Unusable (get (.index j)) ∧ Unusable (get' (.index j))) :
    (argFields ds i).encode lua get = (argFields ds i).encode lua get' := by
  induction ds generalizing i with
  | nil => rfl
  | cons d ds ih =>
    have hrest := ih (i + 1) fun j hj => h j (by omega)
    have hfirst : (fun n => (d.encode lua (get (.index i)) n).nonempty) =
        fun n => (d.encode lua (get' (.index i)) n).nonempty := by
      obtain heq | ⟨hget, hget'⟩ := h i le_rfl
      · rw [heq]
      · funext n
        rw [d.encode_unusable lua hget, d.encode_unusable lua hget']
    funext n
    rw [argFields, FieldTree.encode, FieldTree.encode, hfirst, hrest]

/-- The stack of a call: the first argument at the bottom. -/
def callStack (first : LuaValue) (args : List LuaValue) : LuaStack := args.reverse ++ [first]

theorem stackAt_callStack (first : LuaValue) (args : List LuaValue) :
    stackAt (callStack first args) 1 = first := by
  simp [stackAt, callStack]

/-- The arguments after the first one, `nil` behind the last. -/
theorem stackArgs_callStack (first : LuaValue) (args : List LuaValue) (j : Nat) :
    stackArgs (callStack first args) (.index (j + 1)) = (args[j]?).getD .nil := by
  simp [stackArgs_index, stackAt, callStack]

/-- The upvalue that `lua_getupvalue` pushes takes the place behind the last argument. -/
theorem stackArgs_pushed (top first : LuaValue) (args : List LuaValue) (j : Nat) :
    stackArgs (top :: callStack first args) (.index (j + 1)) = ((args ++ [top])[j]?).getD .nil := by
  simp [stackArgs_index, stackAt, callStack]

theorem encode_pushed (lua : Lua) (ds : List ArgTree) (upvalue : Nat) (first first' : LuaValue)
    (args : List LuaValue) :
    (argFields ds 1).encode lua (stackArgs (.other upvalue :: callStack first args)) =
      (argFields ds 1).encode lua (stackArgs (callStack first' args)) := by
  refine argFields_encode_congr lua ds 1 fun j hj => ?_
  obtain ⟨j, rfl⟩ := Nat.exists_eq_add_of_le' hj
  rw [stackArgs_callStack, stackArgs_pushed]
  by_cases hlt : j < args.length
  · exact .inl (by rw [List.getElem?_append_left hlt])
  · have hmissing : args[j]? = none := List.getElem?_eq_none (by omega)
    right
    rw [List.getElem?_append_right (by omega), hmissing]
    refine ⟨?_, trivial⟩
    cases j - args.length with
    | zero => trivial
    | succ k => trivial

/-! ## Packed in advance -/

/-- The calls of `s_data_sender` that a C function of Lua makes; none with a Lua error. -/
def CFunOut.sent : CFunOut → Option (List SendCall)
  | .raise => some []
  | .fault => none
  | .ret sent _ _ => some sent

/-- The direct call `for_caller.f(vfd, args)`. -/
def directSent (env : SendEnv) (P : NetProtocol) (x : LuaNumber) (args : List LuaValue) :
    Option (List SendCall) :=
  (P.pack env (callStack (.number x) args)).sent

/-- `pack_protocol(f, args)` and then `send_pack_data(vfd, result)`. -/
def prepackedSent (env : SendEnv) (stub : Nat) (x : LuaNumber) (args : List LuaValue) :
    Option (List SendCall) :=
  match ProtoManager.packProtocol env (callStack (.other stub) args) with
  | .raise => some []
  | .fault => none
  | .ret sent results _ =>
    (ProtoManager.sendPackData env (callStack (.number x) results)).sent.map (sent ++ ·)

/-- The arguments are refused with a Lua error: one of them is no value of its type or does
not fit behind the others. -/
def ArgsRefused (lua : Lua) (P : NetProtocol) (ds : List ArgTree) (args : List LuaValue) : Prop :=
  ∃ e, (argFields ds 1).encode lua (stackArgs (callStack .nil args))
    (maxToNetd - P.header.length) = .error e ∧ e ≠ .fault

/-- What `send_pack_data` does with a string. -/
theorem sendPackData_string {env : SendEnv} (halloc : env.alloc = true) (x : LuaNumber)
    (data : List UInt8) :
    ProtoManager.sendPackData env (callStack (.number x) [.string data]) =
      if data.length = 0 then .ret [] [] (callStack (.number x) [.string data])
      else if (data.length : Int) ≤ maxToNetd then
        .ret [⟨data, data.length, env.castVfd x, 0, 0⟩] [] (callStack (.number x) [.string data])
      else .fault := by
  have hfirst : stackAt (callStack (.number x) [.string data]) 1 = .number x := rfl
  have hsecond : stackAt (callStack (.number x) [.string data]) 2 = .string data := rfl
  simp only [ProtoManager.sendPackData, hfirst, hsecond, Lua.checknumber, Lua.checklstring, halloc,
    reduceCtorEq, if_false]

section Prepacked

variable {env : SendEnv} {P : NetProtocol} {ds : List ArgTree} {stub upvalue : Nat}

/-- The calls for some arguments, whatever the destination is. -/
def packedSent (env : SendEnv) (P : NetProtocol) (ds : List ArgTree) (x : LuaNumber)
    (args : List LuaValue) : Option (List SendCall) :=
  match (argFields ds 1).encode env.lua (stackArgs (callStack .nil args))
    (maxToNetd - P.header.length) with
  | .ok bytes => some [⟨P.header ++ bytes, (P.header ++ bytes).length, env.castVfd x, 0, 0⟩]
  | .error .fault => none
  | .error _ => some []

/-- The arguments do not depend on what stands before them. -/
theorem encode_callStack (lua : Lua) (ds : List ArgTree) (first first' : LuaValue)
    (args : List LuaValue) :
    (argFields ds 1).encode lua (stackArgs (callStack first args)) =
      (argFields ds 1).encode lua (stackArgs (callStack first' args)) := by
  refine argFields_encode_congr lua ds 1 fun j hj => .inl ?_
  obtain ⟨j, rfl⟩ := Nat.exists_eq_add_of_le' hj
  rw [stackArgs_callStack, stackArgs_callStack]

/-- The direct call drops the null destinations. -/
theorem directSent_eq (halloc : env.alloc = true) (hds : P.ArgTypes ds) (hid : P.id ≠ 0)
    (x : LuaNumber) (args : List LuaValue) :
    directSent env P x args =
      if vfdNull ≥ env.castVfd x then some [] else packedSent env P ds x args := by
  unfold directSent NetProtocol.pack
  simp only [stackAt_callStack, halloc, reduceCtorEq, if_false]
  by_cases hnull : vfdNull ≥ env.castVfd x
  · rw [if_pos hnull, if_pos hnull]
    rfl
  rw [if_neg hnull, if_neg hnull, marshal_eq env.lua hds hid,
    encode_callStack env.lua ds (.number x) .nil args, packedSent]
  cases (argFields ds 1).encode env.lua (stackArgs (callStack .nil args))
    (maxToNetd - P.header.length) with
  | error e => cases e <;> rfl
  | ok bytes =>
    have hpos : (P.header.length : Int) + bytes.length > 0 := by
      have := P.length_header
      omega
    simp [hpos, CFunOut.sent]

/-- What is packed fits into the packet. -/
theorem length_packed (lua : Lua) (hds : P.ArgTypes ds) {get : LuaKey → LuaValue}
    {bytes : List UInt8}
    (h : (argFields ds 1).encode lua get (maxToNetd - P.header.length) = .ok bytes) :
    ((P.header ++ bytes).length : Int) ≤ maxToNetd := by
  have hheader := P.length_header
  have hroom : 0 ≤ maxToNetd - P.header.length := by
    unfold maxToNetd
    omega
  have hint : maxToNetd - P.header.length < 2147483648 := by
    unfold maxToNetd
    omega
  have hfits := ((FieldTree.encode_layout lua _ (argFields_wf hds.2) get _ hroom hint bytes).mp h).2
  rw [List.length_append]
  omega

/-- The call packed in advance does not. -/
theorem prepackedSent_eq (halloc : env.alloc = true) (hds : P.ArgTypes ds) (hid : P.id ≠ 0)
    (hstub : env.upvalue stub = some (.other upvalue, some P)) (x : LuaNumber)
    (args : List LuaValue) :
    prepackedSent env stub x args = packedSent env P ds x args := by
  unfold prepackedSent ProtoManager.packProtocol
  simp only [stackAt_callStack, hstub, halloc, reduceCtorEq, if_false]
  rw [marshal_eq env.lua hds hid, encode_pushed env.lua ds upvalue (.other stub) .nil args,
    packedSent]
  cases hencode : (argFields ds 1).encode env.lua (stackArgs (callStack .nil args))
    (maxToNetd - P.header.length) with
  | error e => cases e <;> rfl
  | ok bytes =>
    have hlen := length_packed env.lua hds hencode
    have hpos : (P.header ++ bytes).length ≠ 0 := by
      have := P.length_header
      rw [List.length_append]
      omega
    have htake : (P.header ++ bytes).take ((P.header.length : Int) + bytes.length).toNat =
        P.header ++ bytes := by
      rw [List.take_of_length_le]
      rw [List.length_append]
      omega
    simp only [htake]
    rw [sendPackData_string halloc, if_neg hpos, if_pos hlen]
    rfl

/-- Sending in advance agrees with sending directly exactly if the destination is valid or
nothing is packed. -/
theorem prepackedSent_eq_directSent (halloc : env.alloc = true) (hds : P.ArgTypes ds)
    (hid : P.id ≠ 0) (hstub : env.upvalue stub = some (.other upvalue, some P)) (x : LuaNumber)
    (args : List LuaValue) :
    prepackedSent env stub x args = directSent env P x args ↔
      vfdNull < env.castVfd x ∨ ArgsRefused env.lua P ds args := by
  rw [prepackedSent_eq halloc hds hid hstub, directSent_eq halloc hds hid]
  by_cases hnull : vfdNull ≥ env.castVfd x
  · rw [if_pos hnull, or_iff_right (by omega), packedSent, ArgsRefused]
    cases (argFields ds 1).encode env.lua (stackArgs (callStack .nil args))
      (maxToNetd - P.header.length) with
    | error e => cases e <;> simp
    | ok bytes => simp
  · rw [if_neg hnull]
    exact iff_of_true rfl (.inl (by omega))

end Prepacked

/-- A string is copied behind the end of the buffer exactly if it is longer. -/
theorem sendPackData_inside {env : SendEnv} (halloc : env.alloc = true) (x : LuaNumber)
    (data : List UInt8) :
    ProtoManager.sendPackData env (callStack (.number x) [.string data]) ≠ .fault ↔
      (data.length : Int) ≤ maxToNetd := by
  rw [sendPackData_string halloc]
  by_cases hempty : data.length = 0
  · rw [if_pos hempty]
    exact iff_of_true nofun (by unfold maxToNetd; omega)
  rw [if_neg hempty]
  by_cases hfits : (data.length : Int) ≤ maxToNetd
  · rw [if_pos hfits]
    exact iff_of_true nofun hfits
  · rw [if_neg hfits]
    exact iff_of_false (fun h => h rfl) hfits

/-- **When packing in advance is like sending directly**, for the stub of any protocol that
`arglist_proc` can build and any arguments; and which strings `send_pack_data` copies without
writing behind its buffer. -/
theorem prepacked_agrees_iff (env : SendEnv) (halloc : env.alloc = true) :
    (∀ P : NetProtocol, P.Built env.lua → ∃ ds, P.ArgTypes ds) ∧
      (∀ (P : NetProtocol) (ds : List ArgTree) (stub upvalue : Nat), P.ArgTypes ds → P.id ≠ 0 →
        env.upvalue stub = some (.other upvalue, some P) →
        ∀ (x : LuaNumber) (args : List LuaValue),
          prepackedSent env stub x args = directSent env P x args ↔
            vfdNull < env.castVfd x ∨ ArgsRefused env.lua P ds args) ∧
      ∀ (x : LuaNumber) (data : List UInt8),
        ProtoManager.sendPackData env (callStack (.number x) [.string data]) ≠ .fault ↔
          (data.length : Int) ≤ maxToNetd := by
  refine ⟨fun P hP => hP.argTypes env.lua, ?_, fun x data => sendPackData_inside halloc x data⟩
  intro P ds stub upvalue hds hid hstub x args
  exact prepackedSent_eq_directSent halloc hds hid hstub x args

/-- Every function is a stub of a protocol with an array of one number. -/
def numbersEnv : SendEnv := x86SendEnv fun _ => some (.other 0, some (numbersProtocol 1))

/-- A valid destination, and a string of one byte. -/
theorem prepacked_agrees_iff_valid :
    prepackedSent numbersEnv 0 (.finite (200001 : Int)) [.table oneNumber] =
        directSent numbersEnv (numbersProtocol 1) (.finite (200001 : Int)) [.table oneNumber] ∧
      ProtoManager.sendPackData numbersEnv (callStack (.number .nan) [.string [1]]) ≠ .fault := by
  obtain ⟨-, hagree, hinside⟩ := prepacked_agrees_iff numbersEnv rfl
  refine ⟨(hagree _ _ 0 0 (numbersProtocol_argTypes 1) (by decide) rfl _ _).mpr (.inl ?_),
    (hinside .nan [1]).mpr (by decide)⟩
  rw [numbersEnv.castVfd_exact 200001 (by omega) (by omega)]
  decide

/-- **`send_pack_data` filters neither destinations nor lengths.** A packed protocol is sent to
the null destination 7, and a string of 32769 bytes is copied. -/
theorem prepacked_disagrees :
    (¬ ∀ (env : SendEnv) (P : NetProtocol) (stub upvalue : Nat), env.alloc = true →
      P.Built env.lua → P.id ≠ 0 → env.upvalue stub = some (.other upvalue, some P) →
      ∀ (vfd : Int) (args : List LuaValue),
        prepackedSent env stub (.finite vfd) args = directSent env P (.finite vfd) args) ∧
    ¬ ∀ (env : SendEnv) (x : LuaNumber) (data : List UInt8), env.alloc = true →
      ProtoManager.sendPackData env (callStack (.number x) [.string data]) ≠ .fault := by
  constructor
  · intro h
    have hagree := h numbersEnv (numbersProtocol 1) 0 0 rfl (numbersProtocol_built _ (by decide))
      (by decide) rfl 7 [.table oneNumber]
    obtain hvalid | ⟨e, hrefused, -⟩ := (prepackedSent_eq_directSent rfl
      (numbersProtocol_argTypes 1) (by decide) rfl _ _).mp hagree
    · rw [numbersEnv.castVfd_exact 7 (by omega) (by omega)] at hvalid
      revert hvalid
      decide
    · have hencode : (argFields [.array .number 1] 1).encode .x86
          (stackArgs (callStack .nil [.table oneNumber]))
          (maxToNetd - (numbersProtocol 1).header.length) = .ok [2, 7] := by
        rfl
      rw [show numbersEnv.lua = .x86 from rfl, hencode] at hrefused
      cases hrefused
  · intro h
    have hlong := (sendPackData_inside rfl .nan (List.replicate 32769 0)).mp
      (h numbersEnv .nan (List.replicate 32769 0) rfl)
    rw [List.length_replicate] at hlong
    revert hlong
    decide

end Donkeyji.Mydb
