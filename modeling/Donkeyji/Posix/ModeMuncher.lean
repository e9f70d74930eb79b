/-
Donkeyji.Posix.ModeMuncher — mode strings (src/stat/posix/modemuncher.c) and the
Lua functions `umask` and `chmod` that take them (src/stat/posix/lposix.c).

A string is what `luaL_checkstring` gives: its bytes, with a NUL behind them.
`rwxrwxrwx` reads nine characters without looking for the NUL; a read behind it
is `none`. The mode is changed in place, so every result carries it.
-/
import Mathlib.Tactic

namespace Donkeyji.Posix

/-- `mode_t`. -/
abbrev Mode := BitVec 32

/-- `S_ISUID`. -/
def sIsuid : Mode := 0o4000

/-- `S_ISGID`. -/
def sIsgid : Mode := 0o2000

/-- `S_IXUSR`. -/
def sIxusr : Mode := 0o100

/-- `S_IXGRP`. -/
def sIxgrp : Mode := 0o010

/-- `struct modeLookup`. -/
structure ModeLookup where
  rwx : UInt8
  bits : Mode

/-- `modesel`, without its last line, which is never read. -/
def modesel : List ModeLookup :=
  [⟨114, 0o400⟩, ⟨119, 0o200⟩, ⟨120, 0o100⟩, ⟨114, 0o040⟩, ⟨119, 0o020⟩, ⟨120, 0o010⟩,
    ⟨114, 0o004⟩, ⟨119, 0o002⟩, ⟨120, 0o001⟩]

/-! ## `rwxrwxrwx` and `modechopper` -/

/-- `p[i]`. -/
def charAt (p : List UInt8) (i : Nat) : Option UInt8 := (p ++ [0])[i]?

/-- The body of the loop of `rwxrwxrwx`; `none` is a bad change. -/
def rwxChange (count : Nat) (sel : ModeLookup) (c : UInt8) (tmpMode : Mode) : Option Mode :=
  if c = sel.rwx then some (tmpMode ||| sel.bits)
  else if c = 45 then some (tmpMode &&& ~~~sel.bits)
  else if c = 115 then
    if count = 2 then some (tmpMode ||| (sIsuid ||| sIxusr))
    else if count = 5 then some (tmpMode ||| (sIsgid ||| sIxgrp))
    else none
  else some tmpMode

/-- The loop of `rwxrwxrwx` from `count` on. -/
def rwxLoop (p : List UInt8) : Nat → List ModeLookup → Mode → Option (Option Mode)
  | _, [], tmpMode => some (some tmpMode)
  | count, sel :: rest, tmpMode =>
    match charAt p count with
    | none => none
    | some c =>
      match rwxChange count sel c tmpMode with
      | none => some none
      | some tmpMode => rwxLoop p (count + 1) rest tmpMode

/-- `rwxrwxrwx`. -/
def rwxrwxrwx (mode : Mode) (p : List UInt8) : Option (Int × Mode) :=
  (rwxLoop p 0 modesel (mode &&& ~~~(sIsuid ||| sIsgid))).map fun
    | none => (-4, mode)
    | some tmpMode => (0, tmpMode)

/-- `modechopper`. -/
def modechopper (mode : Mode) : List UInt8 :=
  let p := modesel.map fun sel => if mode &&& sel.bits ≠ 0#32 then sel.rwx else 45
  let p := if mode &&& sIsuid ≠ 0#32 then p.set 2 (if mode &&& sIxusr ≠ 0#32 then 115 else 83) else p
  if mode &&& sIsgid ≠ 0#32 then p.set 5 (if mode &&& sIxgrp ≠ 0#32 then 115 else 83) else p

/-! ## `mode_munch` -/

/-- A character of step 1, who is affected; `none` ends the step. -/
def whoBits (c : UInt8) : Option Mode :=
  if c = 117 then some 0o4700
  else if c = 103 then some 0o2070
  else if c = 111 then some 0o1007
  else if c = 97 then some 0o7777
  else if c = 32 then some 0
  else none

/-- A character of step 3, what the changes are; `none` ends the step. -/
def permBits (c : UInt8) : Option Mode :=
  if c = 114 then some 0o444
  else if c = 119 then some 0o222
  else if c = 120 then some 0o111
  else if c = 115 then some 0o6000
  else if c = 32 then some 0
  else none

/-- The loop of steps 1 and 3: the bits, and where it stops. -/
def bitsLoop (charBits : UInt8 → Option Mode) : Mode → List UInt8 → Mode × List UInt8
  | bits, [] => (bits, [])
  | bits, c :: p =>
    match charBits c with
    | some b => bitsLoop charBits (bits ||| b) p
    | none => (bits, c :: p)

/-- Step 2: the new `op`; `none` is a bad operator. -/
def readOp (op c : UInt8) : Option UInt8 :=
  if c = 43 ∨ c = 45 ∨ c = 61 then some c else if c = 32 then some op else none

/-- Step 4: the changes to the mode. -/
def applyChanges (op : UInt8) (chMode affectedBits mode : Mode) : Option Mode :=
  if chMode = 0#32 then some mode
  else if op = 43 then some (mode ||| (chMode &&& affectedBits))
  else if op = 45 then some (mode &&& ~~~(chMode &&& affectedBits))
  else if op = 61 then some (chMode &&& affectedBits)
  else none

/-- The loop of `mode_munch`. -/
def munchLoop : Nat → UInt8 → Mode → List UInt8 → Option (Int × Mode)
  | 0, _, _, _ => none
  | fuel + 1, op, mode, p =>
    if p.head? = some 114 ∨ p.head? = some 45 then rwxrwxrwx mode p
    else
      let (affectedBits, p) := bitsLoop whoBits 0#32 p
      let affectedBits := if affectedBits = 0#32 then 0o7777 else affectedBits
      match readOp op (p.headD 0) with
      | none => some (-1, mode)
      | some op =>
        let (chMode, p) := bitsLoop permBits 0#32 p.tail
        let c := p.headD 0
        if c ≠ 0 ∧ c ≠ 32 ∧ c ≠ 44 then some (-2, mode)
        else
          match applyChanges op chMode affectedBits mode with
          | none => some (-3, mode)
          | some mode => if c = 44 then munchLoop fuel op mode p.tail else some (0, mode)

/-- `mode_munch`. Every turn of its loop takes a character. -/
def modeMunch (mode : Mode) (p : List UInt8) : Option (Int × Mode) :=
  munchLoop (p.length + 1) 0 mode p

/-! ## The Lua functions -/

/-- The system's `umask`: the old mask and the new one. -/
def umask (cmask mask : Mode) : Mode × Mode := (cmask, mask &&& 0o777)

/-- `Pumask`: the string or `nil`, and the mask. -/
def Pumask (cmask : Mode) (arg : Option (List UInt8)) : Option (Option (List UInt8) × Mode) :=
  let (mode, cmask) := umask cmask 0
  let (_, cmask) := umask cmask mode
  let mode := ~~~mode &&& 0o777
  match arg with
  | none => some (some (modechopper mode), cmask)
  | some s =>
    (modeMunch mode s).map fun (r, mode) =>
      if r ≠ 0 then (none, cmask)
      else
        let mode := mode &&& 0o777
        (some (modechopper mode), (umask cmask (~~~mode)).2)

/-- The system's `chmod` on a file whose `st_mode` is `stMode`: the type of the file stays. -/
def chmod (stMode mode : Mode) : Mode := stMode &&& ~~~0o7777#32 ||| mode &&& 0o7777

/-- `Pchmod` on a file that exists and is the caller's, and its group too: the new `st_mode`, or the
error of `luaL_argerror`. -/
def Pchmod (stMode : Mode) (modestr : List UInt8) : Option (Except Unit Mode) :=
  (modeMunch stMode modestr).map fun (r, mode) =>
    if r ≠ 0 then .error () else .ok (chmod stMode mode)

end Donkeyji.Posix
