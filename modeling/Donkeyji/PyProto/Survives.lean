/-
Donkeyji.PyProto.Survives — which dictionaries a protocol description admits, and
which of them come back from their text.

`conforms` is what a caller of `proto.pack` has to give. The three separators
serve every level of nesting, so a text loses what they should have kept apart:
`shape` says that nothing of the kind is there, `emptiesOk` is about the empty
dictionary, whose text reads as an entry with an empty key.
-/
import Donkeyji.PyProto.Proto

namespace Donkeyji.PyProto

/-- One of the four separators. -/
def isSep (c : Char) : Bool := c ∈ [listSep, dictSep, kvSep, idSep]

/-- A text without separators. -/
def plain (s : Str) : Bool := s.all fun c => !isSep c

section

/-- Comparing keys is deciding their equality, by a proof that has a name. -/
theorem lawfulBEq_str : LawfulBEq Str := inferInstance

attribute [local instance] lawfulBEq_str

mutual

/-- The value has the type: an `int`, a `str` without separators or a record. -/
def Value.conforms (types : Types) : Fmt → Value → Bool
  | .int, .int _ => true
  | .str, .str s => plain s
  | .user name, .dict d =>
    match types name with
    | none => false
    | some args => d.conforms types args
  | _, _ => false

/-- All items have the type. -/
def Items.conforms (types : Types) (fmt : Fmt) : Items → Bool
  | .nil => true
  | .cons v vs => v.conforms types fmt && vs.conforms types fmt

/-- The keys are different, have no separators and are described, and each value has
the type of its parameter. -/
def Dict.conforms (types : Types) (args : Params) : Dict → Bool
  | .nil => true
  | .cons k (.list vs) d =>
    plain k && k ∉ d.keys && d.conforms types args &&
      match args k with
      | none => false
      | some p => p.isList && vs.conforms types p.fmt
  | .cons k v d =>
    plain k && k ∉ d.keys && d.conforms types args &&
      match args k with
      | none => false
      | some p => !p.isList && v.conforms types p.fmt

end

end

mutual

/-- No list is empty, no record has more than one entry, and a list that is inside of
an item of a list has one item only. -/
def Value.shape (inList : Bool) : Value → Bool
  | .list vs => 1 ≤ vs.length && (!inList || vs.length ≤ 1) && vs.shape
  | .dict d => d.length ≤ 1 && d.shape inList
  | _ => true

/-- The items of a list have the shape. -/
def Items.shape : Items → Bool
  | .nil => true
  | .cons v vs => v.shape true && vs.shape

/-- The values of a dictionary have the shape; the dictionary itself may have any number
of entries. -/
def Dict.shape (inList : Bool) : Dict → Bool
  | .nil => true
  | .cons _ v d => v.shape inList && d.shape inList

end

/-- The empty dictionary, where no parameter has the empty name. -/
def Dict.emptyOk (params : Params) (d : Dict) : Bool := 1 ≤ d.length || (params []).isNone

mutual

/-- Every record below is `emptyOk`. -/
def Value.emptiesOk (types : Types) : Fmt → Value → Bool
  | .user name, .dict d =>
    match types name with
    | none => true
    | some params => d.emptyOk params && d.emptiesOk types params
  | _, _ => true

/-- Every record in the items is `emptyOk`. -/
def Items.emptiesOk (types : Types) (fmt : Fmt) : Items → Bool
  | .nil => true
  | .cons v vs => v.emptiesOk types fmt && vs.emptiesOk types fmt

/-- Every record in the values is `emptyOk`. -/
def Dict.emptiesOk (types : Types) (params : Params) : Dict → Bool
  | .nil => true
  | .cons k (.list vs) d =>
    d.emptiesOk types params &&
      match params k with
      | none => true
      | some p => vs.emptiesOk types p.fmt
  | .cons k v d =>
    d.emptiesOk types params &&
      match params k with
      | none => true
      | some p => v.emptiesOk types p.fmt

end

/-- A dictionary that comes back from its text. -/
def Dict.survives (types : Types) (params : Params) (d : Dict) : Bool :=
  d.shape false && d.emptyOk params && d.emptiesOk types params

/-! ## One parameter

The cases of a list and of a single value, put together again. -/

/-- The text of a value of a parameter. -/
def param2str (types : Types) (order : List (Str × Str) → List (Str × Str)) (p : Param)
    (v : Value) : Option Str :=
  if p.isList then
    match v with
    | .list vs => (listItems types order p.fmt vs).map strlist2str
    | _ => none
  else type2str types order p.fmt v

/-- The value has the type of the parameter. -/
def Param.admits (types : Types) (p : Param) (v : Value) : Bool :=
  if p.isList then
    match v with
    | .list vs => vs.conforms types p.fmt
    | _ => false
  else v.conforms types p.fmt

/-- Every record below a value of the parameter is `emptyOk`. -/
def Param.emptiesOk (types : Types) (p : Param) (v : Value) : Bool :=
  match v with
  | .list vs => vs.emptiesOk types p.fmt
  | v => v.emptiesOk types p.fmt

theorem packDict_cons {types : Types} {order : List (Str × Str) → List (Str × Str)}
    {args : Params} {k : Str} {v : Value} {d : Dict} {p : Param} (hp : args k = some p) :
    packDict types order args (.cons k v d) =
      (param2str types order p v).bind fun str =>
        (packDict types order args d).map fun strDct => (k, str) :: strDct := by
  cases v with
  | list vs =>
    simp only [packDict, hp, param2str]
    cases p.isList with
    | true =>
      cases listItems types order p.fmt vs with
      | none => rfl
      | some strList => cases packDict types order args d <;> rfl
    | false =>
      cases hfmt : p.fmt <;> rfl
  | int | float | str | dict =>
    simp only [packDict, hp, param2str]
    cases p.isList with
    | true => rfl
    | false =>
      simp only [Bool.false_eq_true, if_false]
      cases type2str types order p.fmt _ with
      | none => rfl
      | some str => cases packDict types order args d <;> rfl

/-- The value has the type of the parameter, as `Dict.conforms` tests it. -/
theorem conforms_cons_eq {types : Types} {args : Params} {k : Str} {v : Value} {d : Dict} :
    Dict.conforms types args (.cons k v d) =
      (plain k && k ∉ d.keys && d.conforms types args &&
        match args k with
        | none => false
        | some p => p.admits types v) := by
  cases v with
  | list vs =>
    rw [Dict.conforms]
    cases args k with
    | none => rfl
    | some p =>
      cases hlist : p.isList with
      | true => simp only [Param.admits, hlist, Bool.true_and, if_true]
      | false =>
        have hno : Value.conforms types p.fmt (.list vs) = false := by
          cases p.fmt <;> rfl
        simp only [Param.admits, hlist, Bool.false_and, Bool.false_eq_true, if_false, hno]
  | int | float | str | dict =>
    rw [Dict.conforms]
    · cases args k with
      | none => rfl
      | some p =>
        cases hlist : p.isList with
        | true => simp only [Param.admits, hlist, Bool.not_true, Bool.false_and, if_true]
        | false =>
          simp only [Param.admits, hlist, Bool.not_false, Bool.true_and, Bool.false_eq_true, if_false]
    · exact nofun

theorem conforms_cons {types : Types} {args : Params} {k : Str} {v : Value} {d : Dict} :
    Dict.conforms types args (.cons k v d) = true ↔
      plain k = true ∧ k ∉ d.keys ∧ d.conforms types args = true ∧
        ∃ p, args k = some p ∧ p.admits types v = true := by
  rw [conforms_cons_eq]
  cases args k with
  | none => simp
  | some p => simp [and_assoc]

theorem emptiesOk_cons {types : Types} {params : Params} {k : Str} {v : Value} {d : Dict}
    {p : Param} (hp : params k = some p) :
    Dict.emptiesOk types params (.cons k v d) =
      (d.emptiesOk types params && p.emptiesOk types v) := by
  cases v with
  | list | int | float | str | dict => simp only [Dict.emptiesOk, hp, Param.emptiesOk]

end Donkeyji.PyProto
