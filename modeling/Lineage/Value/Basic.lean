/-
Lineage.Value.Basic — document values, as JSON and YAML files, variables
and command lines hold them.

The fields of an object keep the order in which they were written;
readers enter every name once (`Keyed.ofPairs`).
-/
import Lineage.Value.Scalar

namespace Lineage

/-- A document value. -/
inductive Value where
  | scalar (s : Scalar)
  | array (items : List Value)
  | object (fields : List (Scalar × Value))
  deriving Inhabited, Repr

/-- The fields of an object, in order. -/
abbrev Fields := Keyed Scalar Value

namespace Value

/-- The value null. -/
@[match_pattern] abbrev null : Value := .scalar .null

/-- A flag. -/
@[match_pattern] abbrev bool (b : Bool) : Value := .scalar (.bool b)

/-- A whole number. -/
@[match_pattern] abbrev int (i : Int) : Value := .scalar (.int i)

/-- A double. -/
@[match_pattern] abbrev float (x : Double) : Value := .scalar (.float x)

/-- A text. -/
@[match_pattern] abbrev text (t : Text) : Value := .scalar (.text t)

/-- The word that messages use for the kind of a value. -/
def kindWord : Value → String
  | .scalar s => s.kindWord
  | .array _ => "list"
  | .object _ => "dict"

/-- A scalar that says nothing, and arrays and objects without parts,
say nothing. -/
def saysNothing : Value → Bool
  | .scalar s => s.saysNothing
  | .array items => items.isEmpty
  | .object fields => fields.isEmpty

/-- The value is null. -/
def isNull : Value → Bool
  | .null => true
  | _ => false

/-- The fields of an object. -/
def fields? : Value → Option Fields
  | .object fields => some fields
  | _ => none

/-- The value of a field of an object. -/
def get? (v : Value) (name : Scalar) : Option Value :=
  match v with
  | .object fields => Keyed.get? fields name
  | _ => none

/-- The value that the names of a path lead to. -/
def at? : Value → List Scalar → Option Value
  | v, [] => some v
  | v, name :: path =>
    match v.get? name with
    | some w => w.at? path
    | none => none

end Value

end Lineage
