/-
Lineage.Command.Override — settings given on a command line.

An override is a dotted path, an equals sign and a value, which is a
document or else plain text.  Overrides are entered into a mapping one
after the other: at the end of its path an override is laid over what is
there, and on the way anything that is no mapping gives way.  Mappings
are laid over one another one call within another (`overlays`).
-/
import Lineage.Command.Arguments
import Lineage.Config.Variables

namespace Lineage

/-- A value for a path of settings. -/
structure Override where
  path : List Text
  value : Value

namespace Override

/-- The names between points, without the blanks around them; blank ones
do not count. -/
def names (t : Text) : List Text :=
  ((Text.partsAt (.char '.') t).map Text.strip).filter fun name => !name.isEmpty

section Parsing

variable [Stack]

/-- Reads an override from an argument. -/
def parse (argument : Text) : Except Failure Override :=
  match splitAtEquals argument with
  | none => .error (.overrideWithoutValue argument)
  | some (dotted, raw) =>
    match names dotted with
    | [] => .error .overrideWithoutKey
    | path =>
      match Variables.decode .readOverride raw with
      | .error fault => .error (.json fault)
      | .ok value => .ok ⟨path, value⟩

/-- Reads overrides; the first that is none decides. -/
def parseAll : List Text → Except Failure (List Override)
  | [] => .ok []
  | argument :: rest =>
    match parse argument with
    | .error failure => .error failure
    | .ok o => (parseAll rest).map (o :: ·)

end Parsing

/-- An override as a document value: mappings along its path. -/
def toValue (o : Override) : Value :=
  nest o.path o.value

/-- Lays a value over what is at a path. -/
def enterAt (fields : Fields) (path : List Text) (value : Value) : Fields :=
  match path with
  | [] => fields
  | [name] =>
    Keyed.put fields (.text name)
      (match Keyed.get? fields (.text name) with
        | some below => below.overlay value
        | none => value)
  | name :: rest =>
    let inner := match Keyed.get? fields (.text name) with
      | some (.object inner) => inner
      | _ => []
    Keyed.put fields (.text name) (.object (enterAt inner rest value))

/-- Enters an override. -/
def enter (fields : Fields) (o : Override) : Fields :=
  enterAt fields o.path o.value

/-- The settings that overrides come to. -/
def mergeAll (os : List Override) : Fields :=
  os.foldl enter []

/-! ## Room for the calls -/

/-- There is room for the calls that lay fields over fields. -/
def overlays : Nat → Fields → Fields → Bool
  | 0, _, _ => false
  | room + 1, lower, upper =>
    upper.all fun (name, v) =>
      match Keyed.get? lower name, v with
      | some (.object below), .object above => overlays room below above
      | _, _ => true

/-- Lays overrides over settings, one after the other, if there is room
for the calls. -/
def layOver [Stack] (fields : Fields) : List Override → Except Failure Fields
  | [] => .ok fields
  | o :: rest =>
    if overlays (Stack.room .overlay) fields (o.toValue.fields?.getD []) then
      layOver (enter fields o) rest
    else .error (.tooDeep .overlay)

end Override

end Lineage
