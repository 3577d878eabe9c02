/-
Lineage.Value.Merge — laying one object over another, and entering a
value at a path of names.

* `merge` lays the fields of one object over those of another: where
  both hold an object the two are merged, elsewhere the upper value
  stands.
* `Value.overlay` is the same operation on values that may be anything.
* `setPath` enters a value at a path, making the objects on the way; it
  does not pass through a value that is no object.
-/
import Lineage.Value.Basic

namespace Lineage

mutual

/-- Lays a value over another: objects are merged, anything else is
replaced. -/
def Value.overlay (below : Value) : Value → Value
  | .object upper =>
    match below with
    | .object lower => .object (mergeFields lower upper)
    | _ => .object upper
  | upper => upper

/-- Lays fields over fields, one after the other. -/
def mergeFields (lower : Fields) : List (Scalar × Value) → Fields
  | [] => lower
  | (name, upper) :: rest =>
    mergeFields
      (Keyed.put lower name
        (match Keyed.get? lower name with
          | some below => Value.overlay below upper
          | none => upper))
      rest

end

/-- Lays the fields of an object over those of another. -/
def merge (lower upper : Fields) : Fields :=
  mergeFields lower upper

/-- Nests a value under a path of names. -/
def nest (path : List Text) (value : Value) : Value :=
  path.foldr (fun name inner => .object [(.text name, inner)]) value

/-- A path that runs into a value that is no object: the whole path, and
how many of its names lead there. -/
structure Crossing where
  path : List Text
  depth : Nat
  deriving DecidableEq, Repr

/-- Enters a value at a path below `depth` names already walked. -/
def setPathFrom (whole : List Text) (depth : Nat) (fields : Fields)
    (path : List Text) (value : Value) : Except Crossing Fields :=
  match path with
  | [] => .ok fields
  | [name] => .ok (Keyed.put fields (.text name) value)
  | name :: rest =>
    match Keyed.get? fields (.text name) with
    | none =>
      (setPathFrom whole (depth + 1) [] rest value).map fun inner =>
        Keyed.put fields (.text name) (.object inner)
    | some (.object inner) =>
      (setPathFrom whole (depth + 1) inner rest value).map fun inner =>
        Keyed.put fields (.text name) (.object inner)
    | some _ => .error ⟨whole, depth + 1⟩

/-- Enters a value at a path of names, making the objects on the way. -/
def setPath (fields : Fields) (path : List Text) (value : Value) :
    Except Crossing Fields :=
  setPathFrom path 0 fields path value

theorem merge_nil (lower : Fields) : merge lower [] = lower := by
  simp [merge, mergeFields]

end Lineage
