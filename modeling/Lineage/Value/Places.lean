/-
Lineage.Value.Places — entering values into a heap, and copying what
stands in it.

A value is entered at a path of names into the object at a place; where a
name is missing on the way, a new object takes its place.  What is
entered is found wherever the object is referred to.

A copy of an object copies everything that it holds, down to the scalars,
but every array and object once, however often it is referred to.  So a
copy shares what the original shares, and it is only asked here whether
there is room for the calls that make it (`Heap.copies`).
-/
import Lineage.Value.Graph
import Lineage.Value.Merge

namespace Lineage.Heap

/-! ## Entering -/

/-- Puts a field into the object at a place. -/
def putAt (h : Heap) (n : Nat) (name : Scalar) (r : Ref) : Heap :=
  match h[n]? with
  | some (.fields links) => h.set n (.fields (Keyed.put links name r))
  | _ => h

/-- Enters a value at a path below `depth` names already walked, into the
object at a place. -/
def enterFrom (whole : List Text) (depth : Nat) (h : Heap) (n : Nat) (path : List Text)
    (r : Ref) : Except Crossing Heap :=
  match path with
  | [] => .ok h
  | [name] => .ok (h.putAt n (.text name) r)
  | name :: rest =>
    match (h.links? (.place n)).bind fun links => Keyed.get? links (.text name) with
    | none =>
      enterFrom whole (depth + 1) (h.putAt n (.text name) (.place h.length) ++ [.fields []])
        h.length rest r
    | some (.place m) =>
      if (h.links? (.place m)).isSome then enterFrom whole (depth + 1) h m rest r
      else .error ⟨whole, depth + 1⟩
    | some (.scalar _) => .error ⟨whole, depth + 1⟩

/-- Enters a value at a path of names, making the objects on the way. -/
def enter (h : Heap) (n : Nat) (path : List Text) (r : Ref) : Except Crossing Heap :=
  enterFrom path 0 h n path r

/-! ## Copying -/

/-- Visits references one after the other, each with the places that have
been visited. -/
def visitAll (visit : List Nat → Ref → Option (List Nat)) :
    List Nat → List Ref → Option (List Nat)
  | seen, [] => some seen
  | seen, r :: rest =>
    match visit seen r with
    | none => none
    | some seen => visitAll visit seen rest

/-- Visits what is referred to, unless it has been visited: the places
visited then, if there is room for the calls. -/
def visit (h : Heap) : Nat → List Nat → Ref → Option (List Nat)
  | _, seen, .scalar _ => some seen
  | room, seen, .place n =>
    if seen.contains n then some seen
    else
      match room, h[n]? with
      | 0, _ => none
      | room + 1, some (.items _ parts) => visitAll (h.visit room) (n :: seen) parts
      | room + 1, some (.fields links) => visitAll (h.visit room) (n :: seen) links.values
      | _ + 1, none => some seen

/-- There is room for the calls that copy an object with all that it
holds. -/
def copies (h : Heap) : Nat → Links → Bool
  | 0, _ => false
  | room + 1, links => (visitAll (h.visit room) [] links.values).isSome

end Lineage.Heap
