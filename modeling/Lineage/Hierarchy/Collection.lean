/-
Lineage.Hierarchy.Collection — the working set of groups below one head.

Every member but the head itself lists the head among its references
when it is added.  `nextLevel` is the layering rule: which members sit
directly below the last group of a path.
-/
import Lineage.Hierarchy.Tree
import Lineage.Hierarchy.Fault

namespace Lineage

universe u

/-- A collection: the head, and the other members in the order in which
they were added.  `head` is the short id that the head had when the
collection was made. -/
structure Collection (α : Type u) where
  head : Text
  headElement : α
  others : List α
  maxDepth : Int
  deriving Repr

namespace Collection

variable {α : Type u}

/-- A collection of the head alone; the greatest depth is positive. -/
def make? [Grouped α] (headElement : α) (maxDepth : Int) : Option (Collection α) :=
  if maxDepth < 1 then none
  else some ⟨Grouped.shortId headElement, headElement, [], maxDepth⟩

/-- All members, the head first. -/
def members (c : Collection α) : List α :=
  c.headElement :: c.others

/-- The number of members. -/
def size (c : Collection α) : Nat :=
  c.members.length

/-- Replaces what stands for the members. -/
def map {β : Type u} (f : α → β) (c : Collection α) : Collection β :=
  ⟨c.head, f c.headElement, c.others.map f, c.maxDepth⟩

section Grouped

variable [Grouped α]

/-- A member has the short id. -/
def has (c : Collection α) (shortId : Text) : Bool :=
  c.members.any fun m => Grouped.shortId m = shortId

/-- Adds a member; it must list the head. -/
def add (c : Collection α) (m : α) : Except HierarchyFault (Collection α) :=
  if (Grouped.group m).refersTo c.head then .ok { c with others := c.others ++ [m] }
  else .error (.stranger (Grouped.shortId m) c.head)

/-- Adds the candidates that list the head, and hands the others back. -/
def addAll (c : Collection α) (candidates : List α) : Collection α × List α :=
  candidates.foldl
    (fun (c, rejected) m =>
      match c.add m with
      | .ok c => (c, rejected)
      | .error _ => (c, rejected ++ [m]))
    (c, [])

/-- The members that list a short id, at any depth below it. -/
def under (c : Collection α) (shortId : Text) : List α :=
  c.members.filter fun m => (Grouped.group m).refersTo shortId

/-! ## The layering rule -/

/-- A member lists every entry of a path, and the path repeats none. -/
def listsPath (path : List Text) (m : α) : Bool :=
  ((distinct (Grouped.references m)).filter fun r => path.contains r).length = path.length

/-- A member that lists a path and nothing else. -/
def isDirect (path : List Text) (m : α) : Bool :=
  (distinct (Grouped.references m)).length = path.length

/-- A member lists none of the short ids. -/
def avoids (shortIds : List Text) (m : α) : Bool :=
  (Grouped.references m).all fun r => !shortIds.contains r

/-- The members directly below the last entry of a path: first those
that list the path and nothing else; then, of the others that list the
path and none of the first, those that list none of one another. -/
def nextLevel (c : Collection α) (path : List Text) : List α :=
  let candidates := c.members.filter (listsPath path)
  let direct := candidates.filter (isDirect path)
  let deferred := candidates.filter fun m => !isDirect path m
  let free := deferred.filter (avoids (direct.map Grouped.shortId))
  direct ++ free.filter (avoids (free.map Grouped.shortId))

end Grouped

end Collection

end Lineage
