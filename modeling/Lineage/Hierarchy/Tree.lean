/-
Lineage.Hierarchy.Tree — trees of placed groups.

A node holds a group, the path of short ids that leads to it, and its
children.  Collections and trees hold anything that stands for a group
(`Grouped`): a record itself, or a working copy that several trees share.
-/
import Lineage.Group.Basic

namespace Lineage

universe u

/-- Things that stand for a group. -/
class Grouped (α : Type u) where
  group : α → Group

instance : Grouped Group := ⟨id⟩

/-- The short id of the group that a thing stands for. -/
def Grouped.shortId {α : Type u} [Grouped α] (a : α) : Text :=
  (Grouped.group a).shortId

/-- The references of the group that a thing stands for. -/
def Grouped.references {α : Type u} [Grouped α] (a : α) : List Text :=
  (Grouped.group a).references

/-- A tree of placed groups: a group, the short ids from the head to its
parent, and its children. -/
inductive Tree (α : Type u) where
  | node (member : α) (path : List Text) (children : List (Tree α))
  deriving BEq, Repr

namespace Tree

variable {α : Type u} {β : Type u}

/-- The thing at the root. -/
def member : Tree α → α
  | .node m _ _ => m

/-- The short ids from the head to the parent of the root. -/
def path : Tree α → List Text
  | .node _ p _ => p

/-- The children of the root. -/
def children : Tree α → List (Tree α)
  | .node _ _ cs => cs

/-- The number of groups above the root. -/
def depth (t : Tree α) : Nat :=
  t.path.length

/-- The tree with other children at its root. -/
def withChildren (t : Tree α) (children : List (Tree α)) : Tree α :=
  .node t.member t.path children

section Grouped

variable [Grouped α]

/-- The short id of the group at the root. -/
def shortId (t : Tree α) : Text :=
  Grouped.shortId t.member

/-- The path of the children of the root. -/
def childrenPath (t : Tree α) : List Text :=
  t.path ++ [t.shortId]

/-- A new last child of the root. -/
def childOf (t : Tree α) (member : α) : Tree α :=
  .node member t.childrenPath []

end Grouped

mutual

/-- The nodes of a tree, parents before children, siblings in order. -/
def walk : Tree α → List (Tree α)
  | .node m p cs => .node m p cs :: walkAll cs

/-- The nodes of the trees of a list. -/
def walkAll : List (Tree α) → List (Tree α)
  | [] => []
  | t :: rest => walk t ++ walkAll rest

end

/-- The first node with a short id. -/
def find? [Grouped α] (t : Tree α) (shortId : Text) : Option (Tree α) :=
  t.walk.find? fun node => node.shortId = shortId

mutual

/-- The positions that lead from the root to each node, in the order of
`walk`. -/
def addresses : Tree α → List (List Nat)
  | .node _ _ cs => [] :: addressesFrom 0 cs

/-- The positions that lead to the nodes of trees counted from an index. -/
def addressesFrom (index : Nat) : List (Tree α) → List (List Nat)
  | [] => []
  | t :: rest => (addresses t).map (index :: ·) ++ addressesFrom (index + 1) rest

end

/-- The node at an address. -/
def at? : Tree α → List Nat → Option (Tree α)
  | t, [] => some t
  | .node _ _ cs, i :: rest =>
    match cs[i]? with
    | some c => c.at? rest
    | none => none

/-- Replaces the node at an address. -/
def modifyAt (f : Tree α → Tree α) : Tree α → List Nat → Tree α
  | t, [] => f t
  | .node m p cs, i :: rest => .node m p (cs.modify i fun c => modifyAt f c rest)

mutual

/-- Replaces what stands for the groups. -/
def map (f : α → β) : Tree α → Tree β
  | .node m p cs => .node (f m) p (mapAll f cs)

/-- Replaces what stands for the groups of the trees of a list. -/
def mapAll (f : α → β) : List (Tree α) → List (Tree β)
  | [] => []
  | t :: rest => map f t :: mapAll f rest

end

mutual

/-- A tree as a document value, with its records written out. -/
def toValue [Grouped α] : Tree α → Value
  | .node m p cs =>
    .object [("group", (Grouped.group m).toValue), ("path", Group.texts p),
      ("children", .array (toValues cs))]

/-- The trees of a list as document values. -/
def toValues [Grouped α] : List (Tree α) → List Value
  | [] => []
  | t :: rest => toValue t :: toValues rest

end

end Tree

end Lineage
