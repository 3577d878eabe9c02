/-
Lineage.Group.Attach — attaching a group under another one.

The group inherits the whole chain of its new parent.  A parent that is
the group itself or already lists it is refused, and so is a parent that
lists as many groups as the limit allows.
-/
import Lineage.Group.Basic
import Lineage.Hierarchy.Fault

namespace Lineage.Group

open Schema

/-- The references of a group under a parent: its own, then those of the
parent and the parent itself, each once. -/
def inheritedReferences (child parent : Group) : List Text :=
  uniqueIds (child.references ++ parent.references ++ [parent.shortId])

/-- Why a group may not be attached under a parent. -/
def attachFault? (child parent : Group) (limit : Int) : Option HierarchyFault :=
  if parent.shortId = child.shortId ∨ parent.refersTo child.shortId = true then
    some (.loop child.shortId parent.shortId)
  else if limit ≤ parent.references.length then
    some (.parentTooDeep child.shortId parent.shortId limit)
  else none

/-- What an attempt to attach comes to. -/
inductive AttachOutcome where
  | attached (child : Group)
  | refused (fault : HierarchyFault)
  /-- The references were written but the time stamp was refused. -/
  | stampRefused (child : Group) (rejection : Rejection)

/-- Attaches a group under a parent at a time: the references are
written first, the time stamp of the change after them. -/
def attachUnder (child parent : Group) (limit : Int) (now : Int) : AttachOutcome :=
  match attachFault? child parent limit with
  | some fault => .refused fault
  | none =>
    let child := { child with references := child.inheritedReferences parent }
    match (child.setField .modificationMs (.int now)).toExcept .group with
    | .ok child => .attached child
    | .error rejection => .stampRefused child rejection

/-- A refusal as a loop names a parent that is the group or lists it. -/
theorem attachFault?_loop_iff (child parent : Group) (limit : Int) :
    attachFault? child parent limit = some (.loop child.shortId parent.shortId) ↔
      parent.shortId = child.shortId ∨ parent.refersTo child.shortId = true := by
  unfold attachFault?
  split
  · simp [*]
  · split <;> simp [*]

end Lineage.Group
