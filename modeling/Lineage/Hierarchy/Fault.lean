/-
Lineage.Hierarchy.Fault — why a hierarchy cannot be had.

A `HierarchyFault` is a cause; its kind, its stable code, its wording
and the fault behind it are functions of the cause.  `Notice` is the
general form that all of them share: a kind with a text and a code,
where the kind supplies what is not given.
-/
import Lineage.Value.Literal

namespace Lineage

/-- The kinds of faults of hierarchies. -/
inductive FaultKind where
  | general
  | notInHierarchy
  | loop
  | tooDeep
  | inactive
  | unavailable
  deriving DecidableEq, Repr

/-- The code of a fault of a kind, if it has none of its own. -/
def FaultKind.code : FaultKind → Text
  | .general => "group-hierarchy-error"
  | .notInHierarchy => "group-not-in-hierarchy"
  | .loop => "group-loop-detected"
  | .tooDeep => "group-hierarchy-too-deep-possible-loop"
  | .inactive => "groups-hierarchy-inactive-group"
  | .unavailable => "group-hierarchy-not-found"

/-- A fault as it is told: its kind, its code and its text.  A code is a
text as a rule, but any value that is not null can be one. -/
structure Notice where
  kind : FaultKind
  code : Value
  text : Text

/-- A notice of a kind: the code of the kind stands in for a missing
code, and the code for a message that says nothing. -/
def Notice.make (kind : FaultKind) (message code : Value) : Notice :=
  let code := if code.isNull then .text kind.code else code
  ⟨kind, code, (if message.saysNothing then code else message).plainText⟩

/-- The text of a group that does not belong below a head. -/
def notInHierarchyText (shortId head : Text) : Text :=
  "group '" ++ shortId ++ "' does not refer to hierarchy head '" ++ head ++ "'"

/-- Why a hierarchy cannot be had. -/
inductive HierarchyFault where
  /-- The group does not list the head of the collection. -/
  | stranger (shortId head : Text)
  /-- The parent is the group itself or lists it. -/
  | loop (child parent : Text)
  /-- The parent already lists as many groups as the limit allows. -/
  | parentTooDeep (child parent : Text) (limit : Int)
  /-- Layers were left when the limit was reached. -/
  | layersLeft (head : Text) (depth limit : Int)
  | inactive (shortId : Text)
  | unknownGroup (shortId : Text)
  | noMembers (shortId : Text)
  | headless (shortId : Text)
  /-- The hierarchy has no view. -/
  | noView (reason : HierarchyFault)
  /-- One of several hierarchies to display cannot be produced. -/
  | notProduced (head : Text) (reason : HierarchyFault)
  deriving DecidableEq, Repr

namespace HierarchyFault

/-- The kind of a fault. -/
def kind : HierarchyFault → FaultKind
  | .stranger .. => .notInHierarchy
  | .loop .. => .loop
  | .parentTooDeep .. => .tooDeep
  | .layersLeft .. => .tooDeep
  | .inactive _ => .inactive
  | .unknownGroup _ => .unavailable
  | .noMembers _ => .unavailable
  | .headless _ => .unavailable
  | .noView _ => .unavailable
  | .notProduced .. => .unavailable

/-- The stable code of a fault. -/
def code : HierarchyFault → Text
  | .parentTooDeep .. => "group-hierarchy-too-deep"
  | .unknownGroup _ => "groups-get-not-found"
  | .noMembers _ => "group-list-not-found"
  | .headless _ => "group-list-head-less"
  | .noView reason => reason.code
  | .notProduced .. => "groups-not-all-found"
  | fault => fault.kind.code

/-- The wording of a fault. -/
def message : HierarchyFault → Text
  | .stranger shortId head => notInHierarchyText shortId head
  | .loop child parent =>
    "group '" ++ child ++ "' cannot be attached under '" ++ parent ++ "'"
  | .parentTooDeep child parent limit =>
    "attaching '" ++ child ++ "' under '" ++ parent ++ "' exceeds max_depth=" ++ Text.decimal limit
  | .layersLeft head depth limit =>
    "hierarchy under '" ++ head ++ "' reached depth " ++ Text.decimal depth
      ++ " (limit " ++ Text.decimal limit ++ ")"
  | .inactive shortId => "group '" ++ shortId ++ "' is inactive"
  | .unknownGroup shortId => "group '" ++ shortId ++ "' not found"
  | .noMembers shortId => "no groups found for hierarchy '" ++ shortId ++ "'"
  | .headless shortId => "hierarchy '" ++ shortId ++ "' has members but no head record"
  | .noView reason => reason.message
  | .notProduced head _ => "hierarchy '" ++ head ++ "' could not be produced"

/-- The fault behind a fault. -/
def reason? : HierarchyFault → Option HierarchyFault
  | .noView reason => some reason
  | .notProduced _ reason => some reason
  | _ => none

end HierarchyFault

end Lineage
