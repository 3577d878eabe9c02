/-
Lineage.Hierarchy.View — what a user sees of a hierarchy.

A view keeps the active groups of a tree: an inactive group is left out
with everything below it, and an inactive root has no view.  Access
annotations decorate a view: the first annotation of a group gives it
its roles and, if it is not empty, its name.
-/
import Lineage.Hierarchy.Layout
import Lineage.Group.Acl

namespace Lineage

universe u

/-- A view: one group and the views of its children. -/
inductive View where
  | node (shortId name description : Text) (children : List View) (roles : List Text)
  deriving BEq, Repr, Inhabited

namespace View

/-- The short id of the group at the root. -/
def shortId : View → Text
  | .node s _ _ _ _ => s

/-- The name of the group at the root. -/
def name : View → Text
  | .node _ n _ _ _ => n

/-- The children of the root. -/
def children : View → List View
  | .node _ _ _ cs _ => cs

/-- The roles of the user in the group at the root. -/
def roles : View → List Text
  | .node _ _ _ _ rs => rs

/-! ## Projection -/

mutual

/-- The view of a tree, if its root is active. -/
def ofTree? {α : Type u} [Grouped α] : Tree α → Option View
  | .node m _ children =>
    let g := Grouped.group m
    if g.active then some (.node g.shortId g.name g.description (ofTrees children) []) else none

/-- The views of the trees of a list that have one. -/
def ofTrees {α : Type u} [Grouped α] : List (Tree α) → List View
  | [] => []
  | t :: rest =>
    match ofTree? t with
    | some v => v :: ofTrees rest
    | none => ofTrees rest

end

/-- The view of a tree; an inactive root is a fault. -/
def ofTree {α : Type u} [Grouped α] (t : Tree α) : Except HierarchyFault View :=
  match ofTree? t with
  | some v => .ok v
  | none => .error (.inactive t.shortId)

/-- The view of a collection. -/
def ofCollection {α : Type u} [Grouped α] (c : Collection α) : Except HierarchyFault View :=
  match c.hierarchy with
  | .error fault => .error (.noView fault)
  | .ok tree =>
    match ofTree tree with
    | .error fault => .error (.noView fault)
    | .ok view => .ok view

/-! ## Annotations -/

mutual

/-- Decorates every group of a view with its first annotation. -/
def enrich (acls : List Acl) : View → View
  | .node s n d children roles =>
    match acls.find? (fun a => a.group = s) with
    | none => .node s n d (enrichAll acls children) roles
    | some a =>
      let n := match a.localName with
        | some l => if l.isEmpty then n else l
        | none => n
      .node s n d (enrichAll acls children) a.roles

/-- Decorates the views of a list. -/
def enrichAll (acls : List Acl) : List View → List View
  | [] => []
  | v :: rest => enrich acls v :: enrichAll acls rest

end

/-! ## Reading and writing -/

mutual

/-- A view as a document value. -/
def toValue : View → Value
  | .node s n d children roles =>
    .object [("shortId", .text s), ("name", .text n), ("description", .text d),
      ("children", .array (toValues children)), ("roles", Group.texts roles)]

/-- The views of a list as document values. -/
def toValues : List View → List Value
  | [] => []
  | v :: rest => toValue v :: toValues rest

end

open Schema in
/-- Reads a view from a document value; `fuel` bounds its nesting. -/
def checkWithin (fuel : Nat) (v : Value) : Checked View :=
  match fuel with
  | 0 => .faulty [⟨[], .recordExpected .view⟩]
  | fuel + 1 =>
    match v with
    | .object fields =>
      View.node
        <$> required fields ⟨"shortId", "short_id"⟩ (checkText 0)
        <*> optional fields ⟨"name", "name"⟩ "" (checkText 0)
        <*> optional fields ⟨"description", "description"⟩ "" (checkText 0)
        <*> optionalChecked fields ⟨"children", "children"⟩ [] (fun v =>
          match v with
          | .array items => Checked.items (checkWithin fuel) 0 items
          | _ => .faulty [⟨[], .listExpected⟩])
        <*> optionalChecked fields ⟨"roles", "roles"⟩ [] checkTexts
    | _ => .faulty [⟨[], .recordExpected .view⟩]

mutual

/-- The number of nested values within a value. -/
def nesting : Value → Nat
  | .array items => nestingAll items + 1
  | .object fields => nestingFields fields + 1
  | _ => 1

/-- The greatest nesting of the values of a list. -/
def nestingAll : List Value → Nat
  | [] => 0
  | v :: rest => max (nesting v) (nestingAll rest)

/-- The greatest nesting of the values of fields. -/
def nestingFields : Fields → Nat
  | [] => 0
  | (_, v) :: rest => max (nesting v) (nestingFields rest)

end

/-- Reads a view from a document value. -/
def check (v : Value) : Except Schema.Rejection View :=
  (checkWithin (nesting v) v).toExcept .view

/-! ## Labels -/

/-- A tree of labels. -/
inductive Label where
  | node (text : Text) (children : List Label)
  deriving Repr, Inhabited

/-- The label of a group: its name, or its short id if it has no name,
then the short id, then its roles. -/
def labelText (shortId name : Text) (roles : List Text) : Text :=
  let title := if name.isEmpty then shortId else name
  let roleText : Text :=
    if roles.isEmpty then [] else " [cyan]" ++ Text.join ", " roles ++ "[/cyan]"
  "[bold]" ++ title ++ "[/bold] [dim](" ++ shortId ++ ")[/dim]" ++ roleText

mutual

/-- A view as a tree of labels. -/
def toLabel : View → Label
  | .node s n _ children roles => .node (labelText s n roles) (toLabels children)

/-- The views of a list as trees of labels. -/
def toLabels : List View → List Label
  | [] => []
  | v :: rest => toLabel v :: toLabels rest

end

end View

end Lineage
