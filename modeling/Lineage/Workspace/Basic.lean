/-
Lineage.Workspace.Basic — named objects under work.

Records are shared: one record may stand in several collections and
trees, and a change of it is seen in all of them.  So the workspace
keeps every record under a key, and its collections and trees hold keys;
`hold` shows them with the records as they are now.  A tree grows in
place and the nodes within it keep their addresses, because children
are only ever added after the children that are there.
-/
import Lineage.Failure

namespace Lineage

/-- A record of a workspace: its key, and what it says now. -/
structure Held where
  key : Nat
  group : Group
  deriving Repr

instance : Grouped Held := ⟨Held.group⟩

/-- What a name stands for. -/
inductive Item where
  | record (key : Nat)
  | acl (a : Acl)
  | node (tree : Nat) (address : List Nat)
  | collection (c : Collection Nat)
  | view (v : View)
  | directory (d : Directory)

/-- Named objects under work, the records and trees that they share,
files and a clock. -/
structure Workspace where
  files : Files
  clock : Clock
  records : Array Group := #[]
  trees : Array (Tree Nat) := #[]
  names : Keyed Text Item := []

/-- Why a step of work fails. -/
inductive WorkFault where
  /-- The name stands for nothing, or for nothing of the kind. -/
  | unbound (name : Text)
  | failed (failure : Failure)
  /-- A tree that was grown in place did not get all of its layers. -/
  | stunted (fault : HierarchyFault) (tree : Tree Held)
  /-- A collection has no member of the number. -/
  | noMember
  /-- A value that no directory can have as a short id. -/
  | noKey (kindWord : String)

/-- The wording of a fault of work. -/
def WorkFault.message : WorkFault → Text
  | .unbound name => name
  | .failed failure => failure.message
  | .stunted fault _ => fault.message
  | .noMember => "tuple index out of range"
  | .noKey word => "unhashable type: '" ++ Text.ofString word ++ "'"

/-- A step of work: what it changed stays changed when it fails. -/
abbrev Work (α : Type) := ExceptT WorkFault (StateM Workspace) α

namespace Workspace

/-- A record as it is now. -/
def hold (w : Workspace) (key : Nat) : Held :=
  ⟨key, (w.records[key]?).getD default⟩

/-- The node at an address of a tree, with the records as they are
now. -/
def node? (w : Workspace) (tree : Nat) (address : List Nat) : Option (Tree Held) :=
  ((w.trees[tree]?).bind fun t => t.at? address).map fun t => t.map w.hold

end Workspace

namespace Work

/-- Ends the step with a failure. -/
def fail {α : Type} (failure : Failure) : Work α :=
  throw (.failed failure)

/-- A value, or the end of the step. -/
def ofExcept {ε α : Type} (failure : ε → Failure) : Except ε α → Work α
  | .ok a => pure a
  | .error e => fail (failure e)

/-! ## Names -/

/-- What a name stands for. -/
def item (name : Text) : Work Item := do
  match (← get).names.get? name with
  | some item => pure item
  | none => throw (.unbound name)

/-- Gives a name to an item, if there is a name to give. -/
def bindAs (name : Option Text) (item : Item) : Work Unit :=
  match name with
  | some name => modify fun w => { w with names := w.names.put name item }
  | none => pure ()

/-- The record of a name. -/
def record (name : Text) : Work Held := do
  match ← item name with
  | .record key => return (← get).hold key
  | _ => throw (.unbound name)

/-- The annotation of a name. -/
def acl (name : Text) : Work Acl := do
  match ← item name with
  | .acl a => pure a
  | _ => throw (.unbound name)

/-- The place of the node of a name, and the node. -/
def node (name : Text) : Work (Nat × List Nat × Tree Held) := do
  match ← item name with
  | .node tree address =>
    match (← get).node? tree address with
    | some t => pure (tree, address, t)
    | none => throw (.unbound name)
  | _ => throw (.unbound name)

/-- The collection of a name. -/
def collection (name : Text) : Work (Collection Held) := do
  match ← item name with
  | .collection c => return c.map (← get).hold
  | _ => throw (.unbound name)

/-- The view of a name. -/
def view (name : Text) : Work View := do
  match ← item name with
  | .view v => pure v
  | _ => throw (.unbound name)

/-- The directory of a name. -/
def directory (name : Text) : Work Directory := do
  match ← item name with
  | .directory d => pure d
  | _ => throw (.unbound name)

/-! ## Objects -/

/-- Keeps a new record. -/
def keep (g : Group) : Work Held := do
  let key := (← get).records.size
  modify fun w => { w with records := w.records.push g }
  return ⟨key, g⟩

/-- Keeps the members of a collection as new records. -/
def keepCollection (c : Collection Group) : Work (Collection Held) := do
  let headElement ← keep c.headElement
  let others ← c.others.mapM keep
  return ⟨c.head, headElement, others, c.maxDepth⟩

/-- Changes a record in all its places. -/
def change (key : Nat) (g : Group) : Work Unit :=
  modify fun w => { w with records := w.records.setIfInBounds key g }

/-- Keeps a new tree. -/
def plant (t : Tree Held) : Work Nat := do
  let tree := (← get).trees.size
  modify fun w => { w with trees := w.trees.push (t.map Held.key) }
  return tree

/-- Changes the node at an address of a tree. -/
def regrow (tree : Nat) (address : List Nat) (t : Tree Held) : Work Unit :=
  modify fun w =>
    { w with
      trees := w.trees.modify tree fun whole =>
        whole.modifyAt (fun _ => t.map Held.key) address }

/-- Binds a collection. -/
def bindCollection (name : Option Text) (c : Collection Held) : Work Unit :=
  bindAs name (.collection (c.map Held.key))

end Work

end Lineage
