/-
Lineage.Workspace.Step — the steps of work on named objects, and what
they answer.
-/
import Lineage.Workspace.Basic

namespace Lineage

/-- What a step does.  Texts called `record`, `node` and so on are
names; short ids are called so. -/
inductive Action where
  | tick (micros : Int)
  | makeRecord (data : Value)
  | makeAcl (data : Value)
  | setField (record field : Text) (value : Value)
  | appendReference (record value : Text)
  | peek (record : Text)
  | compare (a b : Text)
  | refersTo (record shortId : Text)
  | clone (record : Text)
  | addUnder (record parent : Text) (limit : Int)
  | makeNode (record : Text) (path : List Text)
  | addChild (node record : Text)
  | showTree (node : Text)
  | place (node : Text)
  | walk (node : Text)
  | find (node shortId : Text)
  | document (node : Text)
  | nodeText (node : Text) (indent : Option Text)
  | collectionText (collection : Text) (indent : Option Text)
  | exportTree (node : Text) (path : Path)
  | makeCollection (head : Text) (maxDepth : Int) (members : List Text)
  | showCollection (collection : Text)
  | add (collection record : Text)
  | addAll (collection : Text) (records : List Text)
  | contains (container : Text) (shortId : Value)
  | under (collection shortId : Text)
  | nextLevel (collection : Text) (path : List Text)
  | member (collection : Text) (index : Int)
  | hierarchy (collection : Text)
  | grow (collection node : Text) (depth limit : Int)
  | cloneCollection (collection : Text)
  | makeView (data : Value)
  | project (node : Text)
  | viewOf (collection : Text)
  | enrich (view : Text) (acls : List Text)
  | showView (view : Text)
  | label (view : Text)
  | writeViews (views : List Text) (path : Path)
  | makeDirectory (policy : Option Value) (records : List Text)
  | upsert (directory record : Text)
  | get (directory shortId : Text)
  | membersOf (directory shortId : Text)
  | buildCollection (directory shortId : Text)
  | getCollection (directory shortId : Text)
  | flush (directory record : Text)
  | attach (directory child parent : Text)
  | deactivate (directory shortId : Text)
  | display (directory : Text) (shortIds acls : List Text)
  | stats (directory : Text)

/-- A step: what it does, and the name that its object gets. -/
structure Step where
  action : Action
  name : Option Text

/-- What a step answers. -/
inductive Reply where
  | stamp (ms : Int)
  | record (g : Group)
  | acl (a : Acl)
  | flag (b : Bool)
  | shortIds (ids : List Text)
  | likeness (identical equal : Bool)
  | tree (t : Tree Held)
  | nothing
  | place (t : Tree Held)
  | walk (t : Tree Held)
  | document (t : Tree Held)
  | text (s : Text)
  | written (path : Path) (text : Text)
  | collection (c : Collection Held)
  | added (rejected members : List Text)
  | view (v : View)
  | views (vs : List View)
  | label (l : View.Label)
  | directory (d : Directory)
  | counts (d : Directory)
  | served (c : Collection Held) (d : Directory)
  | stats (d : Directory)

namespace Reply

mutual

/-- A tree by short ids. -/
def outline : Tree Held → Value
  | .node m path children =>
    .object [("id", .text (Grouped.shortId m)), ("path", Group.texts path),
      ("children", .array (outlines children))]

/-- The trees of a list by short ids. -/
def outlines : List (Tree Held) → List Value
  | [] => []
  | t :: rest => outline t :: outlines rest

end

mutual

/-- A label with the labels below it. -/
def labelValue : View.Label → Value
  | .node s children =>
    .object [("label", .text s), ("children", .array (labelValues children))]

/-- The labels of a list. -/
def labelValues : List View.Label → List Value
  | [] => []
  | l :: rest => labelValue l :: labelValues rest

end

/-- The short ids of members. -/
def idsOf (members : List Held) : List Text :=
  members.map Grouped.shortId

/-- A number. -/
def count (n : Nat) : Value :=
  .int n

/-- What is told about a collection. -/
def collectionValue (c : Collection Held) : Value :=
  .object [("head", .text c.head), ("head_element", .text (Grouped.shortId c.headElement)),
    ("max_depth", .int c.maxDepth), ("len", count c.size),
    ("members", Group.texts (idsOf c.members))]

/-- The counts of a directory. -/
def countFields (d : Directory) : Fields :=
  [("groups", count d.size), ("cached_hierarchies", count d.cache.length),
    ("hits", count d.counts.hits), ("misses", count d.counts.misses),
    ("flushes", count d.counts.flushes)]

/-- An answer as a document value. -/
def toValue : Reply → Value
  | .stamp ms => .int ms
  | .record g => g.toValue
  | .acl a => a.toValue
  | .flag b => .bool b
  | .shortIds ids => Group.texts ids
  | .likeness identical equal => .object [("is", .bool identical), ("eq", .bool equal)]
  | .tree t => outline t
  | .nothing => .null
  | .place t =>
    .object [("id", .text t.shortId), ("depth", count t.depth), ("path", Group.texts t.path),
      ("children_path", Group.texts t.childrenPath)]
  | .walk t => .array (t.walk.map fun node => .array [.text node.shortId, count node.depth])
  | .document t => t.toValue
  | .text s => .text s
  | .written path s => .object [("path", .text path.text), ("text", .text s)]
  | .collection c => collectionValue c
  | .added rejected members =>
    .object [("rejected", Group.texts rejected), ("members", Group.texts members)]
  | .view v => v.toValue
  | .views vs => .array (View.toValues vs)
  | .label l => labelValue l
  | .directory d =>
    .object [("policy", d.policy.toValue), ("len", count d.size),
      ("stats", .object (countFields d))]
  | .counts d => .object (countFields d)
  | .served c d =>
    .object [("collection", collectionValue c), ("stats", .object (countFields d))]
  | .stats d => .object (("len", count d.size) :: countFields d)

end Reply

end Lineage
