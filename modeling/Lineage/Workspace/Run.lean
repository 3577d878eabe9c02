/-
Lineage.Workspace.Run — doing steps of work.

The names of a step are looked up first; a step that fails gives no
name, but what it changed before it failed stays changed.
-/
import Lineage.Files.Records
import Lineage.Workspace.Step

namespace Lineage

namespace Work

/-! ## Records -/

/-- Keeps a new record under a name. -/
def answerRecord (name : Option Text) (g : Group) : Work Reply := do
  let held ← keep g
  bindAs name (.record held.key)
  return .record g

/-- The time stamp of now. -/
def stamp : Work Int := do
  return (← get).clock.stamp

/-- Whether two names stand for the same object, and whether the objects
say the same. -/
def compare (a b : Text) : Work Reply := do
  let same := a == b
  match ← item a, ← item b with
  | .record k, .record l =>
    let w ← get
    return .likeness (k == l) ((w.hold k).group == (w.hold l).group)
  | .node t p, .node u q =>
    let (_, _, x) ← node a
    let (_, _, y) ← node b
    return .likeness (t == u && p == q) (x.map Held.group == y.map Held.group)
  | .acl x, .acl y => return .likeness same (x == y)
  | .view x, .view y => return .likeness same (x == y)
  | _, _ => return .likeness same same

/-- Attaches a record under another one. -/
def addUnder (record parent : Text) (limit : Int) : Work Reply := do
  let child ← Work.record record
  let above ← Work.record parent
  match child.group.attachUnder above.group limit (← stamp) with
  | .refused fault => fail (.hierarchy fault)
  | .attached g =>
    change child.key g
    return .record g
  | .stampRefused g rejection =>
    change child.key g
    fail (.rejected rejection)

/-! ## Trees -/

/-- An attempt to write, which changes the files whatever comes of it. -/
def attempt (operation : Files → Files.Attempt) : Work Files := do
  let (files, fault) := operation (← get).files
  modify fun w => { w with files := files }
  match fault with
  | none => return files
  | some fault => fail (.file fault)

/-- Writes a tree as a file. -/
def exportTree (name : Text) (path : Path) : Work Reply := do
  let (_, _, t) ← node name
  let document := t.toValue
  let files ← attempt fun f => f.writeDocument path Files.usualIndent document
  return .written (files.resolve path) (Files.documentText Files.usualIndent document)

/-- How trees are told as text. -/
def treeStyle (indent : Option Text) : Json.Style :=
  ⟨indent, false, false⟩

/-- The tree of a collection. -/
def treeOf (name : Text) : Work (Tree Held) := do
  ofExcept .hierarchy (← collection name).hierarchy

/-- Grows the tree of a node in place. -/
def grow (collection node : Text) (depth limit : Int) : Work Reply := do
  let c ← Work.collection collection
  let (tree, address, start) ← Work.node node
  let growth := c.grow start depth limit
  regrow tree address growth.tree
  match growth.fault with
  | none => return .tree growth.tree
  | some fault => throw (.stunted fault growth.tree)

/-! ## Collections -/

/-- Adds records to a collection one after the other, which keeps its
name up to date. -/
def addEach (name : Option Text) (c : Collection Held) :
    List Text → Work (Collection Held)
  | [] => return c
  | record :: rest => do
    let c ← ofExcept .hierarchy (c.add (← Work.record record))
    bindCollection name c
    addEach name c rest

/-- Makes a collection. -/
def makeCollection (name : Option Text) (head : Text) (maxDepth : Int)
    (members : List Text) : Work Reply := do
  match Collection.make? (← record head) maxDepth with
  | none => fail .depthNotPositive
  | some c =>
    bindCollection name c
    return .collection (← addEach name c members)

/-- The place in a list that an index counts, from the end if it is
negative. -/
def placeOf (index : Int) (length : Nat) : Option Nat :=
  if 0 ≤ index then some index.toNat
  else if 0 ≤ index + length then some (index + length).toNat
  else none

/-- A member by its number. -/
def member (name : Option Text) (collection : Text) (index : Int) : Work Reply := do
  let members := (← Work.collection collection).members
  match (placeOf index members.length).bind fun i => members[i]? with
  | none => throw .noMember
  | some m =>
    bindAs name (.record m.key)
    return .record m.group

/-- Whether a collection or directory holds a short id. -/
def contains (container : Text) (shortId : Value) : Work Reply := do
  match ← item container, shortId with
  | .collection c, .text s => return .flag ((c.map (← get).hold).has s)
  | .collection _, _ => return .flag false
  | .directory d, .text s => return .flag (d.has s)
  | .directory _, .array _ | .directory _, .object _ => throw (.noKey shortId.kindWord)
  | .directory _, _ => return .flag false
  | _, _ => throw (.unbound container)

/-- Answers a collection of new records under a name. -/
def answerCollection (name : Option Text) (c : Collection Group) :
    Work (Collection Held) := do
  let c ← keepCollection c
  bindCollection name c
  return c

/-! ## Views -/

/-- Answers a view under a name. -/
def answerView (name : Option Text) (v : View) : Work Reply := do
  bindAs name (.view v)
  return .view v

/-- Binds views under numbered names. -/
def bindViews (name : Option Text) (number : Nat) : List View → Work Unit
  | [] => return
  | v :: rest => do
    bindAs (name.map fun n => n ++ Text.decimal number) (.view v)
    bindViews name (number + 1) rest

/-- Writes views as a file. -/
def writeViews (views : List Text) (path : Path) : Work Reply := do
  let views ← views.mapM view
  let files ← attempt fun f => f.writeViews path views
  return .written (files.resolve path)
    (Files.documentText Files.usualIndent (.array (View.toValues views)))

/-! ## Directories -/

/-- Makes a directory. -/
def makeDirectory (name : Option Text) (policy : Option Value) (records : List Text) :
    Work Reply := do
  let policy ← match policy with
    | none => pure {}
    | some v => ofExcept .rejected (GroupPolicy.check v)
  let held ← records.mapM record
  let d := (Directory.empty policy).upsertAll (held.map Held.group)
  bindAs name (.directory d)
  return .directory d

/-- An operation of a directory: the directory changes, whatever comes
of it. -/
def within {α : Type} (name : Text)
    (operation : Directory → Clock → Directory × Except DirectoryFault α) :
    Work (Directory × α) := do
  let (d, result) := operation (← directory name) (← get).clock
  bindAs (some name) (.directory d)
  return (d, ← ofExcept .ofDirectory result)

/-- A change of a directory that cannot fail. -/
def changing (name record : Text) (operation : Directory → Group → Directory) :
    Work Reply := do
  let d ← directory name
  let d := operation d (← Work.record record).group
  bindAs (some name) (.directory d)
  return .counts d

/-! ## Steps -/

/-- Does an action; its object gets the name. -/
def act (name : Option Text) : Action → Work Reply
  | .tick micros => do
    modify fun w => { w with clock := w.clock.advance micros }
    return .stamp (← stamp)
  | .makeRecord data => do
    answerRecord name (← ofExcept .rejected (Group.check (← stamp) data))
  | .makeAcl data => do
    let a ← ofExcept .rejected (Acl.check data)
    bindAs name (.acl a)
    return .acl a
  | .setField record field value => do
    let held ← Work.record record
    let g ← ofExcept .ofChange (held.group.set field value)
    change held.key g
    return .record g
  | .appendReference record value => do
    let held ← Work.record record
    let references := held.group.references ++ [value]
    change held.key { held.group with references := references }
    return .shortIds references
  | .peek record => do return .record (← Work.record record).group
  | .compare a b => compare a b
  | .refersTo record shortId => do
    return .flag ((← Work.record record).group.refersTo shortId)
  | .clone record => do answerRecord name (← Work.record record).group
  | .addUnder record parent limit => addUnder record parent limit
  | .makeNode record path => do
    let t := Tree.node (← Work.record record) path []
    bindAs name (.node (← plant t) [])
    return .tree t
  | .addChild node record => do
    let (tree, address, t) ← Work.node node
    let child := t.childOf (← Work.record record)
    regrow tree address (t.withChildren (t.children ++ [child]))
    bindAs name (.node tree (address ++ [t.children.length]))
    return .tree child
  | .showTree node => do return .tree (← Work.node node).2.2
  | .place node => do return .place (← Work.node node).2.2
  | .walk node => do return .walk (← Work.node node).2.2
  | .find node shortId => do
    let (tree, address, t) ← Work.node node
    match (t.walk.zip t.addresses).find? fun n => n.1.shortId == shortId with
    | none => return .nothing
    | some (found, below) =>
      bindAs name (.node tree (address ++ below))
      return .tree found
  | .document node => do return .document (← Work.node node).2.2
  | .nodeText node indent => do
    return .text (Json.print (treeStyle indent) (← Work.node node).2.2.toValue)
  | .collectionText collection indent => do
    return .text (Json.print (treeStyle indent) (← treeOf collection).toValue)
  | .exportTree node path => exportTree node path
  | .makeCollection head maxDepth members => makeCollection name head maxDepth members
  | .showCollection collection => do return .collection (← Work.collection collection)
  | .add collection record => do
    let c ← Work.collection collection
    return .shortIds (Reply.idsOf (← addEach (some collection) c [record]).members)
  | .addAll collection records => do
    let c ← Work.collection collection
    let (c, rejected) := c.addAll (← records.mapM Work.record)
    bindCollection (some collection) c
    return .added (Reply.idsOf rejected) (Reply.idsOf c.members)
  | .contains container shortId => contains container shortId
  | .under collection shortId => do
    return .shortIds (Reply.idsOf ((← Work.collection collection).under shortId))
  | .nextLevel collection path => do
    return .shortIds (Reply.idsOf ((← Work.collection collection).nextLevel path))
  | .member collection index => member name collection index
  | .hierarchy collection => do
    let t ← treeOf collection
    bindAs name (.node (← plant t) [])
    return .tree t
  | .grow collection node depth limit => grow collection node depth limit
  | .cloneCollection collection => do
    let c ← Work.collection collection
    let c := { c.map Held.group with head := Grouped.shortId c.headElement }
    return .collection (← answerCollection name c)
  | .makeView data => do answerView name (← ofExcept .rejected (View.check data))
  | .project node => do
    answerView name (← ofExcept .hierarchy (View.ofTree (← Work.node node).2.2))
  | .viewOf collection => do
    answerView name (← ofExcept .hierarchy (View.ofCollection (← Work.collection collection)))
  | .enrich view acls => do
    let v ← Work.view view
    let acls ← acls.mapM Work.acl
    answerView (some view) (v.enrich acls)
  | .showView view => do return .view (← Work.view view)
  | .label view => do return .label (← Work.view view).toLabel
  | .writeViews views path => writeViews views path
  | .makeDirectory policy records => makeDirectory name policy records
  | .upsert directory record => changing directory record Directory.upsert
  | .get directory shortId => do
    answerRecord name (← ofExcept .hierarchy ((← Work.directory directory).get shortId))
  | .membersOf directory shortId => do
    return .shortIds (((← Work.directory directory).membersOf shortId).map Group.shortId)
  | .buildCollection directory shortId => do
    let c ← ofExcept .hierarchy ((← Work.directory directory).buildCollection shortId)
    return .collection (← answerCollection name c)
  | .getCollection directory shortId => do
    let (d, c) ← within directory fun d now => d.getCollection shortId now
    return .served (← answerCollection name c) d
  | .flush directory record => changing directory record Directory.flush
  | .attach directory child parent => do
    let (_, g) ← within directory fun d now => d.attach child parent now
    answerRecord name g
  | .deactivate directory shortId => do
    let (_, g) ← within directory fun d now => d.deactivate shortId now
    answerRecord name g
  | .display directory shortIds acls => do
    let _ ← Work.directory directory
    let acls ← acls.mapM Work.acl
    let (_, views) ← within directory fun d now => Directory.display acls now d shortIds
    bindViews name 0 views
    return .views views
  | .stats directory => do return .stats (← Work.directory directory)

end Work

namespace Workspace

/-- Does a step. -/
def step (w : Workspace) (s : Step) : Except WorkFault Reply × Workspace :=
  (Work.act s.name s.action).run w

/-- Does steps one after the other, whether or not they fail. -/
def run (w : Workspace) : List Step → List (Except WorkFault Reply)
  | [] => []
  | s :: rest =>
    let (result, w) := w.step s
    result :: run w rest

end Workspace

end Lineage
