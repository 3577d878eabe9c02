/-
Lineage.Group.Basic — group records.

A record lists the short ids of all groups it is attached under; these
references are the only source of the shape of a hierarchy.
`Group.check` reads a record from a document value, `Group.toValue`
writes it, and `Group.set` replaces one field under the same checks.
-/
import Lineage.Schema.Field
import Lineage.Text.Lowercase

namespace Lineage

/-- A group record. -/
structure Group where
  /-- The identity a store gave the record. -/
  id : Option Text
  /-- The short unique id used in paths and references. -/
  shortId : Text
  version : Int
  name : Text
  description : Text
  language : Text
  /-- False once the group has been logically deleted. -/
  active : Bool
  /-- The group was made up at reading time and is never stored. -/
  virtual : Bool
  creationMs : Int
  creationBy : Option Text
  modificationMs : Int
  deletionMs : Int
  /-- The short ids of the groups this one is attached under. -/
  references : List Text
  deriving DecidableEq, Repr, Inhabited

namespace Group

open Schema

/-- The fields of a record. -/
inductive Field where
  | id
  | shortId
  | version
  | name
  | description
  | language
  | active
  | virtual
  | creationMs
  | creationBy
  | modificationMs
  | deletionMs
  | references
  deriving DecidableEq, Repr

/-- The spellings of the name of a field. -/
def Field.spelling : Field → FieldName
  | .id => ⟨"id", "id"⟩
  | .shortId => ⟨"shortId", "short_id"⟩
  | .version => ⟨"version", "version"⟩
  | .name => ⟨"name", "name"⟩
  | .description => ⟨"description", "description"⟩
  | .language => ⟨"language", "language"⟩
  | .active => ⟨"active", "active"⟩
  | .virtual => ⟨"virtual", "virtual"⟩
  | .creationMs => ⟨"creationDateMs", "creation_date_ms"⟩
  | .creationBy => ⟨"creationBy", "creation_by"⟩
  | .modificationMs => ⟨"modificationDateMs", "modification_date_ms"⟩
  | .deletionMs => ⟨"deletionDateMs", "deletion_date_ms"⟩
  | .references => ⟨"referringGroups", "referring_groups"⟩

/-- All fields, in the order in which records declare them. -/
def Field.all : List Field :=
  [.id, .shortId, .version, .name, .description, .language, .active, .virtual, .creationMs,
    .creationBy, .modificationMs, .deletionMs, .references]

/-- A short id: a text with a character that is no blank. -/
def checkShortId (v : Value) : Except Complaint Text :=
  match checkText 1 v with
  | .error c => .error c
  | .ok s =>
    let stripped := Text.strip s
    if stripped.isEmpty then
      .error (.refused "short_id must contain non-whitespace characters")
    else .ok stripped

/-- A language code: at least two characters, without blanks around them
and in lower case. -/
def checkLanguage (v : Value) : Except Complaint Text :=
  (checkText 2 v).map fun s => Text.lowercase (Text.strip s)

/-- The references of a record. -/
def checkGroupReferences : Value → Checked (List Text) :=
  checkReferences "referring_groups must be a list of short ids"

/-- Checks the fields of a record; `now` is the creation time of a record
that names none. -/
def checkFields (now : Int) (fields : Fields) : Checked Group :=
  Group.mk
    <$> optional fields Field.id.spelling none checkTextOrNull
    <*> required fields Field.shortId.spelling checkShortId
    <*> optional fields Field.version.spelling 1 (checkInteger 1)
    <*> optional fields Field.name.spelling "" (checkText 0)
    <*> optional fields Field.description.spelling "" (checkText 0)
    <*> optional fields Field.language.spelling "en" checkLanguage
    <*> optional fields Field.active.spelling true checkFlag
    <*> optional fields Field.virtual.spelling false checkFlag
    <*> optional fields Field.creationMs.spelling now (checkInteger 0)
    <*> optional fields Field.creationBy.spelling none checkTextOrNull
    <*> optional fields Field.modificationMs.spelling 0 (checkInteger 0)
    <*> optional fields Field.deletionMs.spelling 0 (checkInteger 0)
    <*> optionalChecked fields Field.references.spelling [] checkGroupReferences

/-- Reads a record from a document value. -/
def check (now : Int) (v : Value) : Except Rejection Group :=
  match v with
  | .object fields => (checkFields now fields).toExcept .group
  | _ => .error (.faults .group [⟨[], .recordExpected .group⟩])

/-- A text, or null. -/
def textOrNull : Option Text → Value
  | some s => .text s
  | none => .null

/-- A list of texts. -/
def texts (ss : List Text) : Value :=
  .array (ss.map .text)

/-- The value of a field in a written record. -/
def fieldValue (g : Group) : Field → Value
  | .id => textOrNull g.id
  | .shortId => .text g.shortId
  | .version => .int g.version
  | .name => .text g.name
  | .description => .text g.description
  | .language => .text g.language
  | .active => .bool g.active
  | .virtual => .bool g.virtual
  | .creationMs => .int g.creationMs
  | .creationBy => textOrNull g.creationBy
  | .modificationMs => .int g.modificationMs
  | .deletionMs => .int g.deletionMs
  | .references => texts g.references

/-- A record as a document value. -/
def toValue (g : Group) : Value :=
  .object (Field.all.map fun f => (f.spelling.camel, g.fieldValue f))

/-- Replaces one field, under the checks of that field. -/
def setField (g : Group) (field : Field) (v : Value) : Checked Group :=
  let at? {α : Type} (set : α → Group) (result : Except Complaint α) : Checked Group :=
    set <$> Checked.ofExcept [.field field.spelling.snake] result
  match field with
  | .id => at? (fun x => { g with id := x }) (checkTextOrNull v)
  | .shortId => at? (fun x => { g with shortId := x }) (checkShortId v)
  | .version => at? (fun x => { g with version := x }) (checkInteger 1 v)
  | .name => at? (fun x => { g with name := x }) (checkText 0 v)
  | .description => at? (fun x => { g with description := x }) (checkText 0 v)
  | .language => at? (fun x => { g with language := x }) (checkLanguage v)
  | .active => at? (fun x => { g with active := x }) (checkFlag v)
  | .virtual => at? (fun x => { g with virtual := x }) (checkFlag v)
  | .creationMs => at? (fun x => { g with creationMs := x }) (checkInteger 0 v)
  | .creationBy => at? (fun x => { g with creationBy := x }) (checkTextOrNull v)
  | .modificationMs => at? (fun x => { g with modificationMs := x }) (checkInteger 0 v)
  | .deletionMs => at? (fun x => { g with deletionMs := x }) (checkInteger 0 v)
  | .references =>
    (fun x => { g with references := x })
      <$> (checkGroupReferences v).below (.field field.spelling.snake)

/-- Why a name cannot be given a value, whatever fields there are. -/
inductive Unsettable where
  /-- The name stands for something that is worked out. -/
  | workedOut (name : Text)
  /-- The name stands for the kind of the record itself. -/
  | kind (kindWord : String)
  /-- The name stands for all of the contents at once. -/
  | contents (kindWord : String)
  deriving DecidableEq, Repr

/-- The wording of a name that cannot be given a value. -/
def Unsettable.message : Unsettable → Text
  | .workedOut name => "property '" ++ name ++ "' of 'GroupRecord' object has no setter"
  | .kind word =>
    "__class__ must be set to a class, not '" ++ Text.ofString word ++ "' object"
  | .contents word =>
    "__dict__ must be set to a dictionary, not a '" ++ Text.ofString word ++ "'"

/-- Why a change of a record fails. -/
inductive SetFault where
  | rejected (rejection : Rejection)
  | unsettable (fault : Unsettable)
  deriving DecidableEq, Repr

/-- The names that stand for something that is worked out. -/
def workedOutNames : List Text :=
  ["model_extra", "model_fields_set", "__fields_set__"]

/-- Why a name cannot be given a value. -/
def unsettable? (name : Text) (v : Value) : Option Unsettable :=
  if name ∈ workedOutNames then some (.workedOut name)
  else if name = ("__class__" : Text) then some (.kind v.kindWord)
  else if name = ("__dict__" : Text) then some (.contents v.kindWord)
  else none

/-- The name is free for private notes, which are no part of the
record. -/
def isPrivate (name : Text) : Bool :=
  name.head? = some (.char '_')

/-- Replaces the field of a name, under the checks of that field; only
the second spelling of a name counts. -/
def set (g : Group) (name : Text) (v : Value) : Except SetFault Group :=
  match unsettable? name v with
  | some fault => .error (.unsettable fault)
  | none =>
    match Field.all.find? (fun f => f.spelling.snake == name) with
    | some field => ((g.setField field v).toExcept .group).mapError .rejected
    | none =>
      if isPrivate name then .ok g
      else .error (.rejected (.faults .group [⟨[.field name], .fieldUnknown name⟩]))

/-- The record lists a short id among its references. -/
def refersTo (g : Group) (shortId : Text) : Bool :=
  g.references.contains shortId

end Group

end Lineage
