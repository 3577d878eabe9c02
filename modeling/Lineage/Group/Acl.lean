/-
Lineage.Group.Acl — what one user may see and do in a group: a name of
the user's own for it, and roles.
-/
import Lineage.Group.Basic

namespace Lineage

/-- An access annotation of a group. -/
structure Acl where
  /-- The short id of the annotated group. -/
  group : Text
  /-- The user's own name for the group. -/
  localName : Option Text
  roles : List Text
  deriving DecidableEq, Repr, Inhabited

namespace Acl

open Schema

/-- Checks the fields of an annotation. -/
def checkFields (fields : Fields) : Checked Acl :=
  Acl.mk
    <$> required fields ⟨"group", "group"⟩ (checkText 1)
    <*> optional fields ⟨"localName", "local_name"⟩ none checkTextOrNull
    <*> optionalChecked fields ⟨"roles", "roles"⟩ [] checkRoles

/-- Reads an annotation from a document value. -/
def check (v : Value) : Except Rejection Acl :=
  match v with
  | .object fields => (checkFields fields).toExcept .acl
  | _ => .error (.faults .acl [⟨[], .recordExpected .acl⟩])

/-- An annotation as a document value. -/
def toValue (a : Acl) : Value :=
  .object [("group", .text a.group), ("localName", Group.textOrNull a.localName),
    ("roles", Group.texts a.roles)]

end Acl

end Lineage
