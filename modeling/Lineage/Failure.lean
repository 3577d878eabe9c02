/-
Lineage.Failure — every way in which an operation on documents, settings
and directories can fail, and its wording.
-/
import Lineage.Directory
import Lineage.Files.Basic
import Lineage.Json.Reader
import Lineage.Value.Merge
import Lineage.Yaml.Fault

namespace Lineage

/-- The kinds of files that operations look for. -/
inductive FileRole where
  | groups
  | acls
  | policies
  deriving DecidableEq, Repr

/-- The wording of a file that is not there. -/
def FileRole.absentText : FileRole → Text
  | .groups => "group file not found: "
  | .acls => "acl file not found: "
  | .policies => "Policy file not found: "

/-- Why a nested variable cannot be entered: another variable put a text
where a mapping is needed. -/
inductive ScalarOnPath where
  /-- The path goes on through the text. -/
  | through
  /-- The path ends directly below the text. -/
  | below
  deriving DecidableEq, Repr

/-- Why an operation fails. -/
inductive Failure where
  | rejected (rejection : Schema.Rejection)
  | unsettable (fault : Group.Unsettable)
  | hierarchy (fault : HierarchyFault)
  | expiryOverflow
  | file (fault : FileFault)
  | absent (role : FileRole) (path : Path)
  | encoding (fault : Text.Utf8.Fault)
  | json (fault : Json.Fault)
  /-- A line of a file is no document. -/
  | badLine (path : Path) (line : Nat)
  | yaml (fault : Yaml.Fault)
  /-- A configuration file holds something else than a mapping. -/
  | noConfiguration (path : Path)
  /-- A policy file holds something else than a mapping. -/
  | noPolicies (path : Path)
  | crossing (c : Crossing)
  | scalarOnPath (s : ScalarOnPath)
  /-- A value stands where a path is needed. -/
  | noPath (kindWord : String)
  /-- A variable that must hold a document holds none. -/
  | badVariable (field : String)
  | depthNotPositive
  | overrideWithoutValue (argument : Text)
  | overrideWithoutKey
  /-- The calls of a routine are open too deep. -/
  | tooDeep (routine : Routine)
  /-- A package that is called fails. -/
  | raised (e : Raised)
  deriving Repr

namespace Failure

/-- The failure of an operation of a directory. -/
def ofDirectory : DirectoryFault → Failure
  | .hierarchy fault => .hierarchy fault
  | .rejected rejection => .rejected rejection
  | .expiryOverflow => .expiryOverflow

/-- The failure of a change of a record. -/
def ofChange : Group.SetFault → Failure
  | .rejected rejection => .rejected rejection
  | .unsettable fault => .unsettable fault

/-- The wording of a failure; rejected records have the wordings of their
faults instead. -/
def message : Failure → Text
  | .rejected (.misfit m) => m.message
  | .rejected (.faults ..) => []
  | .unsettable fault => fault.message
  | .hierarchy fault => fault.message
  | .expiryOverflow => "int too large to convert to float"
  | .file fault => fault.message
  | .absent role path => role.absentText ++ path.text
  | .encoding fault => fault.message
  | .json fault => fault.message
  | .badLine path line => path.text ++ ":" ++ Text.decimal line ++ ": invalid JSON line"
  | .yaml fault => fault.message
  | .noConfiguration path => "configuration file '" ++ path.text ++ "' must hold a mapping"
  | .noPolicies path =>
    "Policy file '" ++ path.text ++ "' must contain a mapping at the top level"
  | .crossing c =>
    "policy override '" ++ Text.join "." c.path ++ "' crosses non-mapping value at '"
      ++ Text.join "." (c.path.take c.depth) ++ "'"
  | .scalarOnPath .through => "'str' object has no attribute 'setdefault'"
  | .scalarOnPath .below => "'str' object does not support item assignment"
  | .noPath word =>
    if word = "bytes" then
      "argument should be a str object or an os.PathLike object returning str, not <class 'bytes'>"
    else "expected str, bytes or os.PathLike object, not " ++ Text.ofString word
  | .badVariable field =>
    "error parsing value for field \"" ++ Text.ofString field
      ++ "\" from source \"EnvSettingsSource\""
  | .depthNotPositive => "max_depth must be positive"
  | .overrideWithoutValue argument => "expected dotted.key=value, got '" ++ argument ++ "'"
  | .overrideWithoutKey => "override key is empty"
  | .tooDeep _ => "maximum recursion depth exceeded"
  | .raised e => e.message

/-- The failure is about a value: what was given cannot be used.  The
other failures are about files that cannot be opened, about kinds of
values that are not handled at all, about sizes that are not, or about
calls that are open too deep. -/
def concernsValue : Failure → Bool
  | .rejected (.faults ..) => true
  | .file fault => fault.concernsValue
  | .encoding _ => true
  | .json fault => fault.cause.kind ≠ .depth
  | .badLine .. => true
  | .yaml fault => fault.kind = .value
  | .noConfiguration _ => true
  | .noPolicies _ => true
  | .crossing _ => true
  | .badVariable _ => true
  | .depthNotPositive => true
  | .hierarchy fault => fault.kind = .notInHierarchy || fault.kind = .loop
  | .raised e => e.ofValue
  | _ => false

/-- The failure is about a file that cannot be opened. -/
def concernsFile : Failure → Bool
  | .file fault => !fault.concernsValue
  | .absent .. => true
  | _ => false

end Failure

end Lineage
