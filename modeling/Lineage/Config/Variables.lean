/-
Lineage.Config.Variables — settings from environment variables.

The name of a nested variable spells a path: its parts stand between
double underscores, empty parts do not count and letter case does not
matter.  Variables are taken in the order of the code points of their
names, so that a later one may replace what an earlier one entered.

`nestedVariables` builds a mapping of raw texts, `policyVariables` enters
decoded values into a mapping that is there, and `policiesIn` enters them
into one whose parts may be shared.  All refuse to go through a value
that is no mapping.
-/
import Lineage.Failure
import Lineage.Text.Lowercase
import Lineage.Value.Places

namespace Lineage

/-- Environment variables, by name. -/
abbrev Variables := List (Text × Text)

namespace Variables

/-- The start of the names of nested settings. -/
def settingsStart : Text := "GROUPHIERARCHY_SETTINGS__"

/-- The start of the names of policy variables. -/
def policyStart : Text := "GROUPHIERARCHY_POLICY__"

/-- The start of the names of variables for whole fields. -/
def fieldStart : Text := "GROUPHIERARCHY_"

/-- The variable that names the environment. -/
def environmentName : Text := "GROUPHIERARCHY_ENV"

/-- The variable that names the directory of the user. -/
def homeName : Text := "HOME"

/-- The variables in the order of the code points of their names. -/
def sorted (vars : Variables) : Variables :=
  vars.mergeSort fun a b => a.1.atMost b.1

/-- What follows a start, if the text begins with it. -/
def after? : Text → Text → Option Text
  | [], rest => some rest
  | s :: start, c :: rest => if s = c then after? start rest else none
  | _ :: _, [] => none

/-- The parts of a name between double underscores; `part` holds the
part so far, its end first. -/
def nameParts (part : Text) : Text → List Text
  | [] => [part.reverse]
  | .char '_' :: .char '_' :: rest => part.reverse :: nameParts [] rest
  | p :: rest => nameParts (p :: part) rest

/-- The path that the name of a nested variable spells behind a start. -/
def path? (start name : Text) : Option (List Text) :=
  (after? start name).map fun rest =>
    ((nameParts [] rest).filter fun part => !part.isEmpty).map Text.lowercase

/-- The paths and texts of the nested variables behind a start, in the
order in which they count; a name that spells no path does not count. -/
def pathsOf (start : Text) (vars : Variables) : List (List Text × Text) :=
  vars.sorted.filterMap fun (name, raw) =>
    match path? start name with
    | some (key :: keys) => some (key :: keys, raw)
    | _ => none

/-! ## Raw texts -/

/-- Enters a raw text at a path of a mapping that holds mappings and
texts. -/
def enterRaw (fields : Fields) (path : List Text) (raw : Text) :
    Except ScalarOnPath (Fields) :=
  match path with
  | [] => .ok fields
  | [key] => .ok (Keyed.put fields (.text key) (.text raw))
  | key :: next :: rest =>
    match Keyed.get? fields (.text key) with
    | none =>
      (enterRaw [] (next :: rest) raw).map fun inner =>
        Keyed.put fields (.text key) (.object inner)
    | some (.object inner) =>
      (enterRaw inner (next :: rest) raw).map fun inner =>
        Keyed.put fields (.text key) (.object inner)
    | some _ => .error (if rest.isEmpty then .below else .through)

/-- Enters raw texts one after the other. -/
def enterRaws (fields : Fields) :
    List (List Text × Text) → Except ScalarOnPath (Fields)
  | [] => .ok fields
  | (path, raw) :: rest =>
    match enterRaw fields path raw with
    | .error s => .error s
    | .ok fields => enterRaws fields rest

/-- The settings that nested variables spell. -/
def nestedVariables (vars : Variables) : Except ScalarOnPath (Fields) :=
  enterRaws [] (pathsOf settingsStart vars)

/-! ## Decoded values -/

section Decoded

variable [Stack]

/-- The document that a text holds, or the text itself. -/
def decode (routine : Routine) (raw : Text) : Except Json.Fault Value :=
  match Json.readWithin (Stack.room routine) raw with
  | .ok v => .ok v
  | .error fault => if fault.cause.kind = .grammar then .ok (.text raw) else .error fault

/-- Enters decoded values one after the other. -/
def enterDecoded (fields : Fields) :
    List (List Text × Text) → Except Failure (Fields)
  | [] => .ok fields
  | (path, raw) :: rest =>
    match decode .readPolicy raw with
    | .error fault => .error (.json fault)
    | .ok v =>
      match setPath fields path v with
      | .error c => .error (.crossing c)
      | .ok fields => enterDecoded fields rest

/-- A raw policy mapping with the policy variables entered into it. -/
def policyVariables (vars : Variables) (fields : Fields) :
    Except Failure (Fields) :=
  enterDecoded fields (pathsOf policyStart vars)

/-- Enters decoded values one after the other into the mapping at a place
of a heap. -/
def enterPlanted (h : Heap) (root : Nat) : List (List Text × Text) → Except Failure Heap
  | [] => .ok h
  | (path, raw) :: rest =>
    match decode .readPolicy raw with
    | .error fault => .error (.json fault)
    | .ok v =>
      let (h, r) := h.plant v
      match h.enter root path r with
      | .error c => .error (.crossing c)
      | .ok h => enterPlanted h root rest

/-- The heap of a raw policy mapping with the policy variables entered
into it. -/
def policiesIn (vars : Variables) (h : Heap) (root : Nat) : Except Failure Heap :=
  enterPlanted h root (pathsOf policyStart vars)

end Decoded

/-! ## Whole fields -/

/-- The variable for a field, in any letter case; of several the last
one counts. -/
def field? (vars : Variables) (field : Text) : Option Text :=
  let name := Text.lowercase (fieldStart ++ field)
  (vars.reverse.find? fun v => Text.lowercase v.1 == name).map (·.2)

end Variables

end Lineage
