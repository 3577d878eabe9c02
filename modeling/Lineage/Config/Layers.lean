/-
Lineage.Config.Layers — where settings come from.

Three layers are laid one over the other: the default file, the file of
the environment, and the nested variables.  Policies come from a mapping
or from a file, with the policy variables entered into them.  A mapping
is copied before, a file is not; a copy shares parts where the mapping
does.
-/
import Lineage.Config.Policy
import Lineage.Config.Variables
import Lineage.Files.Records
import Lineage.Value.Laying

namespace Lineage

/-- What a program finds around it: files, variables, and the two
directories of the installation: `home` holds the configuration and is
the default place of output, and relative output directories are made
below `site`. -/
structure Surroundings where
  files : Files
  vars : Variables
  home : Path
  site : Path
  /-- The directory of the user, which a tilde stands for unless a
  variable names another one. -/
  userHome : Path
  /-- The directories of users by name. -/
  accounts : List (Text × Path) := []
  clock : Clock

namespace Config

variable [Stack] [YamlReader]

/-- The value of a YAML file. -/
def readYaml (f : Files) (p : Path) : Except Failure Graph :=
  match f.readText p with
  | .error failure => .error failure
  | .ok cs => (YamlReader.read cs).mapError .yaml

/-! ## Layers -/

/-- The mapping that a configuration file holds; a file that is missing
or empty holds an empty one. -/
def readLayer (f : Files) (p : Path) : Except Failure Mapping :=
  match f.hasFile p with
  | .error fault => .error (.file fault)
  | .ok false => .ok .empty
  | .ok true =>
    match readYaml f p with
    | .error failure => .error failure
    | .ok g =>
      if g.root = .scalar .null then .ok .empty
      else
        match g.mapping? with
        | some m => .ok m
        | none => .error (.noConfiguration p)

/-- The layers of settings, the default file first.  The environment is
spelled after that one has been read. -/
def layers (f : Files) (vars : Variables) (directory : Path)
    (environment : Except Failure Text) : Except Failure (List Mapping) :=
  match readLayer f (directory.child "default.yaml") with
  | .error failure => .error failure
  | .ok standard =>
    match environment with
    | .error failure => .error failure
    | .ok environment =>
      match readLayer f (directory.child (environment ++ ".yaml")) with
      | .error failure => .error failure
      | .ok named =>
        match vars.nestedVariables with
        | .error s => .error (.scalarOnPath s)
        | .ok nested => .ok [standard, named, .ofFields nested]

/-- Lays a mapping over another. -/
def lay (routine : Routine) (lower upper : Mapping) : Except Failure Mapping :=
  match lower.lay (Stack.room routine) upper with
  | none => .error (.tooDeep routine)
  | some m => .ok m

/-- Lays mappings over one another, the first lowest. -/
def layAll (routine : Routine) (lower : Mapping) : List Mapping → Except Failure Mapping
  | [] => .ok lower
  | upper :: rest =>
    match lay routine lower upper with
    | .error failure => .error failure
    | .ok m => layAll routine m rest

/-- The settings that the layers come to. -/
def layeredMapping (f : Files) (vars : Variables) (directory : Path)
    (environment : Except Failure Text) : Except Failure Mapping :=
  match layers f vars directory environment with
  | .error failure => .error failure
  | .ok ls => layAll .layer .empty ls

/-- The settings that the layers come to, as fields. -/
def layered (f : Files) (vars : Variables) (directory : Path) (environment : Text) :
    Except Failure Fields :=
  (layeredMapping f vars directory (.ok environment)).map Mapping.toFields

/-! ## Policies -/

/-- The mapping that a policy file holds, in its place; what says nothing
counts as an empty one. -/
def readPolicyFile (f : Files) (p : Path) : Except Failure (Heap × Nat) :=
  match f.has p with
  | .error fault => .error (.file fault)
  | .ok false => .error (.absent .policies p)
  | .ok true =>
    match readYaml f p with
    | .error failure => .error failure
    | .ok g =>
      if g.heap.saysNothing g.root then .ok ([.fields []], 0)
      else
        match g.root, g.mapping? with
        | .place n, some _ => .ok (g.heap, n)
        | _, _ => .error (.noPolicies p)

/-- The raw policy mapping of a source, in its place: a copy of a mapping,
or what the file at a path holds. -/
def policySource (f : Files) (source : Graph) : Except Failure (Heap × Nat) :=
  match source.mapping? with
  | some m =>
    if m.heap.copies (Stack.room .copy) m.links then
      .ok (m.heap ++ [.fields m.links], m.heap.length)
    else .error (.tooDeep .copy)
  | none =>
    match source.root with
    | .scalar (.text t) => readPolicyFile f (Path.ofText t)
    | r => .error (.noPath (source.heap.kindWord r))

/-- The fields of the mapping at a place, as far as policies have
fields. -/
def policyFields (h : Heap) (root : Nat) : Fields :=
  h.viewLinks 1 ((h.links? (.place root)).getD [])

/-- Reads policies from a source that may share parts; `model` names the
record that reports their faults. -/
def loadPoliciesFrom (f : Files) (vars : Variables) (model : Schema.Model) (source : Graph) :
    Except Failure Policies :=
  match policySource f source with
  | .error failure => .error failure
  | .ok (h, root) =>
    match vars.policiesIn h root with
    | .error failure => .error failure
    | .ok h => ((Policies.checkFields (policyFields h root)).toExcept model).mapError .rejected

/-- Reads policies from a source.  A mapping that shares nothing is
entered into as it stands. -/
def loadPolicies (f : Files) (vars : Variables) (model : Schema.Model) (source : Value) :
    Except Failure Policies :=
  match source with
  | .object raw =>
    let m := Mapping.ofFields raw
    if m.heap.copies (Stack.room .copy) m.links then
      match vars.policyVariables raw with
      | .error failure => .error failure
      | .ok fields => ((Policies.checkFields fields).toExcept model).mapError .rejected
    else .error (.tooDeep .copy)
  | v => loadPoliciesFrom f vars model (.ofValue v)

end Config

end Lineage
