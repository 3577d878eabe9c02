/-
Lineage.Config.Settings — the settings of a program.

A setting is looked for in the arguments, the variables for whole
fields, the nested variables, the file of the environment and the
default file, in this order; mappings are merged, so that one source
hides no sibling setting of another.  The environment itself, which
decides on the second file, comes from an argument or a variable alone.

The arguments and the variables for whole fields are brought together by
a package, which keeps some arguments for itself (`SettingsReader`).
-/
import Lineage.Config.Layers
import Lineage.Value.Literal

namespace Lineage

/-- The environments a program runs in. -/
inductive Environment where
  | development
  | testing
  | production
  deriving DecidableEq, Repr

/-- The name of an environment. -/
def Environment.name : Environment → Text
  | .development => "development"
  | .testing => "testing"
  | .production => "production"

/-- All environments. -/
def Environment.all : List Environment :=
  [.development, .testing, .production]

/-- The environment of a name. -/
def Environment.ofName? (name : Text) : Option Environment :=
  Environment.all.find? fun e => e.name == name

/-- Where output and logs are written. -/
structure OutputPaths where
  outputDir : Path
  logsDir : Path
  deriving DecidableEq, Repr

/-- The settings of a program. -/
structure Settings where
  environment : Environment
  configDir : Path
  paths : OutputPaths
  /-- The output directories are made when the settings are read. -/
  createDirs : Bool
  policies : Policies
  deriving DecidableEq, Repr

namespace Settings

open Schema

/-- The file to which log lines are written. -/
def logFile (s : Settings) : Path :=
  s.paths.logsDir.child "grouphierarchy.log"

/-! ## Sources -/

/-- Names of fields with the names of the fields within them. -/
abbrev Spellings := List (Text × List Text)

/-- The spellings of the fields that are mappings. -/
def spellings : String → Spellings
  | "paths" => [("output_dir", []), ("logs_dir", [])]
  | "policies" =>
    [("policy_version", []),
      ("groups", ["max_depth", "cache_max_size", "cache_expiration_seconds"])]
  | _ => []

/-- The known name that a name spells in any letter case, or the name
itself. -/
def knownName (known : List Text) : Scalar → Scalar
  | .text name =>
    .text ((known.find? fun k => Text.lowercase k == Text.lowercase name).getD name)
  | name => name

/-- Fields under their known names. -/
def respell (known : List Text) (fields : Fields) : Fields :=
  Keyed.ofPairs (fields.map fun (name, v) => (knownName known name, v))

/-- The names known within a field. -/
def knownWithin (known : Spellings) : Scalar → List Text
  | .text name => (known.lookup name).getD []
  | _ => []

/-- Fields, and the fields within them, under their known names. -/
def respellDeep (known : Spellings) (fields : Fields) : Fields :=
  (respell (known.map (·.1)) fields).map fun (name, v) =>
    match v with
    | .object inner => (name, .object (respell (knownWithin known name) inner))
    | v => (name, v)

section Gathering

variable [Stack]

/-- The value that a variable gives to a field that is a mapping; null
gives none. -/
def decodeField (field : String) (raw : Text) : Except Failure (Option Value) :=
  match Json.readWithin (Stack.room .readField) raw with
  | .error fault =>
    .error (if fault.cause.kind = .depth then .json fault else .badVariable field)
  | .ok .null => .ok none
  | .ok (.object fields) => .ok (some (.object (respellDeep (spellings field) fields)))
  | .ok v => .ok (some v)

/-- The fields of settings. -/
def fieldNames : List String :=
  ["environment", "config_dir", "paths", "create_dirs", "policies"]

/-- The values that variables give to fields. -/
def fieldVariables (vars : Variables) : List String → Except Failure (Fields)
  | [] => .ok []
  | field :: rest =>
    let here : Except Failure (Option Value) :=
      match vars.field? field with
      | none => .ok none
      | some raw =>
        if (spellings field).isEmpty then .ok (some (.text raw)) else decodeField field raw
    match here with
    | .error failure => .error failure
    | .ok none => fieldVariables vars rest
    | .ok (some v) => (fieldVariables vars rest).map ((.text field, v) :: ·)

/-- The arguments laid over the variables for whole fields. -/
def gatherFields (vars : Variables) (arguments : Mapping) : Except Failure Mapping :=
  match fieldVariables vars fieldNames with
  | .error failure => .error failure
  | .ok whole => Config.lay .gather (.ofFields whole) arguments

end Gathering

end Settings

/-- A name that begins with an underscore. -/
def Scalar.isReserved : Scalar → Bool
  | .text (.char '_' :: _) => true
  | _ => false

/-- No argument has a name that begins with an underscore. -/
def Mapping.Plain (arguments : Mapping) : Prop :=
  ∀ l ∈ arguments.links, l.1.isReserved = false

instance : DecidablePred Mapping.Plain := fun arguments =>
  inferInstanceAs (Decidable (∀ l ∈ arguments.links, l.1.isReserved = false))

/-- The package that brings the arguments and the variables for whole
fields together.  The arguments whose names begin with an underscore are
for the package itself, and where there is none of them the others are
laid over the variables. -/
class SettingsReader [Stack] where
  gather : Surroundings → Mapping → Except Failure Mapping
  gather_plain : ∀ s arguments, arguments.Plain →
    gather s arguments = Settings.gatherFields s.vars arguments

namespace Settings

open Schema

variable [Stack]

/-! ## Checks -/

/-- The name of an environment. -/
def checkEnvironment : Value → Except Complaint Environment
  | .text t =>
    match Environment.ofName? t with
    | some e => .ok e
    | none => .error (if t.isBroken then .textBroken else .environmentUnknown)
  | _ => .error .environmentUnknown

/-- A path. -/
def checkPath : Value → Except Complaint Path :=
  orBytes .pathExpected fun
    | .text t => .ok (Path.ofText t)
    | _ => .error .pathExpected

/-- The paths of an installation that names none. -/
def standardPaths (home : Path) : OutputPaths :=
  ⟨home.child "output", home.child "logs"⟩

/-- Checks output paths. -/
def checkPaths (home : Path) : Value → Checked OutputPaths
  | .object fields =>
    OutputPaths.mk
      <$> optional fields ⟨"output_dir", "output_dir"⟩ (standardPaths home).outputDir checkPath
      <*> optional fields ⟨"logs_dir", "logs_dir"⟩ (standardPaths home).logsDir checkPath
  | _ => .faulty [⟨[], .recordExpected .paths⟩]

/-- The directory of the configuration files. -/
def standardConfigDir (home : Path) : Path :=
  home.child "config"

/-- Checks the fields of settings other than the policies. -/
def checkFields (home : Path) (policies : Policies) (fields : Fields) :
    Checked Settings :=
  Settings.mk
    <$> optional fields ⟨"environment", "environment"⟩ .development checkEnvironment
    <*> optional fields ⟨"config_dir", "config_dir"⟩ (standardConfigDir home) checkPath
    <*> optionalChecked fields ⟨"paths", "paths"⟩ (standardPaths home) (checkPaths home)
    <*> optional fields ⟨"create_dirs", "create_dirs"⟩ false
      (orBytes .flagUnreadable checkFlag)
    <*> .ok policies

/-! ## Reading settings -/

/-- The environment that the variable names, or the usual one. -/
def usualLayer (vars : Variables) : Text :=
  (vars.reverse.lookup Variables.environmentName).getD "development"

/-- The name of the file layer: what is said explicitly, if it says
something, or the variable for it. -/
def layerName (vars : Variables) (explicit : Mapping) : Except Failure Text :=
  match explicit.get? (.text "environment") with
  | some g =>
    if g.heap.saysNothing g.root then .ok (usualLayer vars)
    else
      match g.plainText (Stack.room .spell) with
      | none => .error (.tooDeep .spell)
      | some name => .ok name
  | none => .ok (usualLayer vars)

/-- The directory of the file layers. -/
def layerDirectory (home : Path) (explicit : Mapping) : Except Failure Path :=
  match explicit.get? (.text "config_dir") with
  | some g =>
    if g.heap.saysNothing g.root then .ok (standardConfigDir home)
    else
      match g.root with
      | .scalar (.text t) => .ok (Path.ofText t)
      | r => .error (.noPath (g.heap.kindWord r))
  | none => .ok (standardConfigDir home)

/-- What the sources say about policies; what says nothing counts as an
empty mapping. -/
def policySourceOf (combined : Mapping) : Graph :=
  match combined.get? (.text "policies") with
  | some g => if g.heap.saysNothing g.root then .ofValue (.object []) else g
  | none => .ofValue (.object [])

section Loading

variable [YamlReader]

/-- The policies that settings are read with: those given, or those that
the sources describe. -/
def policiesOf (s : Surroundings) (combined : Mapping) :
    Option Policies → Except Failure Policies
  | some policies => .ok policies
  | none => Config.loadPoliciesFrom s.files s.vars .settings (policySourceOf combined)

/-- The layers with what is said explicitly over them, and the
policies. -/
def combine (s : Surroundings) (explicit : Mapping) (given : Option Policies) :
    Except Failure (Mapping × Policies) :=
  match layerDirectory s.home explicit with
  | .error failure => .error failure
  | .ok directory =>
    match Config.layeredMapping s.files s.vars directory (layerName s.vars explicit) with
    | .error failure => .error failure
    | .ok below =>
      match Config.lay .merge below explicit with
      | .error failure => .error failure
      | .ok combined => (policiesOf s combined given).map fun p => (combined, p)

end Loading

/-- A failure of the layers or of the directories as the settings report
it: one about a value is a fault of the settings as a whole. -/
def reported : Failure → Failure
  | .rejected rejection => .rejected rejection
  | failure =>
    if failure.concernsValue then
      .rejected (.faults .settings [⟨[], .refused failure.message⟩])
    else failure

/-- Makes a directory of the settings: a relative one below the site. -/
def makeDirectory (site : Path) (f : Files) (p : Path) : Except Failure (Files × Path) :=
  let p := if p.isAbsolute then p else site.join p
  match f.makeDirectory p with
  | (_, some fault) => .error (reported (.file fault))
  | (f, none) => .ok (f, p)

/-- Makes the output directories, if the settings ask for it. -/
def makeDirectories (s : Surroundings) (settings : Settings) :
    Except Failure (Settings × Files) :=
  if settings.createDirs then
    match makeDirectory s.site s.files settings.paths.outputDir with
    | .error failure => .error failure
    | .ok (f, output) =>
      match makeDirectory s.site f settings.paths.logsDir with
      | .error failure => .error failure
      | .ok (f, logs) => .ok ({ settings with paths := ⟨output, logs⟩ }, f)
  else .ok (settings, s.files)

/-- How deep the fields of settings stand within one another: the limits
of groups within policies, but these are read on their own. -/
def fieldDepth : Nat := 2

section Loading

variable [YamlReader] [SettingsReader]

/-- Reads settings from arguments that may share parts and from what is
around; `given` are policies that are not looked for. -/
def loadFrom (s : Surroundings) (arguments : Mapping) (given : Option Policies) :
    Except Failure (Settings × Files) :=
  match SettingsReader.gather s arguments with
  | .error failure => .error failure
  | .ok gathered =>
    match combine s gathered.said given with
    | .error failure => .error (reported failure)
    | .ok (combined, policies) =>
      match (checkFields s.home policies (combined.view fieldDepth)).toExcept .settings with
      | .error rejection => .error (.rejected rejection)
      | .ok settings => makeDirectories s settings

/-- Reads settings from arguments. -/
def load (s : Surroundings) (arguments : Fields) (given : Option Policies) :
    Except Failure (Settings × Files) :=
  loadFrom s (.ofFields arguments) given

end Loading

/-- Settings as a document value. -/
def toValue (s : Settings) : Value :=
  .object [("environment", .text s.environment.name), ("config_dir", .text s.configDir.text),
    ("create_dirs", .bool s.createDirs), ("output_dir", .text s.paths.outputDir.text),
    ("logs_dir", .text s.paths.logsDir.text), ("log_file", .text s.logFile.text),
    ("policy_version", .text s.policies.policyVersion), ("policies", s.policies.toValue)]

end Settings

/-- Settings that are read once: the first that could be read stand. -/
structure SettingsCache where
  read : Option Settings := none

namespace SettingsCache

variable [Stack] [YamlReader] [SettingsReader]

/-- The settings, read now if none could be read before, and whether
they had been read before. -/
def get (cache : SettingsCache) (s : Surroundings) :
    SettingsCache × Except Failure (Settings × Bool) :=
  match cache.read with
  | some settings => (cache, .ok (settings, true))
  | none =>
    match Settings.load s [] none with
    | .error failure => (cache, .error failure)
    | .ok (settings, _) => (⟨some settings⟩, .ok (settings, false))

end SettingsCache

end Lineage
