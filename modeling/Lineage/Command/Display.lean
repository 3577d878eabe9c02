/-
Lineage.Command.Display — displaying hierarchies from files.

`displayFiles` loads records, projects the hierarchy below each head and
writes the views where that is asked for; nothing is written unless all
views could be produced.  `Display.run` is the command line around it.
-/
import Lineage.Command.Arguments
import Lineage.Config.Settings

namespace Lineage

/-- What is to be displayed. -/
structure DisplayRequest where
  groups : List Path
  heads : List Text
  /-- The file for the views. -/
  output : Option Path
  /-- The file of annotations. -/
  acls : Option Path

namespace Display

section Loading

variable [Stack]

/-- The directory of loaded records. -/
def directoryOf (s : Surroundings) (settings : Settings) (groups : List Path) :
    Except Failure Directory :=
  (s.files.loadGroups s.clock.stamp groups).map fun gs =>
    (Directory.empty settings.policies.groups).upsertAll gs

/-- The annotations of a file, if one is named. -/
def aclsOf (f : Files) : Option Path → Except Failure (List Acl)
  | none => .ok []
  | some p => f.loadAcls p

/-- Loads records and projects the hierarchy below each head. -/
def viewsOf (s : Surroundings) (settings : Settings) (r : DisplayRequest) :
    Except Failure (List View) :=
  match directoryOf s settings r.groups with
  | .error failure => .error failure
  | .ok directory =>
    match aclsOf s.files r.acls with
    | .error failure => .error failure
    | .ok acls => (directory.display acls s.clock r.heads).2.mapError .ofDirectory

/-- Displays what a request asks for: the files afterwards, and the
views. -/
def displayFiles (s : Surroundings) (settings : Settings) (r : DisplayRequest) :
    Files × Except Failure (List View) :=
  match viewsOf s settings r, r.output with
  | .ok views, some p =>
    match s.files.writeViews p views with
    | (f, none) => (f, .ok views)
    | (f, some fault) => (f, .error (.file fault))
  | result, _ => (s.files, result)

end Loading

/-- How views are printed. -/
def printStyle : Json.Style := ⟨Files.usualIndent, false, true⟩

/-- The text of printed views. -/
def printViews (views : List View) : Text :=
  Json.print printStyle (.array (View.toValues views)) ++ "\n"

/-- A path that is named, unless its name is empty. -/
def namedPath? : Option Text → Option Path
  | none => none
  | some t => if t.isEmpty then none else some (Path.ofText t)

/-! ## The command line -/

/-- The arguments of the command line. -/
structure Arguments where
  request : DisplayRequest
  environment : Option Environment

/-- The arguments that the settings are read from. -/
def Arguments.given (a : Arguments) : Fields :=
  match a.environment with
  | some e => [("environment", .text e.name)]
  | none => []

/-- The last value of an option. -/
def lastOf (r : Abbreviated.Reading) (long : Text) : Option Text :=
  ((r.options.filter fun o => o.1 == long).map (·.2)).getLast?

/-- The value is one that the option takes: an environment must be one
that there is. -/
def accepts (long value : Text) : Bool :=
  long ≠ ("--environment" : Text) || (Environment.ofName? value).isSome

/-- Reads the arguments: at least one file and one head. -/
def readArguments (args : List Text) : Except ArgumentEnd Arguments :=
  match Abbreviated.read ["--head", "--output", "--acls", "--environment"] accepts args with
  | .error e => .error e
  | .ok r =>
    let heads := (r.options.filter fun o => o.1 == ("--head" : Text)).map (·.2)
    match r.plain with
    | some inputs =>
      if heads.isEmpty || r.leftOver then .error .usage
      else
        .ok
          { request :=
              { groups := inputs.map Path.ofText
                heads := heads
                output := namedPath? (lastOf r "--output")
                acls := namedPath? (lastOf r "--acls") }
            environment := (lastOf r "--environment").bind Environment.ofName? }
    | none => .error .usage

/-- How a command line ends. -/
inductive Ending where
  | exit (code : Nat)
  | failed (failure : Failure)
  | refused (e : ArgumentEnd)

/-- What a command line comes to: its end, its output and the files. -/
structure Outcome where
  ending : Ending
  output : Text
  files : Files

variable [Stack] [YamlReader] [SettingsReader]

/-- Runs the command line: hierarchies that cannot be had give exit code
one. -/
def run (s : Surroundings) (args : List Text) : Outcome :=
  let ended (ending : Ending) : Outcome := ⟨ending, [], s.files⟩
  match readArguments args with
  | .error e => ended (.refused e)
  | .ok a =>
    match Settings.load s a.given none with
    | .error failure => ended (.failed failure)
    | .ok (settings, files) =>
      match displayFiles { s with files := files } settings a.request with
      | (files, .error (.hierarchy _)) => ⟨.exit 1, [], files⟩
      | (files, .error failure) => ⟨.failed failure, [], files⟩
      | (files, .ok views) =>
        match a.request.output with
        | some _ => ⟨.exit 0, [], files⟩
        | none => ⟨.exit 0, printViews views, files⟩

end Display

end Lineage
