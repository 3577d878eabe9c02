/-
Lineage.Command.Explore — the command line with the commands `show` and
`members`.

The options before the command decide on the settings, which are read
before the arguments of the command are.  What can be told to the user
in one line is printed and gives exit code two (`Trouble`); anything
else fails as it is.  At last everything is printed, unless the console
refuses it (`Outcome.shown`).
-/
import Lineage.Command.Display
import Lineage.Command.Override
import Lineage.Usual

namespace Lineage.Explore

/-- How a command line ends. -/
inductive Ending where
  | done
  | troubled (t : Trouble)
  | failed (failure : Failure)
  | refused (e : ArgumentEnd)
  /-- A tilde with a name stands for no directory. -/
  | homeless

/-- What a command line comes to: its end, what it printed, its output
and the files. -/
structure Outcome where
  ending : Ending
  printed : List Printed
  output : Text
  files : Files

/-- The exit code of a command line that ends of its own accord. -/
def Ending.exitCode? : Ending → Option Nat
  | .done => some 0
  | .troubled _ => some 2
  | _ => none

/-! ## Arguments -/

/-- The options before the command. -/
structure Common where
  environment : Option Text
  overrides : List Text
  verbose : Bool

/-- A command with its arguments. -/
inductive Command where
  | showHeads (heads : List Text) (groups : List Path) (acls output : Option Path)
      (asJson : Bool)
  | members (head : Text) (groups : List Path) (below : Option Text)

/-- The options before the command. -/
def commonSpecs : List Exact.OptionSpec :=
  [⟨"--environment", some 'e', true⟩, ⟨"--override", some 'o', true⟩,
    ⟨"--verbose", some 'v', false⟩]

/-- The options of `show`. -/
def showSpecs : List Exact.OptionSpec :=
  [⟨"--groups", some 'g', true⟩, ⟨"--acls", none, true⟩, ⟨"--output", none, true⟩,
    ⟨"--json", none, false⟩]

/-- The options of `members`. -/
def membersSpecs : List Exact.OptionSpec :=
  [⟨"--groups", some 'g', true⟩, ⟨"--under", none, true⟩]

/-- Reads the options before the command, its name and its arguments. -/
def readCommon (args : List Text) : Except ArgumentEnd (Common × Text × List Text) :=
  match Exact.read commonSpecs false args with
  | .error e => .error e
  | .ok r =>
    match r.plain with
    | name :: rest =>
      if name = ("show" : Text) ∨ name = ("members" : Text) then
        .ok (⟨r.lastOf "--environment", r.valuesOf "--override", r.has "--verbose"⟩, name, rest)
      else .error .usage
    | [] => .error .usage

/-- The values of an option that are paths: all of a repeated option, or
the last one. -/
def pathValues (r : Exact.Reading) (long : Text) : List Text :=
  if long = ("--groups" : Text) then r.valuesOf long
  else if long = ("--acls" : Text) ∨ long = ("--output" : Text) then (r.lastOf long).toList
  else []

/-- Why a path among the options cannot be one; of several the first
option that was given counts. -/
def pathFault? (r : Exact.Reading) : Option FileFault :=
  ((distinct (r.options.map (·.1))).flatMap (pathValues r)).findSome? Path.textFault?

/-- Reads the arguments of a command, once its paths are found to be
some. -/
def readExact (specs : List Exact.OptionSpec) (args : List Text) : Except Ending Exact.Reading :=
  match Exact.read specs true args with
  | .error e => .error (.refused e)
  | .ok r =>
    match pathFault? r with
    | some fault => .error (.failed (.file fault))
    | none => .ok r

/-- The command `show`, which has heads and files of records. -/
def showCommand? (r : Exact.Reading) : Option Command :=
  let groups := r.valuesOf "--groups"
  if r.plain.isEmpty || groups.isEmpty then none
  else
    some (.showHeads r.plain (groups.map Path.ofText) ((r.lastOf "--acls").map Path.ofText)
      ((r.lastOf "--output").map Path.ofText) (r.has "--json"))

/-- The command `members`, which has one head and files of records. -/
def membersCommand? (r : Exact.Reading) : Option Command :=
  let groups := r.valuesOf "--groups"
  match r.plain with
  | [head] =>
    if groups.isEmpty then none
    else some (.members head (groups.map Path.ofText) (r.lastOf "--under"))
  | _ => none

/-- Reads the arguments of a command. -/
def readCommand (name : Text) (args : List Text) : Except Ending Command :=
  let (specs, command?) :=
    if name = ("show" : Text) then (showSpecs, showCommand?) else (membersSpecs, membersCommand?)
  match readExact specs args with
  | .error e => .error e
  | .ok r =>
    match command? r with
    | some command => .ok command
    | none => .error (.refused .usage)

/-! ## Running -/

/-- A failure that the configuration reports as trouble. -/
def configurationEnding (failure : Failure) : Ending :=
  match failure with
  | .rejected (.faults model items) => .troubled (.invalid (.faults model items))
  | failure =>
    if failure.concernsValue then
      .troubled (.told ("Invalid configuration: " ++ failure.message))
    else .failed failure

/-- A failure of loading, told as trouble where it concerns a value or,
if so wanted, a file. -/
def loadingEnding (filesToo : Bool) (failure : Failure) : Ending :=
  match failure with
  | .rejected (.faults model items) => .troubled (.invalid (.faults model items))
  | failure =>
    if failure.concernsValue || (filesToo && failure.concernsFile) then
      .troubled (.told failure.message)
    else .failed failure

/-- A fault of the directory, told with its code. -/
def directoryEnding : DirectoryFault → Ending
  | .hierarchy fault => .troubled (.told (fault.message ++ " (" ++ fault.code ++ ")"))
  | fault => .failed (.ofDirectory fault)

section Settings

variable [Stack] [YamlReader] [SettingsReader]

/-- Arguments with the environment, if one is named. -/
def withEnvironment (environment : Option Text) (merged : Fields) : Fields :=
  match environment with
  | some name =>
    if name.isEmpty then merged else Keyed.put merged (.text "environment") (.text name)
  | none => merged

/-- The arguments that settings are read from: the overrides, and the
environment if one is named. -/
def argumentsOf (common : Common) (overrides : List Override) : Except Failure Fields :=
  (Override.layOver [] overrides).map (withEnvironment common.environment)

/-- Settings from the options before the command. -/
def settingsOf (s : Surroundings) (common : Common) : Except Ending (Settings × Files) :=
  match Override.parseAll common.overrides with
  | .error failure => .error (.failed failure)
  | .ok overrides =>
    match argumentsOf common overrides with
    | .error failure => .error (.failed failure)
    | .ok arguments => (Settings.load s arguments none).mapError configurationEnding

end Settings

/-- The directory that a variable spells: slashes at its end do not
count, and a tilde at its start is not expanded again. -/
def spelledHome? (t : Text) : Option Path :=
  match (t.reverse.dropWhile (· = Path.slash)).reverse with
  | [] => some ⟨"/", []⟩
  | .char '~' :: _ => none
  | body => some (Path.ofText body)

/-- The directory that a tilde with the name of a user stands for, or
without a name the directory of the one who asks. -/
def homeOf? (s : Surroundings) (user : Text) : Option Path :=
  if user.isEmpty then
    match s.vars.lookup Variables.homeName with
    | some t => spelledHome? t
    | none => some s.userHome
  else s.accounts.lookup user

/-- The path with the tilde at its start expanded. -/
def expandHome (s : Surroundings) (p : Path) : Except Ending Path :=
  match p.isAbsolute, p.names with
  | false, (.char '~' :: user) :: rest =>
    match homeOf? s user with
    | some home => .ok { home with names := home.names ++ rest }
    | none => .error .homeless
  | _, _ => .ok p

/-- The path of a file that must be there.  A path that is too long is
told as trouble only where faults of files are. -/
def resolvePath (s : Surroundings) (filesToo : Bool) (p : Path) : Except Ending Path :=
  match expandHome s p with
  | .error e => .error e
  | .ok p =>
    match s.files.has p with
    | .error fault => .error (loadingEnding filesToo (.file fault))
    | .ok true => .ok p
    | .ok false => .error (.troubled (.told ("File not found: " ++ p.text)))

/-- The paths of files that must be there. -/
def resolvePaths (s : Surroundings) : List Path → Except Ending (List Path)
  | [] => .ok []
  | p :: rest =>
    match resolvePath s false p with
    | .error e => .error e
    | .ok p => (resolvePaths s rest).map (p :: ·)

section Commands

variable [Stack]

/-- The directory of loaded records. -/
def loadDirectory (s : Surroundings) (settings : Settings) (groups : List Path) :
    Except Ending Directory :=
  match resolvePaths s groups with
  | .error e => .error e
  | .ok paths => (Display.directoryOf s settings paths).mapError (loadingEnding false)

/-- The annotations of a file, if one is named. -/
def loadAcls (s : Surroundings) : Option Path → Except Ending (List Acl)
  | none => .ok []
  | some p =>
    match resolvePath s true p with
    | .error e => .error e
    | .ok p => (s.files.loadAcls p).mapError (loadingEnding true)

/-- The views of heads. -/
def viewsOf (s : Surroundings) (settings : Settings) (heads : List Text) (groups : List Path)
    (acls : Option Path) : Except Ending (List View) :=
  match loadDirectory s settings groups with
  | .error e => .error e
  | .ok directory =>
    match loadAcls s acls with
    | .error e => .error e
    | .ok acls => (directory.display acls s.clock heads).2.mapError directoryEnding

/-- The outcome of a command line that ends without output. -/
def Outcome.ended (files : Files) (e : Ending) : Outcome :=
  match e with
  | .troubled t => ⟨.troubled t, t.printed, [], files⟩
  | e => ⟨e, [], [], files⟩

/-- Writes views to a file. -/
def writeViews (s : Surroundings) (p : Path) (views : List View) : Outcome :=
  match s.files.writeViews p views with
  | (files, some fault) => .ended files (.failed (.file fault))
  | (files, none) =>
    let told := "Wrote " ++ Text.decimal views.length ++ " hierarchies to " ++ p.text
    ⟨.done, [.text told], [], files⟩

/-- Shows the hierarchies of heads: in a file, as a document, or as
trees. -/
def showHeads (s : Surroundings) (settings : Settings) (heads : List Text) (groups : List Path)
    (acls output : Option Path) (asJson : Bool) : Outcome :=
  match viewsOf s settings heads groups acls, output with
  | .error e, _ => .ended s.files e
  | .ok views, some p => writeViews s p views
  | .ok views, none =>
    if asJson then ⟨.done, [], Display.printViews views, s.files⟩
    else ⟨.done, views.map fun v => .tree v.toLabel, [], s.files⟩

/-- The row of a group in the table of members. -/
def memberRow (g : Group) : List Text :=
  [g.shortId, g.name, if g.active then "yes" else "no", Text.join ", " g.references]

/-- The table of the members below a group, at any depth. -/
def membersTable (s : Surroundings) (settings : Settings) (head : Text) (groups : List Path)
    (below : Option Text) : Except Ending Printed :=
  match loadDirectory s settings groups with
  | .error e => .error e
  | .ok directory =>
    match (directory.getCollection head s.clock).2 with
    | .error fault => .error (directoryEnding fault)
    | .ok c =>
      let top := match below with
        | some b => if b.isEmpty then head else b
        | none => head
      .ok (.table ("Groups under " ++ top) ["Short ID", "Name", "Active", "Referring groups"]
        ((c.under top).map memberRow))

/-- Lists the members below a group. -/
def listMembers (s : Surroundings) (settings : Settings) (head : Text) (groups : List Path)
    (below : Option Text) : Outcome :=
  match membersTable s settings head groups below with
  | .error e => .ended s.files e
  | .ok table => ⟨.done, [table], [], s.files⟩

/-- Runs a command. -/
def runCommand (s : Surroundings) (settings : Settings) : Command → Outcome
  | .showHeads heads groups acls output asJson =>
    showHeads s settings heads groups acls output asJson
  | .members head groups below => listMembers s settings head groups below

end Commands

variable [Stack] [YamlReader] [SettingsReader]

/-- What the command line comes to, before it is printed. -/
def attempt (s : Surroundings) (args : List Text) : Outcome :=
  match readCommon args with
  | .error e => .ended s.files (.refused e)
  | .ok (common, name, rest) =>
    match settingsOf s common with
    | .error e => .ended s.files e
    | .ok (settings, files) =>
      match readCommand name rest with
      | .error e => .ended files e
      | .ok command => runCommand { s with files := files } settings command

variable [Console]

/-- Why what a command line comes to cannot be printed. -/
def Outcome.refusal? (s : Surroundings) (args : List Text) (o : Outcome) : Option Failure :=
  (Explore.refusal? o.printed).or <|
    match o.ending with
    | .troubled (.invalid rejection) => Console.refusesFaults s args rejection
    | _ => none

/-- What a command line comes to once it is printed: if the console
refuses something, it fails as that. -/
def Outcome.shown (s : Surroundings) (args : List Text) (o : Outcome) : Outcome :=
  match o.refusal? s args with
  | none => o
  | some failure => { o with ending := .failed failure, printed := shownOf o.printed }

/-- Runs the command line. -/
def run (s : Surroundings) (args : List Text) : Outcome :=
  (attempt s args).shown s args

end Lineage.Explore
