/-
Lineage.Main — the command line, from and to the outside.

Everything is decided by `Explore.run`.  Here files and variables are
taken up, and what it wrote and printed is handed out.  Taken up are the
files and directories that an argument or one of the variables for
settings names, and the configuration files below them and below the
current directory.
-/
import Lineage.Command.Console
import Std.Time.DateTime.Timestamp

namespace Lineage.Shell

/-- Takes up the file or directory of an absolute path, if there is one. -/
def takeUp (files : Files) (p : Path) : IO Files := do
  try
    let bytes ← IO.FS.readBinFile (Explore.readable p.text)
    return (files.makeAt p.names.dropLast).putAt p.names (.file bytes.toList)
  catch
    | .noFileOrDirectory .. => return files
    | _ => return files.makeAt p.names

/-- The configuration files that a directory may hold. -/
def configurationFiles (directory : Path) : List Path :=
  directory.child "default.yaml"
    :: Environment.all.map fun e => directory.child (e.name ++ Text.ofString ".yaml")

/-- The variables of the process. -/
def takeVariables : IO Variables := do
  let bytes ← IO.FS.readBinFile "/proc/self/environ"
  let text := Text.ofString ((String.fromUTF8? bytes).getD "")
  return (Text.partsAt (.char '\x00') text).filterMap splitAtEquals

/-- The texts that may name files: an argument, or what follows the
equals sign within it. -/
def mentioned (texts : List Text) : List Text :=
  texts.flatMap fun t =>
    t :: match splitAtEquals t with
      | some (_, value) => [value]
      | none => []

/-- The directories of users, from the table of accounts. -/
def takeAccounts : IO (List (Text × Path)) := do
  try
    let table ← IO.FS.readFile "/etc/passwd"
    return (Text.partsAt (.char '\n') (Text.ofString table)).filterMap fun line =>
      match Text.partsAt (.char ':') line with
      | name :: _ :: _ :: _ :: _ :: directory :: _ => some (name, Path.ofText directory)
      | _ => none
  catch _ => return []

/-- The path that a text names, seen from the current directory. -/
def pathOf (s : Surroundings) (t : Text) : Path :=
  match Explore.expandHome s (Path.ofText t) with
  | .ok p => s.home.join p
  | .error _ => s.home.child t

/-- Takes up what there is around the process. -/
def takeSurroundings (args : List Text) : IO Surroundings := do
  let here := Path.ofText (← IO.currentDir).toString
  let vars ← takeVariables
  let now ← Std.Time.Timestamp.now
  let s : Surroundings :=
    { files := ({ here := here.names } : Files).makeAt here.names
      vars := vars
      home := here
      site := here
      userHome := here
      accounts := ← takeAccounts
      clock := ⟨now.toNanosecondsSinceUnixEpoch.val / 1000⟩ }
  let settings := vars.filter fun v => (Variables.after? Variables.fieldStart v.1).isSome
  let named := (mentioned (args ++ settings.map (·.2))).map (pathOf s)
  let configuration := (here.child "config" :: named).flatMap configurationFiles
  let mut files := s.files
  for p in named ++ configuration do
    files ← takeUp files p
  return { s with files := files }

/-- Hands out the files and directories that are new. -/
def handOut (before after : Files) : IO Unit := do
  for (names, entry) in after.entries do
    if before.entry? names != some entry then
      let p : Path := ⟨"/", names⟩
      match entry with
      | .directory => IO.FS.createDirAll (Explore.readable p.text)
      | .file bytes => IO.FS.writeBinFile (Explore.readable p.text) ⟨bytes.toArray⟩

end Lineage.Shell

open Lineage in
/-- Runs the command line. -/
def main (args : List String) : IO UInt32 := do
  let args := args.map Text.ofString
  let surroundings ← Shell.takeSurroundings args
  let outcome := Explore.run surroundings args
  Shell.handOut surroundings.files outcome.files
  IO.print (Explore.readable outcome.output)
  for printed in outcome.printed do
    for line in printed.lines do
      IO.println line
  for line in outcome.ending.lines do
    IO.eprintln line
  return outcome.ending.code
