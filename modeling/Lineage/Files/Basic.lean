/-
Lineage.Files.Basic — files and directories as a value.

Every entry stands under the names that lead to it from the root, a
directory before what it holds.  Reading is a function on the value;
writing answers the files as they are afterwards, because what was done
before a fault stays done.  The outer layer takes files from a disk and
back to it.
-/
import Lineage.Files.Path
import Lineage.Text.Lines
import Lineage.Text.Quoted
import Lineage.Text.Utf8

namespace Lineage

/-- A file with its bytes, or a directory. -/
inductive Entry where
  | file (bytes : List UInt8)
  | directory
  deriving DecidableEq, Repr

/-- What is wrong with a path, or with a text that is to be written. -/
inductive FileFault where
  | notFound (path : Path)
  | isDirectory (path : Path)
  | notDirectory (path : Path)
  | exists (path : Path)
  | nameTooLong (path : Path)
  /-- The path or the text holds surrogates that have no bytes. -/
  | surrogates (u : Text.Utf8.Unwritable)
  /-- The path holds the null character. -/
  | nullCharacter
  deriving DecidableEq, Repr

namespace FileFault

/-- The wording of a fault. -/
def message : FileFault → Text
  | .notFound p => "[Errno 2] No such file or directory: " ++ Text.literal p.text
  | .isDirectory p => "[Errno 21] Is a directory: " ++ Text.literal p.text
  | .notDirectory p => "[Errno 20] Not a directory: " ++ Text.literal p.text
  | .exists p => "[Errno 17] File exists: " ++ Text.literal p.text
  | .nameTooLong p => "[Errno 36] File name too long: " ++ Text.literal p.text
  | .surrogates u => u.message
  | .nullCharacter => "embedded null byte"

/-- The fault is about the spelling of a path or text, whatever files
there are. -/
def concernsValue : FileFault → Bool
  | .surrogates _ => true
  | .nullCharacter => true
  | _ => false

end FileFault

namespace Path

/-- A surrogate that stands for a byte beyond ASCII in the name of a
file. -/
def standsForByte : CodePoint → Bool
  | .char _ => false
  | .surrogate offset => 0x480 ≤ offset.val && offset.val < 0x500

/-- The number of bytes of a code point in the name of a file. -/
def pointSize : CodePoint → Nat
  | .char c => (Text.Utf8.encodeChar c).length
  | .surrogate _ => 1

/-- The number of bytes of a text in the name of a file. -/
def size (t : Text) : Nat :=
  t.foldl (fun n p => n + pointSize p) 0

/-- The greatest number of bytes of a name. -/
def maxNameSize : Nat := 255

/-- The greatest number of bytes of a path. -/
def maxSize : Nat := 4095

/-- Why a text cannot spell a path. -/
def textFault? (t : Text) : Option FileFault :=
  match Text.Utf8.unwritable? standsForByte t with
  | some u => some (.surrogates u)
  | none => if t.contains (.char '\x00') then some .nullCharacter else none

/-- What is wrong with a path before any file is looked for. -/
def spellingFault? (p : Path) : Option FileFault :=
  match textFault? p.text with
  | some fault => some fault
  | none => if maxSize < size p.text then some (.nameTooLong p) else none

end Path

/-- Files and directories, and the directory from which relative paths
start. -/
structure Files where
  entries : List (List Text × Entry) := []
  here : List Text := []
  deriving DecidableEq, Repr

namespace Files

/-- The entry under the names from the root. -/
def entry? (f : Files) (names : List Text) : Option Entry :=
  if names.isEmpty then some .directory else f.entries.lookup names

/-- A directory stands under the names. -/
def isDirectoryAt (f : Files) (names : List Text) : Bool :=
  f.entry? names = some .directory

/-! ## Looking up -/

/-- The names that a path leads to, step by step through directories;
nothing need stand under the last of them. -/
def walk (f : Files) (whole : Path) (at_ : List Text) : List Text → Except FileFault (List Text)
  | [] => .ok at_
  | name :: rest =>
    match f.entry? at_ with
    | none => .error (.notFound whole)
    | some (.file _) => .error (.notDirectory whole)
    | some .directory =>
      if name = ("..": Text) then walk f whole at_.dropLast rest
      else if Path.maxNameSize < Path.size name then .error (.nameTooLong whole)
      else walk f whole (at_ ++ [name]) rest

/-- The names from the root that a path leads to. -/
def locate (f : Files) (p : Path) : Except FileFault (List Text) :=
  match p.spellingFault? with
  | some fault => .error fault
  | none => f.walk p (if p.isAbsolute then [] else f.here) p.names

/-- The entry of a path, if there is one.  That a path leads nowhere is
no fault; that it is too long is one. -/
def find? (f : Files) (p : Path) : Except FileFault (Option Entry) :=
  match f.locate p with
  | .ok names => .ok (f.entry? names)
  | .error (.nameTooLong q) => .error (.nameTooLong q)
  | .error _ => .ok none

/-- The path leads to an entry. -/
def has (f : Files) (p : Path) : Except FileFault Bool :=
  (f.find? p).map Option.isSome

/-- The path leads to a file. -/
def hasFile (f : Files) (p : Path) : Except FileFault Bool :=
  (f.find? p).map fun
    | some (.file _) => true
    | _ => false

/-- The bytes of a file. -/
def readBytes (f : Files) (p : Path) : Except FileFault (List UInt8) :=
  match f.find? p with
  | .error fault => .error fault
  | .ok (some (.file bytes)) => .ok bytes
  | .ok (some .directory) => .error (.isDirectory p)
  | .ok none => .error (.notFound p)

/-- The path without steps up, from the root. -/
def resolve (f : Files) (p : Path) : Path :=
  match f.locate p with
  | .ok names => ⟨"/", names⟩
  | .error _ => p

/-- The directories below names from the root. -/
def directoriesBelow (f : Files) (names : List Text) : List Path :=
  f.entries.filterMap fun (at_, e) =>
    match e with
    | .directory =>
      if names.length < at_.length && names.isPrefixOf at_ then some ⟨"/", at_⟩ else none
    | .file _ => none

/-! ## Writing -/

/-- Puts an entry under names from the root. -/
def putAt (f : Files) (names : List Text) (e : Entry) : Files :=
  { f with entries := f.entries.filter (fun x => x.1 ≠ names) ++ [(names, e)] }

/-- Makes the directories of names from the root. -/
def makeAt (f : Files) (names : List Text) : Files :=
  (List.range names.length).foldl
    (fun f i =>
      let inner := names.take (i + 1)
      if (f.entry? inner).isSome then f else f.putAt inner .directory)
    f

/-- Files after an attempt to write, and what went wrong. -/
abbrev Attempt := Files × Option FileFault

/-- Makes one directory in a directory that is there. -/
def makeOne (f : Files) (p : Path) : Attempt :=
  match f.locate p with
  | .error fault => (f, some fault)
  | .ok names =>
    if (f.entry? names).isSome then (f, some (.exists p)) else (f.putAt names .directory, none)

/-- A fault of making a directory does not matter if the directory is
there. -/
def tolerate (f : Files) (p : Path) (fault : FileFault) : Attempt :=
  if fault.concernsValue then (f, some fault)
  else
    match f.find? p with
    | .error fault => (f, some fault)
    | .ok (some .directory) => (f, none)
    | .ok _ => (f, some fault)

/-- Makes a directory and at most `levels` directories above it. -/
def makeWithin (levels : Nat) (f : Files) (p : Path) : Attempt :=
  match levels, f.makeOne p with
  | _, (f, none) => (f, none)
  | 0, (f, some (.notFound q)) => (f, some (.notFound q))
  | levels + 1, (f, some (.notFound _)) =>
    match makeWithin levels f p.parent with
    | (f, some fault) => (f, some fault)
    | (f, none) =>
      match f.makeOne p with
      | (f, none) => (f, none)
      | (f, some (.notFound q)) => (f, some (.notFound q))
      | (f, some fault) => f.tolerate p fault
  | _, (f, some fault) => f.tolerate p fault

/-- Makes a directory and those above it, unless they are there. -/
def makeDirectory (f : Files) (p : Path) : Attempt :=
  makeWithin p.names.length f p

/-- Writes a file into a directory that is there. -/
def writeBytes (f : Files) (p : Path) (bytes : List UInt8) : Attempt :=
  match f.locate p with
  | .error fault => (f, some fault)
  | .ok names =>
    match f.entry? names with
    | some .directory => (f, some (.isDirectory p))
    | _ => (f.putAt names (.file bytes), none)

/-- Writes a text as a file and makes the directories above it.  A text
that has no bytes leaves an empty file. -/
def writeText (f : Files) (p : Path) (t : Text) : Attempt :=
  match f.makeDirectory p.parent with
  | (f, some fault) => (f, some fault)
  | (f, none) =>
    match Text.Utf8.encodeText t with
    | .ok bytes => f.writeBytes p bytes
    | .error u =>
      match f.writeBytes p [] with
      | (f, none) => (f, some (.surrogates u))
      | refused => refused

end Files

end Lineage
