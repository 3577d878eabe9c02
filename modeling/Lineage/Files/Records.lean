/-
Lineage.Files.Records — records and annotations in files, and documents
written to files.

A file of records holds one document per line; blank lines do not count
as records but do count as lines.  A file of annotations may hold one
array instead.  The first failure in the order of the lines decides.
-/
import Lineage.Failure
import Lineage.Json.Printer

namespace Lineage

/-- The lines of a file that is read piece by piece, and the fault that
ends them: a piece with a fault hides its own lines and an unfinished
line before it. -/
structure PiecewiseLines where
  lines : List (List Char)
  fault : Option Text.Utf8.Fault

namespace PiecewiseLines

/-- The number of bytes of a piece. -/
def pieceSize : Nat := 8192

/-- The lines of a text that have been read up to their end: what stands
behind the last line feed may go on, and a carriage return at the end
may be the first half of a line end. -/
def finished (cs : List Char) : List (List Char) :=
  let cs := if cs.getLast? = some '\r' then cs.dropLast else cs
  let unified := Text.unifyLines cs
  let open? := (unified.reverse.takeWhile (· ≠ '\n')).length
  Text.splitLines (unified.take (unified.length - open?))

/-- Reads pieces behind what has been read; `pending` are the bytes of an
unfinished character. -/
def readPieces (fuel : Nat) (read : List Char) (pending bytes : List UInt8) : PiecewiseLines :=
  match fuel with
  | 0 => ⟨[], none⟩
  | fuel + 1 =>
    match bytes with
    | [] =>
      match Text.Utf8.decodeAll pending with
      | .ok cs => ⟨Text.splitLines (Text.unifyLines (read ++ cs)), none⟩
      | .error fault => ⟨finished read, some fault⟩
    | bytes =>
      match Text.Utf8.decodeSome (pending ++ bytes.take pieceSize) with
      | (_, .fault fault) => ⟨finished read, some fault⟩
      | (cs, .pending rest) => readPieces fuel (read ++ cs) rest (bytes.drop pieceSize)

/-- The lines of bytes. -/
def ofBytes (bytes : List UInt8) : PiecewiseLines :=
  readPieces (bytes.length + 2) [] [] bytes

end PiecewiseLines

namespace Files

/-- The whole text of a file, with unified line ends. -/
def readText (f : Files) (p : Path) : Except Failure (List Char) :=
  match f.readBytes p with
  | .error fault => .error (.file fault)
  | .ok bytes =>
    match Text.Utf8.decodeAll bytes with
    | .error fault => .error (.encoding fault)
    | .ok cs => .ok (Text.unifyLines cs)

section Loading

variable [Stack]

/-- The document of a line of a file, which is read for a routine. -/
def readLine (routine : Routine) (p : Path) (number : Nat) (line : List Char) :
    Except Failure Value :=
  match Json.readWithin (Stack.room routine) (.ofChars line) with
  | .ok v => .ok v
  | .error fault =>
    .error (if fault.cause.kind = .grammar then .badLine p number else .json fault)

/-- Reads what the lines of a file hold, counting them from `number`. -/
def readLines {α : Type} (routine : Routine) (check : Value → Except Schema.Rejection α) (p : Path)
    (number : Nat) : List (List Char) → Except Failure (List α)
  | [] => .ok []
  | line :: rest =>
    if line.all Text.isBlank then readLines routine check p (number + 1) rest
    else
      match readLine routine p number line with
      | .error fault => .error fault
      | .ok v =>
        match check v with
        | .error rejection => .error (.rejected rejection)
        | .ok a =>
          match readLines routine check p (number + 1) rest with
          | .error fault => .error fault
          | .ok as => .ok (a :: as)

/-- The records of one file. -/
def loadGroupsOf (f : Files) (now : Int) (p : Path) : Except Failure (List Group) :=
  match f.has p with
  | .error fault => .error (.file fault)
  | .ok false => .error (.absent .groups p)
  | .ok true =>
    match f.readBytes p with
    | .error fault => .error (.file fault)
    | .ok bytes =>
      let piecewise := PiecewiseLines.ofBytes bytes
      match readLines .readGroup (Group.check now) p 1 piecewise.lines, piecewise.fault with
      | .error failure, _ => .error failure
      | .ok _, some fault => .error (.encoding fault)
      | .ok groups, none => .ok groups

/-- The records of files, one file after the other. -/
def loadGroups (f : Files) (now : Int) : List Path → Except Failure (List Group)
  | [] => .ok []
  | p :: rest =>
    match f.loadGroupsOf now p with
    | .error failure => .error failure
    | .ok groups =>
      match loadGroups f now rest with
      | .error failure => .error failure
      | .ok more => .ok (groups ++ more)

/-- Checks annotations one after the other. -/
def checkAcls : List Value → Except Failure (List Acl)
  | [] => .ok []
  | v :: rest =>
    match Acl.check v with
    | .error rejection => .error (.rejected rejection)
    | .ok a => (checkAcls rest).map (a :: ·)

/-- What iterating over a document gives: only arrays and objects have
parts. -/
def partsOf : Value → List Value
  | .array items => items
  | v => [v]

/-- How deep arrays and objects may stand within one another in a file that
is one array.  Lines are read one step further within than such a file, so
the array itself takes no room from its items. -/
def arrayNesting : Nat :=
  Stack.room .readAcl + 1

/-- The annotations of a file: an array of them, or one per line. -/
def loadAcls (f : Files) (p : Path) : Except Failure (List Acl) :=
  match f.has p with
  | .error fault => .error (.file fault)
  | .ok false => .error (.absent .acls p)
  | .ok true =>
    match f.readText p with
    | .error failure => .error failure
    | .ok cs =>
      let body := Text.trimWhere Text.isBlank cs
      match body with
      | '[' :: _ =>
        match Json.readWithin arrayNesting (.ofChars body) with
        | .error fault => .error (.json fault)
        | .ok v => checkAcls (partsOf v)
      | _ =>
        match readLines .readAcl .ok p 1 (Text.splitLines cs) with
        | .error failure => .error failure
        | .ok vs => checkAcls vs

end Loading

/-- How documents are written to files: with sorted names, on one line
unless there is an indent. -/
def documentStyle (indent : Option Text) : Json.Style :=
  ⟨indent, true, false⟩

/-- The indentation of documents in files. -/
def usualIndent : Option Text :=
  some (Json.spaces 2)

/-- The text of a document in a file. -/
def documentText (indent : Option Text) (v : Value) : Text :=
  Json.print (documentStyle indent) v ++ "\n"

/-- Writes a document to a file. -/
def writeDocument (f : Files) (p : Path) (indent : Option Text) (v : Value) : Attempt :=
  f.writeText p (documentText indent v)

/-- Writes views to a file. -/
def writeViews (f : Files) (p : Path) (views : List View) : Attempt :=
  f.writeDocument p usualIndent (.array (View.toValues views))

end Files

end Lineage
