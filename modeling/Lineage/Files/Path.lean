/-
Lineage.Files.Path — paths of files.

A path keeps its names in order; repeated slashes, names that are one
point and a slash at the end do not count, two points do.  Exactly two
slashes at the start are a root of their own.
-/
import Lineage.Text.Basic
import Lineage.Text.Parts

namespace Lineage

/-- A path: its root, which is empty for a relative path, and its names. -/
structure Path where
  root : Text
  names : List Text
  deriving DecidableEq, Repr, Inhabited

namespace Path

/-- The character between names. -/
def slash : CodePoint := .char '/'

/-- The root of a path. -/
def rootOf : Text → Text
  | .char '/' :: .char '/' :: .char '/' :: _ => "/"
  | .char '/' :: .char '/' :: _ => "//"
  | .char '/' :: _ => "/"
  | _ => []

/-- The path that a text spells. -/
def ofText (t : Text) : Path :=
  { root := rootOf t
    names := (Text.partsAt slash t).filter fun name => name ≠ [] && name ≠ [.char '.'] }

/-- The text of a path. -/
def text (p : Path) : Text :=
  if p.root.isEmpty && p.names.isEmpty then "." else p.root ++ Text.join [slash] p.names

/-- The path does not depend on where one is. -/
def isAbsolute (p : Path) : Bool :=
  !p.root.isEmpty

/-- A path seen from another one; an absolute path stays what it is. -/
def join (p q : Path) : Path :=
  if q.isAbsolute then q else { p with names := p.names ++ q.names }

/-- A path below another one. -/
def child (p : Path) (t : Text) : Path :=
  p.join (ofText t)

/-- The path without its last name. -/
def parent (p : Path) : Path :=
  { p with names := p.names.dropLast }

end Path

end Lineage
