/-
Lineage.Platform — what a program is run on.

A routine that calls itself for the parts of a value goes one call
deeper with every value within another, and a program whose calls are
open too deep is ended.  How many calls there is room for depends on the
interpreter and on how deep the caller of the routine stands itself, so
it is left open here (`Stack`).  So is what is raised by the packages
that the program calls (`Raised`).
-/
import Lineage.Text.Basic

namespace Lineage

/-- The routines that go into values, and for the reading of documents
what it is done for. -/
inductive Routine where
  /-- Reading a line of a file of records. -/
  | readGroup
  /-- Reading a line of a file of annotations. -/
  | readAcl
  /-- Reading a variable for a whole field. -/
  | readField
  /-- Reading a policy variable. -/
  | readPolicy
  /-- Reading the value of an override. -/
  | readOverride
  /-- Laying the arguments over the variables for whole fields. -/
  | gather
  /-- Laying one layer of settings over another. -/
  | layer
  /-- Laying what is said explicitly over the layers. -/
  | merge
  /-- Laying one override over another. -/
  | overlay
  /-- Copying a mapping with all that it holds. -/
  | copy
  /-- Spelling a value. -/
  | spell
  deriving DecidableEq, Repr

/-- How many calls of a routine there is room for within one another. -/
class Stack where
  room : Routine → Nat

/-- What a package raises: its kind and its text, and whether it counts
as a fault of a value. -/
structure Raised where
  kind : String
  message : Text
  ofValue : Bool
  deriving DecidableEq, Repr

end Lineage
