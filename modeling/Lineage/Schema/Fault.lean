/-
Lineage.Schema.Fault — what can be wrong with a document value that is
to become a checked record.

A `Fault` names the place and the complaint.  Faults of all fields are
collected (`Checked` is an applicative functor, not a monad); a `Misfit`
is a value that the preparation of a field cannot handle at all, and it
ends the check whatever else is wrong.
-/
import Lineage.Value.Basic

namespace Lineage.Schema

/-- One step of a place within a document. -/
inductive Step where
  | field (name : Text)
  | item (index : Nat)
  deriving DecidableEq, Repr

/-- The kinds of checked records. -/
inductive Model where
  | group
  | acl
  | view
  | groupPolicy
  | policies
  | paths
  | settings
  deriving DecidableEq, Repr

/-- The name of a kind of record in messages. -/
def Model.name : Model → String
  | .group => "GroupRecord"
  | .acl => "GroupAcl"
  | .view => "HierarchyView"
  | .groupPolicy => "GroupHierarchyPolicy"
  | .policies => "Policies"
  | .paths => "PathsConfig"
  | .settings => "Settings"

/-- What is wrong at a place. -/
inductive Complaint where
  | missing
  | textExpected
  | textBroken
  | textShorterThan (least : Nat)
  | integerExpected
  | integerUnreadable
  | integerTooLarge
  | integerFromFraction
  | integerFromInfinity
  | lessThan (least : Int)
  | flagExpected
  | flagUnreadable
  | listExpected
  | recordExpected (model : Model)
  | environmentUnknown
  | pathExpected
  | fieldUnknown (name : Text)
  | refused (reason : Text)
  deriving DecidableEq, Repr

/-- The short name of a complaint. -/
def Complaint.code : Complaint → String
  | .missing => "missing"
  | .textExpected => "string_type"
  | .textBroken => "string_unicode"
  | .textShorterThan _ => "string_too_short"
  | .integerExpected => "int_type"
  | .integerUnreadable => "int_parsing"
  | .integerTooLarge => "int_parsing_size"
  | .integerFromFraction => "int_from_float"
  | .integerFromInfinity => "finite_number"
  | .lessThan _ => "greater_than_equal"
  | .flagExpected => "bool_type"
  | .flagUnreadable => "bool_parsing"
  | .listExpected => "list_type"
  | .recordExpected _ => "model_type"
  | .environmentUnknown => "literal_error"
  | .pathExpected => "path_type"
  | .fieldUnknown _ => "no_such_attribute"
  | .refused _ => "value_error"

/-- The wording of a complaint. -/
def Complaint.message : Complaint → Text
  | .missing => "Field required"
  | .textExpected => "Input should be a valid string"
  | .textBroken =>
    "Input should be a valid string, unable to parse raw data as a unicode string"
  | .textShorterThan least =>
    "String should have at least " ++ Text.decimal least
      ++ (if least = 1 then " character" else " characters")
  | .integerExpected => "Input should be a valid integer"
  | .integerUnreadable =>
    "Input should be a valid integer, unable to parse string as an integer"
  | .integerTooLarge =>
    "Unable to parse input string as an integer, exceeded maximum size"
  | .integerFromFraction =>
    "Input should be a valid integer, got a number with a fractional part"
  | .integerFromInfinity => "Input should be a finite number"
  | .lessThan least => "Input should be greater than or equal to " ++ Text.decimal least
  | .flagExpected => "Input should be a valid boolean"
  | .flagUnreadable => "Input should be a valid boolean, unable to interpret input"
  | .listExpected => "Input should be a valid list"
  | .recordExpected model =>
    "Input should be a valid dictionary or instance of " ++ Text.ofString model.name
  | .environmentUnknown => "Input should be 'development', 'testing' or 'production'"
  | .pathExpected => "Input is not a valid path for <class 'pathlib.Path'>"
  | .fieldUnknown name => "Object has no attribute '" ++ name ++ "'"
  | .refused reason => "Value error, " ++ reason

/-- A complaint and its place. -/
structure Fault where
  place : List Step
  complaint : Complaint
  deriving DecidableEq, Repr

/-- The fault seen from one step further out. -/
def Fault.below (step : Step) (f : Fault) : Fault :=
  { f with place := step :: f.place }

/-- A value that the preparation of a field cannot handle. -/
inductive Misfit where
  /-- An entry of a list of ids is no text. -/
  | notStrippable (kindWord : String)
  /-- A list of ids is nothing that has entries. -/
  | notIterable (kindWord : String)
  deriving DecidableEq, Repr

/-- The wording of a misfit. -/
def Misfit.message : Misfit → String
  | .notStrippable word => "'" ++ word ++ "' object has no attribute 'strip'"
  | .notIterable word => "'" ++ word ++ "' object is not iterable"

/-- Why a value is no record. -/
inductive Rejection where
  | faults (model : Model) (items : List Fault)
  | misfit (m : Misfit)
  deriving DecidableEq, Repr

/-- The result of a check: a value, faults of any number of fields, or a
misfit. -/
inductive Checked (α : Type) where
  | ok (value : α)
  | faulty (items : List Fault)
  | misfit (m : Misfit)
  deriving Repr

namespace Checked

/-- Applies a checked function to a checked value: the faults of both
are collected, a misfit takes precedence. -/
def apply {α β : Type} : Checked (α → β) → Checked α → Checked β
  | .misfit m, _ => .misfit m
  | .ok _, .misfit m => .misfit m
  | .faulty _, .misfit m => .misfit m
  | .ok f, .ok a => .ok (f a)
  | .ok _, .faulty items => .faulty items
  | .faulty items, .ok _ => .faulty items
  | .faulty items, .faulty more => .faulty (items ++ more)

instance : Applicative Checked where
  pure := .ok
  seq f x := apply f (x ())

/-- The result of one complaint-or-value check at a place. -/
def ofExcept {α : Type} (place : List Step) : Except Complaint α → Checked α
  | .ok a => .ok a
  | .error c => .faulty [⟨place, c⟩]

/-- Faults seen from one step further out. -/
def below {α : Type} (step : Step) : Checked α → Checked α
  | .faulty items => .faulty (items.map (Fault.below step))
  | c => c

/-- Checks the items of a list, the faults of each under its index. -/
def items {α β : Type} (check : α → Checked β) (index : Nat) : List α → Checked (List β)
  | [] => .ok []
  | a :: rest =>
    apply (apply (.ok List.cons) (below (.item index) (check a))) (items check (index + 1) rest)

/-- The outcome of the check of a whole record. -/
def toExcept {α : Type} (model : Model) : Checked α → Except Rejection α
  | .ok a => .ok a
  | .faulty items => .error (.faults model items)
  | .misfit m => .error (.misfit m)

end Checked

end Lineage.Schema
