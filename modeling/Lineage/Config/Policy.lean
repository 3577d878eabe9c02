/-
Lineage.Config.Policy — limits on attaching and caching, and the checks
under which they are read.
-/
import Lineage.Schema.Field

namespace Lineage

/-- Limits applied when groups are attached and hierarchies are kept. -/
structure GroupPolicy where
  /-- The number of references from which on nothing may be attached
  under a group. -/
  maxDepth : Int := 16
  /-- The number of collections kept; zero keeps none. -/
  cacheMaxSize : Int := 1000
  /-- How long a kept collection may be served. -/
  cacheExpirationSeconds : Int := 300
  deriving DecidableEq, Repr, Inhabited

/-- All limits, with the version of the set. -/
structure Policies where
  policyVersion : Text := "2025-01-01"
  groups : GroupPolicy := {}
  deriving DecidableEq, Repr, Inhabited

open Schema

namespace GroupPolicy

/-- Checks the limits of a document value. -/
def checkValue : Value → Checked GroupPolicy
  | .object fields =>
    let whole (name : Text) (default least : Int) : Checked Int :=
      optional fields ⟨name, name⟩ default (orBytes .integerUnreadable (checkInteger least))
    GroupPolicy.mk
      <$> whole "max_depth" 16 1
      <*> whole "cache_max_size" 1000 0
      <*> whole "cache_expiration_seconds" 300 1
  | _ => .faulty [⟨[], .recordExpected .groupPolicy⟩]

/-- Reads limits from a document value. -/
def check (v : Value) : Except Rejection GroupPolicy :=
  (checkValue v).toExcept .groupPolicy

/-- Limits as a document value. -/
def toValue (p : GroupPolicy) : Value :=
  .object [("max_depth", .int p.maxDepth), ("cache_max_size", .int p.cacheMaxSize),
    ("cache_expiration_seconds", .int p.cacheExpirationSeconds)]

end GroupPolicy

namespace Policies

/-- Checks a policy set. -/
def checkFields (fields : Fields) : Checked Policies :=
  Policies.mk
    <$> optional fields ⟨"policy_version", "policy_version"⟩ "2025-01-01"
      (orBytes .textBroken (checkText 1))
    <*> optionalChecked fields ⟨"groups", "groups"⟩ {} GroupPolicy.checkValue

/-- A policy set as a document value. -/
def toValue (p : Policies) : Value :=
  .object [("policy_version", .text p.policyVersion), ("groups", p.groups.toValue)]

end Policies

end Lineage
