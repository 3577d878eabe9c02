/-
Lineage.Proofs.Config.Checks — what checked settings hold.

Settings and policies are made of fields, each with a default and a check
of its own.  `Validated` says that a field holds what its check makes of
the value that was found, or its default where none was.  For the fields
of policies and paths, which stand within others, the value is found at a
path: checked policies and paths hold what stands at the paths of their
fields (`holds_of_checkPolicies`, `of_checkFields`).
-/
import Lineage.Config.Settings
import Lineage.Proofs.Group.Ids
import Lineage.Proofs.Value.Entering

namespace Lineage

open Schema Settings
open Value (names)

/-- A field that is checked holds its default, or what its check makes of
the value that is found. -/
def Validated {α : Type} (check : Value → Except Complaint α) (default : α) :
    Option Value → α → Prop
  | none, a => a = default
  | some v, a => check v = .ok a

section Validated

variable {α : Type} {check : Value → Except Complaint α} {default a : α} {found : Option Value}

theorem validated_of_optional {fields : Fields} {name : Text}
    (h : optional fields ⟨name, name⟩ default check = .ok a) :
    Validated check default (Keyed.get? fields (.text name)) a := by
  unfold Schema.optional FieldName.find at h
  cases hget : Keyed.get? fields (.text name) with
  | none =>
    simp only [hget, Option.map_none] at h
    exact (Checked.ok.inj h).symm
  | some v =>
    simp only [hget] at h
    exact Checked.ofExcept_eq_ok_iff.mp h

/-- What is validated by a check that refuses objects is no object. -/
theorem Validated.plain (h : Validated check default found a)
    (hcheck : ∀ fields, check (.object fields) ≠ .ok a) : Plain found := by
  rintro fields rfl
  exact hcheck fields h

/-- What is validated by a check that refuses objects and arrays is a
scalar. -/
theorem Validated.bare (h : Validated check default found a)
    (hobject : ∀ fields, check (.object fields) ≠ .ok a)
    (harray : ∀ items, check (.array items) ≠ .ok a) : Bare found := by
  rintro v rfl
  cases v with
  | scalar s => exact ⟨s, rfl⟩
  | array items => exact absurd h (harray items)
  | object fields => exact absurd h (hobject fields)

end Validated

/-- A field that is an object and is not there, or holds one. -/
theorem optionalChecked_cases {α : Type} {fields : Fields} {name : Text} {default a : α}
    {check : Value → Checked α} (h : optionalChecked fields ⟨name, name⟩ default check = .ok a) :
    Keyed.get? fields (.text name) = none ∧ a = default
      ∨ ∃ v, Keyed.get? fields (.text name) = some v ∧ check v = .ok a := by
  unfold optionalChecked FieldName.find at h
  cases hget : Keyed.get? fields (.text name) with
  | none =>
    simp only [hget, Option.map_none] at h
    exact .inl ⟨rfl, (Checked.ok.inj h).symm⟩
  | some v =>
    simp only [hget] at h
    exact .inr ⟨v, rfl, Checked.below_eq_ok_iff.mp h⟩

/-! ## Policies -/

/-- A whole number that is no less than the least one. -/
abbrev checkLimit (least : Int) : Value → Except Complaint Int :=
  orBytes .integerUnreadable (checkInteger least)

/-- The fields of policies that hold no others. -/
inductive PolicyLeaf where
  | policyVersion
  | maxDepth
  | cacheMaxSize
  | cacheExpirationSeconds
  deriving DecidableEq, Repr

namespace PolicyLeaf

/-- All fields of policies that hold no others. -/
def all : List PolicyLeaf :=
  [.policyVersion, .maxDepth, .cacheMaxSize, .cacheExpirationSeconds]

theorem mem_all (leaf : PolicyLeaf) : leaf ∈ all := by
  cases leaf <;> decide

/-- The names that lead to a field within policies. -/
def path : PolicyLeaf → List Text
  | .policyVersion => ["policy_version"]
  | .maxDepth => ["groups", "max_depth"]
  | .cacheMaxSize => ["groups", "cache_max_size"]
  | .cacheExpirationSeconds => ["groups", "cache_expiration_seconds"]

/-- No field of policies stands deeper than settings have fields. -/
theorem length_path (leaf : PolicyLeaf) : leaf.path.length ≤ fieldDepth := by
  cases leaf <;> decide

/-- The policies hold in the field what was found for it. -/
def Holds (policies : Policies) (found : Option Value) : PolicyLeaf → Prop
  | .policyVersion =>
    Validated (orBytes .textBroken (checkText 1)) ({} : Policies).policyVersion found
      policies.policyVersion
  | .maxDepth =>
    Validated (checkLimit 1) ({} : GroupPolicy).maxDepth found policies.groups.maxDepth
  | .cacheMaxSize =>
    Validated (checkLimit 0) ({} : GroupPolicy).cacheMaxSize found policies.groups.cacheMaxSize
  | .cacheExpirationSeconds =>
    Validated (checkLimit 1) ({} : GroupPolicy).cacheExpirationSeconds found
      policies.groups.cacheExpirationSeconds

/-- Every field of policies holds a scalar. -/
theorem Holds.bare {policies : Policies} {found : Option Value} {leaf : PolicyLeaf}
    (h : leaf.Holds policies found) : Bare found := by
  cases leaf with
  | policyVersion =>
    exact Validated.bare h (fun _ hcheck => by cases hcheck) fun _ hcheck => by cases hcheck
  | maxDepth =>
    exact Validated.bare h (fun _ hcheck => by cases hcheck) fun _ hcheck => by cases hcheck
  | cacheMaxSize =>
    exact Validated.bare h (fun _ hcheck => by cases hcheck) fun _ hcheck => by cases hcheck
  | cacheExpirationSeconds =>
    exact Validated.bare h (fun _ hcheck => by cases hcheck) fun _ hcheck => by cases hcheck

end PolicyLeaf

/-- The limits of a checked value are those that stand under their
names. -/
theorem validated_of_checkValue {v : Value} {policy : GroupPolicy}
    (h : GroupPolicy.checkValue v = .ok policy) :
    Validated (checkLimit 1) 16 (v.get? (.text "max_depth")) policy.maxDepth
      ∧ Validated (checkLimit 0) 1000 (v.get? (.text "cache_max_size")) policy.cacheMaxSize
      ∧ Validated (checkLimit 1) 300 (v.get? (.text "cache_expiration_seconds"))
        policy.cacheExpirationSeconds := by
  unfold GroupPolicy.checkValue at h
  split at h
  · simp only [Checked.seq_eq_ok_iff, Checked.map_eq_ok_iff] at h
    obtain ⟨_, _, ⟨_, _, ⟨_, hdepth, rfl⟩, hsize, rfl⟩, hseconds, rfl⟩ := h
    exact ⟨validated_of_optional hdepth, validated_of_optional hsize,
      validated_of_optional hseconds⟩
  · cases h

/-- Limits that are checked, or left out, are those that stand under
their names. -/
theorem validated_of_groups {fields : Fields} {policy : GroupPolicy}
    (h : optionalChecked fields ⟨"groups", "groups"⟩ {} GroupPolicy.checkValue = .ok policy) :
    Validated (checkLimit 1) 16
        ((Keyed.get? fields (.text "groups")).bind fun v => v.get? (.text "max_depth"))
        policy.maxDepth
      ∧ Validated (checkLimit 0) 1000
        ((Keyed.get? fields (.text "groups")).bind fun v => v.get? (.text "cache_max_size"))
        policy.cacheMaxSize
      ∧ Validated (checkLimit 1) 300
        ((Keyed.get? fields (.text "groups")).bind fun v =>
          v.get? (.text "cache_expiration_seconds"))
        policy.cacheExpirationSeconds := by
  rcases optionalChecked_cases h with ⟨hnone, rfl⟩ | ⟨v, hv, hcheck⟩
  · rw [hnone]
    exact ⟨rfl, rfl, rfl⟩
  · rw [hv]
    exact validated_of_checkValue hcheck

/-- Checked policies hold what stands at the paths of their fields. -/
theorem holds_of_checkPolicies {fields : Fields} {policies : Policies}
    (h : Policies.checkFields fields = .ok policies) (leaf : PolicyLeaf) :
    leaf.Holds policies ((Value.object fields).at? (names leaf.path)) := by
  rw [Policies.checkFields] at h
  simp only [Checked.seq_eq_ok_iff, Checked.map_eq_ok_iff] at h
  obtain ⟨_, groups, ⟨version, hversion, rfl⟩, hgroups, rfl⟩ := h
  have hlimits : ∀ name : Text, (Value.object fields).at? (names ["groups", name])
      = (Keyed.get? fields (.text "groups")).bind fun v => v.get? (.text name) := by
    intro name
    rw [Value.at?_names_cons]
    exact congrArg _ (funext fun v => Value.at?_names_singleton v name)
  cases leaf with
  | policyVersion =>
    rw [PolicyLeaf.path, Value.at?_names_singleton]
    exact validated_of_optional hversion
  | maxDepth =>
    rw [PolicyLeaf.path, hlimits]
    exact (validated_of_groups hgroups).1
  | cacheMaxSize =>
    rw [PolicyLeaf.path, hlimits]
    exact (validated_of_groups hgroups).2.1
  | cacheExpirationSeconds =>
    rw [PolicyLeaf.path, hlimits]
    exact (validated_of_groups hgroups).2.2

/-! ## Paths -/

/-- The fields of output paths. -/
inductive PathLeaf where
  | outputDir
  | logsDir
  deriving DecidableEq, Repr

namespace PathLeaf

/-- The name of a field within output paths. -/
def name : PathLeaf → Text
  | .outputDir => "output_dir"
  | .logsDir => "logs_dir"

/-- The paths hold in the field what was found for it. -/
def Holds (home : Path) (paths : OutputPaths) (found : Option Value) : PathLeaf → Prop
  | .outputDir => Validated checkPath (standardPaths home).outputDir found paths.outputDir
  | .logsDir => Validated checkPath (standardPaths home).logsDir found paths.logsDir

/-- No field of output paths holds an object. -/
theorem Holds.plain {home : Path} {paths : OutputPaths} {found : Option Value} {leaf : PathLeaf}
    (h : leaf.Holds home paths found) : Plain found := by
  cases leaf with
  | outputDir => exact Validated.plain h fun _ hcheck => by cases hcheck
  | logsDir => exact Validated.plain h fun _ hcheck => by cases hcheck

end PathLeaf

/-- Checked paths hold what stands under the names of their fields. -/
theorem holds_of_checkPaths {home : Path} {v : Value} {paths : OutputPaths}
    (h : checkPaths home v = .ok paths) (leaf : PathLeaf) :
    leaf.Holds home paths (v.get? (.text leaf.name)) := by
  unfold checkPaths at h
  split at h
  · simp only [Checked.seq_eq_ok_iff, Checked.map_eq_ok_iff] at h
    obtain ⟨_, _, ⟨_, houtput, rfl⟩, hlogs, rfl⟩ := h
    cases leaf with
    | outputDir => exact validated_of_optional houtput
    | logsDir => exact validated_of_optional hlogs
  · cases h

/-! ## Settings -/

/-- What checked settings hold: the environment and the paths that were
found, and the policies they were checked with. -/
theorem of_checkFields {home : Path} {policies : Policies} {fields : Fields} {settings : Settings}
    (h : checkFields home policies fields = .ok settings) :
    Validated checkEnvironment .development (Keyed.get? fields (.text "environment"))
        settings.environment
      ∧ (∀ leaf : PathLeaf, leaf.Holds home settings.paths
        ((Value.object fields).at? (names ["paths", leaf.name])))
      ∧ settings.policies = policies := by
  rw [checkFields] at h
  simp only [Checked.seq_eq_ok_iff, Checked.map_eq_ok_iff] at h
  obtain ⟨_, _, ⟨_, _, ⟨_, paths, ⟨_, _, ⟨environment, henvironment, rfl⟩, -, rfl⟩, hpaths, rfl⟩, -,
    rfl⟩, heq, rfl⟩ := h
  refine ⟨validated_of_optional henvironment, fun leaf => ?_, (Checked.ok.inj heq).symm⟩
  rw [Value.at?_names_cons]
  change leaf.Holds home paths ((Keyed.get? fields (.text "paths")).bind _)
  rcases optionalChecked_cases hpaths with ⟨hnone, rfl⟩ | ⟨v, hv, hcheck⟩
  · rw [hnone]
    cases leaf <;> rfl
  · rw [hv, Option.bind_some, Value.at?_names_singleton]
    exact holds_of_checkPaths hcheck leaf

/-- Making directories changes neither the environment nor the
policies. -/
theorem of_makeDirectories {s : Surroundings} {validated settings : Settings} {files : Files}
    (h : makeDirectories s validated = .ok (settings, files)) :
    settings.environment = validated.environment ∧ settings.policies = validated.policies := by
  unfold makeDirectories at h
  split at h
  · split at h
    · cases h
    · split at h
      · cases h
      · cases h
        exact ⟨rfl, rfl⟩
  · cases h
    exact ⟨rfl, rfl⟩

end Lineage
