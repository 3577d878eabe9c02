/-
Lineage.Proofs.Directory.Changes — what changing a stored group does.

Attaching and deactivating have two outcomes each: a fault, and the store
is the one it was; or a changed record, and the store is the one that
storing this record gives.  `attach_cases` and `deactivate_cases` say
when each outcome comes about and which record that is, so that what
these calls keep follows from what storing a record keeps.
-/
import Lineage.Directory

namespace Lineage

namespace Group

open Schema

/-! ## The changed record -/

/-- The group as it is after attaching it under a parent at a time. -/
def attachedTo (child parent : Group) (now : Int) : Group :=
  { child with references := child.inheritedReferences parent, modificationMs := now }

/-- The group as it is after deactivating it at a time. -/
def deactivated (g : Group) (now : Int) : Group :=
  { g with active := false, deletionMs := now }

@[simp] theorem attachedTo_shortId (child parent : Group) (now : Int) :
    (child.attachedTo parent now).shortId = child.shortId := rfl

@[simp] theorem attachedTo_virtual (child parent : Group) (now : Int) :
    (child.attachedTo parent now).virtual = child.virtual := rfl

@[simp] theorem deactivated_virtual (g : Group) (now : Int) :
    (g.deactivated now).virtual = g.virtual := rfl

/-- A time stamp is accepted from the start of time on. -/
theorem stamp_toExcept (place : List Step) (set : Int → Group) (now : Int) :
    (set <$> Checked.ofExcept place (checkInteger 0 (.int now))).toExcept .group =
      if now < 0 then .error (.faults .group [⟨place, .lessThan 0⟩]) else .ok (set now) := by
  by_cases h : now < 0
  · simp only [checkInteger, readIntegerValue, h, if_true]
    rfl
  · simp only [checkInteger, readIntegerValue, h, if_false]
    rfl

/-- The fault of a time stamp before the start of time. -/
def stampRejection (field : Field) : Rejection :=
  .faults .group [⟨[.field field.spelling.snake], .lessThan 0⟩]

theorem setField_modificationMs (g : Group) (now : Int) :
    (g.setField .modificationMs (.int now)).toExcept .group =
      if now < 0 then .error (stampRejection .modificationMs)
      else .ok { g with modificationMs := now } :=
  stamp_toExcept _ (fun x => { g with modificationMs := x }) now

theorem setField_deletionMs (g : Group) (now : Int) :
    (g.setField .deletionMs (.int now)).toExcept .group =
      if now < 0 then .error (stampRejection .deletionMs)
      else .ok { g with deletionMs := now } :=
  stamp_toExcept _ (fun x => { g with deletionMs := x }) now

theorem attachUnder_of_fault {child parent : Group} {limit : Int} {fault : HierarchyFault}
    (h : attachFault? child parent limit = some fault) (now : Int) :
    child.attachUnder parent limit now = .refused fault := by
  simp only [attachUnder, h]

theorem attachUnder_of_no_fault {child parent : Group} {limit : Int}
    (h : attachFault? child parent limit = none) (now : Int) :
    child.attachUnder parent limit now =
      if now < 0 then
        .stampRefused { child with references := child.inheritedReferences parent }
          (stampRejection .modificationMs)
      else .attached (child.attachedTo parent now) := by
  simp only [attachUnder, h, setField_modificationMs]
  by_cases hnow : now < 0
  · simp only [hnow, if_true]
  · simp only [hnow, if_false]
    rfl

end Group

namespace Directory

/-! ## Outcomes -/

theorem get_eq (d : Directory) (shortId : Text) :
    d.get shortId = match d.records.get? shortId with
      | some g => .ok g
      | none => .error (.unknownGroup shortId) :=
  rfl

/-- Attaching fails and leaves the store alone, or stores the child as it
is below its parent. -/
theorem attach_cases (d : Directory) (child parent : Text) (now : Clock) :
    (∃ fault, d.attach child parent now = (d, .error fault))
      ∨ ∃ c p, d.records.get? child = some c ∧ d.records.get? parent = some p
        ∧ c.attachFault? p d.policy.maxDepth = none
        ∧ d.attach child parent now
          = (d.upsert (c.attachedTo p now.stamp), .ok (c.attachedTo p now.stamp)) := by
  cases hc : d.records.get? child with
  | none =>
    exact .inl ⟨.hierarchy (.unknownGroup child), by simp only [attach, get_eq, hc]⟩
  | some c =>
    cases hp : d.records.get? parent with
    | none =>
      exact .inl ⟨.hierarchy (.unknownGroup parent), by simp only [attach, get_eq, hc, hp]⟩
    | some p =>
      cases hfault : c.attachFault? p d.policy.maxDepth with
      | some fault =>
        have hrefused := Group.attachUnder_of_fault hfault now.stamp
        exact .inl ⟨.hierarchy fault, by simp only [attach, get_eq, hc, hp, hrefused]⟩
      | none =>
        have houtcome := Group.attachUnder_of_no_fault hfault now.stamp
        by_cases hnow : now.stamp < 0
        · rw [if_pos hnow] at houtcome
          exact .inl ⟨.rejected (Group.stampRejection .modificationMs),
            by simp only [attach, get_eq, hc, hp, houtcome]⟩
        · rw [if_neg hnow] at houtcome
          exact .inr ⟨c, p, rfl, rfl, hfault, by simp only [attach, get_eq, hc, hp, houtcome]⟩

/-- Deactivating fails and leaves the store alone, or stores the group as
an inactive one. -/
theorem deactivate_cases (d : Directory) (shortId : Text) (now : Clock) :
    (∃ fault, d.deactivate shortId now = (d, .error fault))
      ∨ ∃ g, d.records.get? shortId = some g
        ∧ d.deactivate shortId now
          = (d.upsert (g.deactivated now.stamp), .ok (g.deactivated now.stamp)) := by
  cases hg : d.records.get? shortId with
  | none =>
    exact .inl ⟨.hierarchy (.unknownGroup shortId), by simp only [deactivate, get_eq, hg]⟩
  | some g =>
    have houtcome := Group.setField_deletionMs { g with active := false } now.stamp
    by_cases hnow : now.stamp < 0
    · rw [if_pos hnow] at houtcome
      exact .inl ⟨.rejected (Group.stampRejection .deletionMs),
        by simp only [deactivate, get_eq, hg, houtcome]⟩
    · rw [if_neg hnow] at houtcome
      exact .inr ⟨g, rfl, by simp only [deactivate, get_eq, hg, houtcome, Group.deactivated]⟩

end Directory

end Lineage
