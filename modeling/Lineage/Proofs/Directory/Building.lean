/-
Lineage.Proofs.Directory.Building — what a build from the records gives.

In a consistent store the members of a hierarchy are the stored records
that are its head or list it (`Consistent.mem_membersOf_iff`), so the one
record among them with the short id of the head is the stored one, and
all others list the head.  A build therefore adds every member, the head
first (`Consistent.buildCollection_of_stored`), and where the head is not
stored it fails, for want of members or for want of the head
(`Consistent.buildCollection_of_not_stored`).
-/
import Lineage.Proofs.Directory.Index
import Lineage.Proofs.Hierarchy.WellPlaced

namespace Lineage.Directory.Consistent

variable {d : Directory} {head x : Text} {g : Group}

theorem mem_values_iff (h : Consistent d) :
    g ∈ d.records.values ↔ d.records.get? g.shortId = some g := by
  unfold Keyed.values
  rw [List.mem_map]
  constructor
  · rintro ⟨⟨key, stored⟩, hstored, rfl⟩
    rw [(h.filed hstored).1]
    exact Keyed.get?_of_mem h.recordsOnce hstored
  · intro hg
    exact ⟨_, Keyed.mem_of_get? hg, rfl⟩

theorem mem_membersOf_iff (h : Consistent d) :
    g ∈ d.membersOf head ↔ d.records.get? g.shortId = some g ∧ head ∈ headsOf g := by
  rw [h.membersOf_eq, List.mem_filter, h.mem_values_iff, decide_eq_true_eq]

theorem mem_membersOf_of_get? (h : Consistent d) (hg : d.records.get? head = some g) :
    g ∈ d.membersOf head := by
  obtain rfl := h.shortId_of_get? hg
  exact h.mem_membersOf_iff.mpr ⟨hg, List.mem_cons_self⟩

/-- The record of the head among the members is the stored one. -/
theorem find?_membersOf (h : Consistent d) (head : Text) :
    (d.membersOf head).find? (fun g => g.shortId = head) = d.records.get? head := by
  cases hfound : (d.membersOf head).find? fun g => g.shortId = head with
  | none =>
    cases hstored : d.records.get? head with
    | none => rfl
    | some g =>
      have hnot := List.find?_eq_none.mp hfound g (h.mem_membersOf_of_get? hstored)
      exact absurd (decide_eq_true (h.shortId_of_get? hstored)) hnot
  | some g =>
    have hid : g.shortId = head := by simpa using List.find?_some hfound
    have hstored := (h.mem_membersOf_iff.mp (List.mem_of_find?_eq_some hfound)).1
    rw [← hid, hstored]

/-- Where the head is stored, a build takes in all members: the head, and
the others in the order of their first entry. -/
theorem buildCollection_of_stored (h : Consistent d) (hg : d.records.get? head = some g) :
    d.buildCollection head
      = .ok ⟨head, g, (d.membersOf head).filter fun m => m.shortId ≠ head, d.policy.maxDepth⟩ := by
  have hfind := h.find?_membersOf head
  have hlists : ∀ m ∈ (d.membersOf head).filter fun m => m.shortId ≠ head,
      (Grouped.group m).refersTo head = true := by
    intro m hm
    obtain ⟨hm, hne⟩ := List.mem_filter.mp hm
    rcases List.mem_cons.mp (h.mem_membersOf_iff.mp hm).2 with hid | hlisted
    · exact absurd hid.symm (of_decide_eq_true hne)
    · exact List.contains_iff_mem.mpr hlisted
  have hadd := Collection.addAll_eq ⟨head, g, [], d.policy.maxDepth⟩
    ((d.membersOf head).filter fun m => m.shortId ≠ head)
  rw [List.filter_eq_self.mpr hlists, List.nil_append] at hadd
  unfold buildCollection
  split
  · rename_i hnone
    exact absurd (h.mem_membersOf_of_get? hg) (hnone ▸ List.not_mem_nil)
  · rw [hfind, hg]
    dsimp only
    rw [hadd]

/-- Where the head is not stored, a build fails: no group lists the head,
or some do. -/
theorem buildCollection_of_not_stored (h : Consistent d) (hg : d.records.get? head = none) :
    d.buildCollection head
      = .error (if d.membersOf head = [] then .noMembers head else .headless head) := by
  have hfind := h.find?_membersOf head
  unfold buildCollection
  split
  · rename_i hnone
    rw [if_pos hnone]
  · rename_i hsome
    rw [hfind, hg, if_neg hsome]

/-- A build succeeds exactly if the head is stored. -/
theorem buildCollection_eq_ok_iff (h : Consistent d) {c : Collection Group} :
    d.buildCollection head = .ok c ↔ ∃ g, d.records.get? head = some g
      ∧ ⟨head, g, (d.membersOf head).filter fun m => m.shortId ≠ head, d.policy.maxDepth⟩ = c := by
  cases hg : d.records.get? head with
  | none => simp [h.buildCollection_of_not_stored hg]
  | some g => simp [h.buildCollection_of_stored hg]

/-- Either the records make up a collection of the head, or there are no
members or no head. -/
theorem buildCollection_cases (h : Consistent d) (head : Text) :
    (∃ c, d.buildCollection head = .ok c ∧ c.head = head ∧ Grouped.shortId c.headElement = head)
      ∨ ∃ reason, d.buildCollection head = .error reason
        ∧ (reason = .noMembers head ∨ reason = .headless head) := by
  cases hg : d.records.get? head with
  | some g =>
    exact .inl ⟨_, h.buildCollection_of_stored hg, rfl, h.shortId_of_get? hg⟩
  | none =>
    refine .inr ⟨_, h.buildCollection_of_not_stored hg, ?_⟩
    split
    · exact .inl rfl
    · exact .inr rfl

end Lineage.Directory.Consistent
