/-
Lineage.Proofs.Directory.Effects — what a call can do to the records.

A call stores no record or one.  Where it stores one, the record was
handed in, or it is a stored group as attaching or deactivating leaves it
(`Origin`).  `Consistent.perform_cases` says so once for all calls, and a
proof that every call keeps something of the records goes by these cases.
-/
import Lineage.Proofs.Directory.Changes
import Lineage.Proofs.Directory.Runs
import Mathlib.Data.List.Induction

namespace Lineage.Directory

variable {d d' : Directory} {call : Call} {x : Text} {g : Group}

/-- The record is one that a call may store. -/
inductive Origin (d : Directory) : Call → Group → Prop
  | handed (g : Group) : Origin d (.upsert g) g
  | attached {child parent : Text} {c p : Group} (now : Clock)
      (hchild : d.records.get? child = some c) (hparent : d.records.get? parent = some p)
      (hok : c.attachFault? p d.policy.maxDepth = none) :
      Origin d (.attach child parent now) (c.attachedTo p now.stamp)
  | deactivated {shortId : Text} {g : Group} (now : Clock)
      (hstored : d.records.get? shortId = some g) :
      Origin d (.deactivate shortId now) (g.deactivated now.stamp)

/-- A call leaves the records alone or stores one more. -/
theorem Consistent.perform_cases (hc : Consistent d) (call : Call) :
    SameRecords d (call.perform d)
      ∨ ∃ g, Origin d call g ∧ g.virtual = false ∧ call.perform d = d.upsert g := by
  have hreal : ∀ {y m}, d.records.get? y = some m → m.virtual = false := fun hm =>
    (hc.filed (Keyed.mem_of_get? hm)).2
  cases call with
  | upsert g =>
    by_cases hv : g.virtual = true
    · rw [Call.perform, upsert_of_virtual hv]
      exact .inl (.refl d)
    · exact .inr ⟨g, .handed g, Bool.eq_false_iff.mpr hv, rfl⟩
  | attach child parent now =>
    rcases attach_cases d child parent now with ⟨fault, heq⟩ | ⟨c, p, hchild, hparent, hok, heq⟩
    · rw [Call.perform, heq]
      exact .inl (.refl d)
    · rw [Call.perform, heq]
      exact .inr ⟨_, .attached now hchild hparent hok,
        (c.attachedTo_virtual p now.stamp).trans (hreal hchild), rfl⟩
  | deactivate shortId now =>
    rcases deactivate_cases d shortId now with ⟨fault, heq⟩ | ⟨g, hstored, heq⟩
    · rw [Call.perform, heq]
      exact .inl (.refl d)
    · rw [Call.perform, heq]
      exact .inr ⟨_, .deactivated now hstored,
        (g.deactivated_virtual now.stamp).trans (hreal hstored), rfl⟩
  | flush g => exact .inl (sameRecords_flush d g)
  | collection head now => exact .inl (getCollection_fst d head now).1
  | display heads acls now =>
    exact .inl (display_preserves (fun _ head now hs => hs.trans (getCollection_fst _ head now).1)
      (.refl d) heads acls now)

theorem Consistent.perform (hc : Consistent d) (call : Call) : Consistent (call.perform d) := by
  rcases hc.perform_cases call with hsame | ⟨g, -, -, heq⟩
  · exact hc.of_sameRecords hsame
  · exact heq ▸ hc.upsert g

/-! ## What holds of every record -/

section Records

variable {P : Group → Prop}
  (hattach : ∀ c p now, P c → P p → P (Group.attachedTo c p now))
  (hdeactivate : ∀ g now, P g → P (Group.deactivated g now))
include hattach hdeactivate

/-- What holds of all stored records and of the one handed in, if any,
holds of all stored records after a call, if attaching and deactivating
keep it. -/
theorem Consistent.stored_perform (hc : Consistent d)
    (h : ∀ x g, d.records.get? x = some g → P g) (hcall : ∀ g, call = .upsert g → P g)
    (hg : (call.perform d).records.get? x = some g) : P g := by
  rcases hc.perform_cases call with hsame | ⟨m, horigin, hv, heq⟩
  · rw [hsame.records] at hg
    exact h x g hg
  · rw [heq, get?_records_upsert hv] at hg
    by_cases hx : m.shortId = x
    · rw [if_pos hx] at hg
      obtain rfl := Option.some.inj hg
      cases horigin with
      | handed => exact hcall _ rfl
      | attached now hchild hparent hok => exact hattach _ _ _ (h _ _ hchild) (h _ _ hparent)
      | deactivated now hstored => exact hdeactivate _ _ (h _ _ hstored)
    · rw [if_neg hx] at hg
      exact h x g hg

/-- What holds of all records handed in holds of all stored records, if
attaching and deactivating keep it. -/
theorem stored_run (policy : GroupPolicy) {calls : List Call}
    (hcalls : ∀ g, Call.upsert g ∈ calls → P g) :
    ∀ x g, (run policy calls).records.get? x = some g → P g := by
  induction calls using List.reverseRecOn with
  | nil =>
    intro x g hg
    cases hg
  | append_singleton calls call ih =>
    intro x g hg
    have hearlier := ih fun g hg => hcalls g (List.mem_append_left _ hg)
    rw [run_concat] at hg
    refine (consistent_and_current_run policy calls).1.stored_perform hattach hdeactivate hearlier
      (fun g heq => hcalls g ?_) hg
    simp [heq]

end Records

end Lineage.Directory
