/-
Lineage.Proofs.Group.Misfits — documents that a check cannot handle.

Most that is wrong with the document of a record is a fault of one of its
fields, and all faults are collected.  A list of ids is another matter:
it is prepared before it is checked, and a value that has no entries, or
one with an entry that is neither a text nor null (`Value.Unlistable`),
makes the whole check fail, whatever else is at fault
(`Group.exists_misfit_of_check_iff`, `Acl.exists_misfit_of_check_iff`).
-/
import Lineage.Group.Acl
import Lineage.Proofs.Group.Ids

namespace Lineage

/-! ## Lists of ids -/

namespace Value

/-- The value can be an entry of a list of ids. -/
def IsMention (v : Value) : Prop :=
  v = .null ∨ ∃ t, v = .text t

/-- The value has no entries, or one that cannot be an entry of a list of
ids. -/
inductive Unlistable : Value → Prop
  | scalar {s : Scalar} (h : ¬ IsMention (.scalar s)) : Unlistable (.scalar s)
  | array {items : List Value} (h : ∃ v ∈ items, ¬ v.IsMention) : Unlistable (.array items)
  | object {fields : Fields} (h : ∃ f ∈ fields, ¬ IsMention (.scalar f.1)) :
      Unlistable (.object fields)

end Value

namespace Schema

open Value

theorem exists_misfit_of_mentions_iff {vs : List Value} :
    (∃ m, mentions vs = .error m) ↔ ∃ v ∈ vs, ¬ v.IsMention := by
  induction vs with
  | nil => simp [mentions]
  | cons v rest ih =>
    rw [List.exists_mem_cons_iff, ← ih]
    cases v with
    | scalar s =>
      cases s with
      | null => simp [mentions, IsMention]
      | text t => cases hrest : mentions rest <;> simp [mentions, IsMention, hrest, Except.map]
      | _ => simp [mentions, IsMention]
    | _ => simp [mentions, IsMention]

theorem exists_misfit_of_checkMentions_iff {vs : List Value} :
    (∃ m, checkMentions vs = .misfit m) ↔ ∃ v ∈ vs, ¬ v.IsMention := by
  rw [← exists_misfit_of_mentions_iff, checkMentions]
  cases mentions vs <;> simp

theorem exists_misfit_of_namesOf_iff {fields : Fields} :
    (∃ m, checkMentions (namesOf fields) = .misfit m)
      ↔ ∃ f ∈ fields, ¬ IsMention (.scalar f.1) := by
  rw [exists_misfit_of_checkMentions_iff, namesOf]
  simp

/-- References cannot be handled if they cannot be listed. -/
theorem exists_misfit_of_checkReferences_iff (reason : Text) {v : Value} :
    (∃ m, checkReferences reason v = .misfit m) ↔ v.Unlistable := by
  cases v with
  | scalar s =>
    have hscalar : Unlistable (.scalar s) ↔ ¬ IsMention (.scalar s) :=
      ⟨fun h => by cases h; assumption, .scalar⟩
    rw [hscalar, IsMention]
    cases s <;> simp [checkReferences]
  | array items =>
    have harray : Unlistable (.array items) ↔ ∃ v ∈ items, ¬ v.IsMention :=
      ⟨fun h => by cases h; assumption, .array⟩
    rw [harray, checkReferences, exists_misfit_of_checkMentions_iff]
  | object fields =>
    have hobject : Unlistable (.object fields) ↔ ∃ f ∈ fields, ¬ IsMention (.scalar f.1) :=
      ⟨fun h => by cases h; assumption, .object⟩
    rw [hobject, checkReferences, exists_misfit_of_namesOf_iff]

/-- The characters of a text can be listed, and otherwise roles are
checked as references are. -/
theorem exists_misfit_of_checkRoles_iff {v : Value} :
    (∃ m, checkRoles v = .misfit m) ↔ v.Unlistable := by
  rw [← exists_misfit_of_checkReferences_iff []]
  unfold checkRoles
  split
  · rfl
  · rename_i t
    have hchars : ∀ v ∈ t.map fun p => Value.text [p], IsMention v := by
      intro v hv
      obtain ⟨p, -, rfl⟩ := List.mem_map.mp hv
      exact .inr ⟨_, rfl⟩
    have hnone : (∃ m, checkMentions (t.map fun p => .text [p]) = .misfit m)
        ↔ ∃ v ∈ t.map (fun p => Value.text [p]), ¬ v.IsMention :=
      exists_misfit_of_checkMentions_iff
    constructor
    · intro h
      obtain ⟨v, hv, hnot⟩ := hnone.mp h
      exact absurd (hchars v hv) hnot
    · rintro ⟨m, hm⟩
      cases hm
  · rfl
  · rfl
  · rename_i hnull htext harray hobject
    cases v with
    | scalar s =>
      cases s with
      | null => exact absurd rfl hnull
      | text t => exact absurd rfl (htext t)
      | _ => rfl
    | array items => exact absurd rfl (harray items)
    | object fields => exact absurd rfl (hobject fields)

/-! ## Records -/

namespace Checked

variable {α β : Type}

theorem exists_misfit_of_seq_iff {f : Checked (α → β)} {x : Checked α} :
    (∃ m, f <*> x = .misfit m) ↔ (∃ m, f = .misfit m) ∨ ∃ m, x = .misfit m := by
  have hseq : f <*> x = apply f x := rfl
  rw [hseq]
  cases f <;> cases x <;> simp [apply]

theorem exists_misfit_of_map_iff {f : α → β} {x : Checked α} :
    (∃ m, f <$> x = .misfit m) ↔ ∃ m, x = .misfit m := by
  have hmap : f <$> x = apply (.ok f) x := rfl
  rw [hmap]
  cases x <;> simp [apply]

theorem exists_misfit_of_toExcept_iff {model : Model} {x : Checked α} :
    (∃ m, x.toExcept model = .error (.misfit m)) ↔ ∃ m, x = .misfit m := by
  cases x <;> simp [toExcept]

theorem exists_misfit_of_below_iff {step : Step} {x : Checked α} :
    (∃ m, x.below step = .misfit m) ↔ ∃ m, x = .misfit m := by
  cases x <;> simp [below]

theorem ofExcept_ne_misfit (place : List Step) (x : Except Complaint α) :
    ¬ ∃ m, ofExcept place x = .misfit m := by
  cases x <;> simp [ofExcept]

end Checked

section Fields

variable {α : Type} {fields : Fields} {name : FieldName} {default : α}

theorem required_ne_misfit (check : Value → Except Complaint α) :
    ¬ ∃ m, required fields name check = .misfit m := by
  unfold required
  split
  · simp
  · exact Checked.ofExcept_ne_misfit _ _

theorem optional_ne_misfit (check : Value → Except Complaint α) :
    ¬ ∃ m, Schema.optional fields name default check = .misfit m := by
  unfold Schema.optional
  split
  · simp
  · exact Checked.ofExcept_ne_misfit _ _

theorem exists_misfit_of_optionalChecked_iff {check : Value → Checked α} :
    (∃ m, optionalChecked fields name default check = .misfit m)
      ↔ ∃ key v, name.find fields = some (key, v) ∧ ∃ m, check v = .misfit m := by
  unfold optionalChecked
  split
  · rename_i hnone
    simp [hnone]
  · rename_i key v hsome
    rw [Checked.exists_misfit_of_below_iff]
    simp [hsome]

end Fields

end Schema

open Schema

/-- The document of a record has references that cannot be listed. -/
def Group.Unlistable (v : Value) : Prop :=
  ∃ fields key refs, v = .object fields
    ∧ Group.Field.references.spelling.find fields = some (key, refs) ∧ refs.Unlistable

/-- The document of an annotation has roles that cannot be listed. -/
def Acl.Unlistable (v : Value) : Prop :=
  ∃ fields key roles, v = .object fields
    ∧ FieldName.find ⟨"roles", "roles"⟩ fields = some (key, roles) ∧ roles.Unlistable

/-- Whatever else is at fault, the check of a record cannot handle
references that cannot be listed, and nothing else. -/
theorem Group.exists_misfit_of_check_iff {now : Int} {v : Value} :
    (∃ m, check now v = .error (.misfit m)) ↔ Group.Unlistable v := by
  unfold check Group.Unlistable
  split
  · rename_i fields
    rw [Checked.exists_misfit_of_toExcept_iff, checkFields]
    simp only [Checked.exists_misfit_of_seq_iff, Checked.exists_misfit_of_map_iff,
      required_ne_misfit, optional_ne_misfit, exists_misfit_of_optionalChecked_iff,
      checkGroupReferences, exists_misfit_of_checkReferences_iff, false_or, or_false]
    simp
  · rename_i hnone
    constructor
    · rintro ⟨m, hm⟩
      cases hm
    · rintro ⟨fields, -, -, rfl, -⟩
      exact absurd rfl (hnone fields)

theorem Acl.exists_misfit_of_check_iff {v : Value} :
    (∃ m, check v = .error (.misfit m)) ↔ Acl.Unlistable v := by
  unfold check Acl.Unlistable
  split
  · rename_i fields
    rw [Checked.exists_misfit_of_toExcept_iff, checkFields]
    simp only [Checked.exists_misfit_of_seq_iff, Checked.exists_misfit_of_map_iff,
      required_ne_misfit, optional_ne_misfit, exists_misfit_of_optionalChecked_iff,
      exists_misfit_of_checkRoles_iff, false_or, or_false]
    simp
  · rename_i hnone
    constructor
    · rintro ⟨m, hm⟩
      cases hm
    · rintro ⟨fields, -, -, rfl, -⟩
      exact absurd rfl (hnone fields)

end Lineage
