/-
Lineage.Proofs.Group.Normal — the normal form of a list of ids.

Lists of ids come with blanks, nulls and repetitions, and `idsOf` brings
them into their normal form: tidy ids, each once (`Normal`), in the order
in which they occur first (`idsOf_order`).  A list that has the form keeps
it (`Normal.uniqueIds_eq`), and part of a list may be brought into it ahead
of the rest (`uniqueIds_append`): tidying does nothing to what is tidy, and
an entry is dropped as a repetition of an earlier one, which the normal
form of the earlier part still holds.

Records and annotations are checked by this, so that their lists have the
form (`normal_of_check`, `Acl.normal_of_check`), and setting a field keeps
it (`normal_of_setField`).  So an annotation that was written is accepted
as it is (`Acl.check_dump`).
-/
import Lineage.Group.Acl
import Lineage.Proofs.Group.RoundTrip
import Mathlib.Data.List.ReduceOption

namespace Lineage

/-! ## First occurrences -/

section Distinct

variable {α : Type} [DecidableEq α]

/-- Dropping repetitions in the first part of a list changes nothing in the
end. -/
theorem distinct_distinct_append (xs ys : List α) :
    distinct (distinct xs ++ ys) = distinct (xs ++ ys) := by
  rw [distinct_append, distinct_append, distinct_of_nodup (nodup_distinct xs)]
  exact congrArg _ (List.filter_congr fun y _ => by simp only [mem_distinct])

/-- What is kept of a list with gaps stands in the order of first
occurrence. -/
theorem pairwise_distinct [BEq α] [LawfulBEq α] (keep : α → Bool) (xs : List (Option α)) :
    (distinct (xs.reduceOption.filter keep)).Pairwise fun a b =>
      xs.idxOf (some a) < xs.idxOf (some b) := by
  induction xs with
  | nil => exact .nil
  | cons x xs ih =>
    have hlater {a b : α} (ha : x ≠ some a) (hb : x ≠ some b)
        (h : xs.idxOf (some a) < xs.idxOf (some b)) :
        (x :: xs).idxOf (some a) < (x :: xs).idxOf (some b) := by
      rw [List.idxOf_cons_ne xs ha, List.idxOf_cons_ne xs hb]
      exact Nat.succ_lt_succ h
    cases x with
    | none =>
      rw [List.reduceOption_cons_of_none]
      exact ih.imp (hlater (Option.some_ne_none _).symm (Option.some_ne_none _).symm)
    | some c =>
      rw [List.reduceOption_cons_of_some]
      by_cases hc : keep c = true
      · rw [List.filter_cons_of_pos hc, distinct, List.pairwise_cons]
        constructor
        · intro b hb
          have hne : c ≠ b := fun h => by simp [h] at hb
          rw [List.idxOf_cons_self, List.idxOf_cons_ne xs (by simpa using hne)]
          exact Nat.succ_pos _
        · refine (ih.filter _).imp_of_mem fun ha hb => hlater ?_ ?_
          · rintro ⟨⟩
            simp at ha
          · rintro ⟨⟩
            simp at hb
      · rw [List.filter_cons_of_neg hc]
        refine ih.imp_of_mem fun ha hb => hlater ?_ ?_
        · rintro ⟨⟩
          exact hc (List.mem_filter.mp (mem_distinct.mp ha)).2
        · rintro ⟨⟩
          exact hc (List.mem_filter.mp (mem_distinct.mp hb)).2

end Distinct

namespace Schema

/-! ## Lists of ids -/

theorem Normal.uniqueIds_eq {ids : List Text} (h : Normal ids) : uniqueIds ids = ids :=
  uniqueIds_of_tidy h.tidy h.once

/-- The first part of a list may be brought into its normal form ahead of
the rest. -/
theorem uniqueIds_append (xs ys : List Text) :
    uniqueIds (uniqueIds xs ++ ys) = uniqueIds (xs ++ ys) := by
  have hstrip : (uniqueIds xs).map Text.strip = uniqueIds xs :=
    (List.map_congr_left fun _ h => (tidy_of_mem_uniqueIds h).stripped).trans (List.map_id' _)
  have hfilter : (uniqueIds xs).filter (fun t => !t.isEmpty) = uniqueIds xs :=
    List.filter_eq_self.mpr fun _ h => by simpa using (tidy_of_mem_uniqueIds h).ne_nil
  rw [uniqueIds, List.map_append, List.filter_append, hstrip, hfilter, uniqueIds,
    distinct_distinct_append, uniqueIds, List.map_append, List.filter_append]

/-- The unique ids of texts and nulls, which do not count. -/
def idsOf (entries : List (Option Text)) : List Text :=
  uniqueIds entries.reduceOption

section Entries

variable (xs ys : List (Option Text))

theorem reduceOption_map_some {α : Type} (as : List α) : (as.map some).reduceOption = as := by
  rw [List.reduceOption, List.filterMap_map]
  exact List.filterMap_some

theorem mentions_textOrNull : mentions (xs.map Group.textOrNull) = .ok xs.reduceOption := by
  induction xs with
  | nil => rfl
  | cons x xs ih =>
    cases x with
    | none => exact ih
    | some t =>
      rw [List.reduceOption_cons_of_some]
      exact congrArg (Except.map (t :: ·)) ih

theorem checkMentions_textOrNull : checkMentions (xs.map Group.textOrNull) = .ok (idsOf xs) := by
  rw [checkMentions, mentions_textOrNull]
  rfl

theorem mem_idsOf {s : Text} : s ∈ idsOf xs ↔ s ≠ [] ∧ ∃ t, some t ∈ xs ∧ t.strip = s := by
  simp only [idsOf, mem_uniqueIds, List.reduceOption_mem_iff]

/-- The unique ids stand in the order in which they occur first. -/
theorem idsOf_order : (idsOf xs).Pairwise fun s t =>
    (xs.map (Option.map Text.strip)).idxOf (some s)
      < (xs.map (Option.map Text.strip)).idxOf (some t) := by
  rw [idsOf, uniqueIds, ← List.reduceOption_map]
  exact pairwise_distinct (fun t : Text => !t.isEmpty) _

theorem idsOf_texts (ids : List Text) : idsOf (ids.map some) = uniqueIds ids := by
  rw [idsOf, reduceOption_map_some]

theorem idsOf_append : idsOf ((idsOf xs).map some ++ ys) = idsOf (xs ++ ys) := by
  rw [idsOf, List.reduceOption_append, reduceOption_map_some, idsOf, uniqueIds_append, idsOf,
    List.reduceOption_append]

end Entries

/-! ## Checked lists -/

theorem normal_of_checkRoles {v : Value} {ids : List Text} (h : checkRoles v = .ok ids) :
    Normal ids := by
  unfold checkRoles at h
  split at h
  · obtain rfl := Checked.ok.inj h
    exact normal_nil
  · exact normal_of_checkMentions h
  · exact normal_of_checkMentions h
  · exact normal_of_checkMentions h
  · cases h

end Schema

/-! ## Checked records and annotations -/

open Schema

theorem Group.normal_of_check {now : Int} {v : Value} {g : Group} (h : check now v = .ok g) :
    Normal g.references :=
  ⟨(settled_of_check h).references, (settled_of_check h).referencesOnce⟩

theorem Group.normal_of_setField {g changed : Group} {field : Field} {v : Value}
    (hg : Normal g.references) (h : g.setField field v = .ok changed) :
    Normal changed.references := by
  cases field with
  | references =>
    obtain ⟨ids, hids, rfl⟩ := Checked.map_eq_ok_iff.mp h
    exact normal_of_checkReferences (Checked.below_eq_ok_iff.mp hids)
  | _ =>
    obtain ⟨_, -, rfl⟩ := Checked.map_eq_ok_iff.mp h
    exact hg

theorem Acl.normal_of_check {v : Value} {a : Acl} (h : check v = .ok a) : Normal a.roles := by
  unfold check at h
  split at h
  · rename_i fields
    rw [Checked.toExcept_eq_ok_iff, checkFields] at h
    simp only [Checked.seq_eq_ok_iff, Checked.map_eq_ok_iff] at h
    obtain ⟨_, roles, ⟨_, _, ⟨_, _, rfl⟩, _, rfl⟩, hroles, rfl⟩ := h
    unfold optionalChecked at hroles
    split at hroles
    · obtain rfl := Checked.ok.inj hroles
      exact normal_nil
    · exact normal_of_checkRoles (Checked.below_eq_ok_iff.mp hroles)
  · cases h

/-! ## Annotations that are written -/

namespace Acl

/-- An annotation as it is written, its fields under the first spelling, as
in `toValue`, or under the second. -/
def dump (byAlias : Bool) (a : Acl) : Value :=
  .object [(.text "group", .text a.group),
    (.text (if byAlias then "localName" else "local_name"), Group.textOrNull a.localName),
    (.text "roles", Group.texts a.roles)]

/-- What is written of an annotation names its group. -/
theorem checkText_of_check {v : Value} {a : Acl} (h : check v = .ok a) :
    checkText 1 (.text a.group) = .ok a.group := by
  unfold check at h
  split at h
  · rename_i fields
    rw [Checked.toExcept_eq_ok_iff, checkFields] at h
    simp only [Checked.seq_eq_ok_iff, Checked.map_eq_ok_iff] at h
    obtain ⟨_, _, ⟨_, _, ⟨group, hgroup, rfl⟩, _, rfl⟩, _, rfl⟩ := h
    obtain ⟨w, hw⟩ := exists_of_required hgroup
    rwa [eq_of_checkText hw] at hw
  · cases h

/-- A checked annotation that was written is accepted as it is. -/
theorem check_dump {v : Value} {a : Acl} (h : check v = .ok a) (byAlias : Bool) :
    check (a.dump byAlias) = .ok a := by
  have hlocal : checkTextOrNull (Group.textOrNull a.localName) = .ok a.localName :=
    Group.checkTextOrNull_textOrNull a.localName
  have hroles : checkRoles (Group.texts a.roles) = .ok a.roles := by
    change checkMentions (a.roles.map .text) = .ok a.roles
    rw [checkMentions, mentions_texts]
    exact congrArg Checked.ok (normal_of_check h).uniqueIds_eq
  have hfields (name : Text) :
      (Acl.mk <$> Checked.ofExcept [.field "group"] (checkText 1 (.text a.group))
        <*> Checked.ofExcept [.field name] (checkTextOrNull (Group.textOrNull a.localName))
        <*> (checkRoles (Group.texts a.roles)).below (.field "roles")) = .ok a := by
    rw [checkText_of_check h, hlocal, hroles]
    rfl
  cases byAlias with
  | true => exact congrArg (Checked.toExcept .acl) (hfields "localName")
  | false => exact congrArg (Checked.toExcept .acl) (hfields "local_name")

end Acl

end Lineage
