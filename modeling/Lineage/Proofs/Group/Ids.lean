/-
Lineage.Proofs.Group.Ids — tidy short ids.

A short id is tidy if it is not empty and has no blanks around it, and a
record is if its short id and all its references are.  Every checked
record is tidy (`tidy_of_check`) and stays so when its fields are set
(`Tidy.of_setField`), and where ids are tidy, `uniqueIds` drops
repetitions and nothing else (`mem_uniqueIds_of_tidy`).
-/
import Lineage.Group.Basic
import Mathlib.Data.List.DropRight

namespace Lineage

/-! ## Blanks around a text -/

namespace Text

/-- Trimming a list twice is trimming it once. -/
theorem trimWhere_trimWhere {α : Type} (p : α → Bool) (xs : List α) :
    trimWhere p (trimWhere p xs) = trimWhere p xs := by
  have hend : ∀ ys : List α, (ys.reverse.dropWhile p).reverse = ys.rdropWhile p := fun _ => rfl
  -- What is trimmed at its end still starts as the list did that was trimmed at its start.
  have hstart : (trimWhere p xs).dropWhile p = trimWhere p xs := by
    rw [List.dropWhile_eq_self_iff]
    intro hl
    have hpre : trimWhere p xs <+: xs.dropWhile p := by
      rw [trimWhere, hend]
      exact List.rdropWhile_prefix p _
    rw [hpre.getElem hl]
    exact List.dropWhile_eq_self_iff.mp (List.dropWhile_idempotent p xs) _
  rw [trimWhere, hstart, trimWhere, hend, hend, List.rdropWhile_idempotent]

/-- The text is not empty and has no blanks around it. -/
structure Tidy (t : Text) : Prop where
  ne_nil : t ≠ []
  stripped : t.strip = t

instance (t : Text) : Decidable t.Tidy :=
  decidable_of_iff (t ≠ [] ∧ t.strip = t) ⟨fun h => ⟨h.1, h.2⟩, fun h => ⟨h.ne_nil, h.stripped⟩⟩

theorem tidy_strip {t : Text} (h : t.strip ≠ []) : Tidy t.strip :=
  ⟨h, trimWhere_trimWhere _ t⟩

end Text

/-! ## Unique ids -/

namespace Schema

theorem mem_uniqueIds {ids : List Text} {s : Text} :
    s ∈ uniqueIds ids ↔ s ≠ [] ∧ ∃ t ∈ ids, t.strip = s := by
  rw [uniqueIds, mem_distinct, List.mem_filter, List.mem_map, and_comm]
  simp

theorem tidy_of_mem_uniqueIds {ids : List Text} {s : Text} (h : s ∈ uniqueIds ids) : s.Tidy := by
  obtain ⟨hne, t, -, rfl⟩ := mem_uniqueIds.mp h
  exact Text.tidy_strip hne

/-- Every id of the list is tidy and stands there once. -/
structure Normal (ids : List Text) : Prop where
  tidy : ∀ s ∈ ids, s.Tidy
  once : ids.Nodup

theorem normal_nil : Normal [] :=
  ⟨fun _ h => absurd h List.not_mem_nil, List.nodup_nil⟩

theorem normal_uniqueIds (ids : List Text) : Normal (uniqueIds ids) :=
  ⟨fun _ => tidy_of_mem_uniqueIds, nodup_uniqueIds ids⟩

/-- Of tidy ids only repetitions are dropped. -/
theorem uniqueIds_eq_distinct {ids : List Text} (h : ∀ t ∈ ids, t.Tidy) :
    uniqueIds ids = distinct ids := by
  have hstrip : ids.map Text.strip = ids :=
    (List.map_congr_left fun t ht => (h t ht).stripped).trans (List.map_id' ids)
  have hfilter : ids.filter (fun t => !t.isEmpty) = ids :=
    List.filter_eq_self.mpr fun t ht => by simpa using (h t ht).ne_nil
  rw [uniqueIds, hstrip, hfilter]

/-- Tidy ids stay as they are. -/
theorem mem_uniqueIds_of_tidy {ids : List Text} (h : ∀ t ∈ ids, t.Tidy) {s : Text} :
    s ∈ uniqueIds ids ↔ s ∈ ids := by
  rw [uniqueIds_eq_distinct h, mem_distinct]

/-! ## Checked lists -/

theorem normal_of_checkMentions {vs : List Value} {ids : List Text}
    (h : checkMentions vs = .ok ids) : Normal ids := by
  unfold checkMentions at h
  split at h
  · cases h
  · obtain rfl := Checked.ok.inj h
    exact normal_uniqueIds _

theorem normal_of_checkReferences {reason : Text} {v : Value} {ids : List Text}
    (h : checkReferences reason v = .ok ids) : Normal ids := by
  unfold checkReferences at h
  split at h
  · obtain rfl := Checked.ok.inj h
    exact normal_nil
  · cases h
  · exact normal_of_checkMentions h
  · exact normal_of_checkMentions h
  · cases h

/-! ## Checked records -/

namespace Checked

variable {α β : Type}

theorem seq_eq_ok_iff {f : Checked (α → β)} {x : Checked α} {b : β} :
    f <*> x = .ok b ↔ ∃ g a, f = .ok g ∧ x = .ok a ∧ g a = b := by
  have hseq : f <*> x = apply f x := rfl
  rw [hseq]
  cases f <;> cases x <;> simp [apply]

theorem map_eq_ok_iff {f : α → β} {x : Checked α} {b : β} :
    f <$> x = .ok b ↔ ∃ a, x = .ok a ∧ f a = b := by
  have hmap : f <$> x = apply (.ok f) x := rfl
  rw [hmap]
  cases x <;> simp [apply]

theorem toExcept_eq_ok_iff {model : Model} {x : Checked α} {a : α} :
    x.toExcept model = .ok a ↔ x = .ok a := by
  cases x <;> simp [toExcept]

theorem below_eq_ok_iff {step : Step} {x : Checked α} {a : α} :
    x.below step = .ok a ↔ x = .ok a := by
  cases x <;> simp [below]

theorem ofExcept_eq_ok_iff {place : List Step} {x : Except Complaint α} {a : α} :
    ofExcept place x = .ok a ↔ x = .ok a := by
  cases x <;> simp [ofExcept]

end Checked

/-- What a required field holds has passed its check. -/
theorem exists_of_required {α : Type} {fields : Fields} {name : FieldName}
    {check : Value → Except Complaint α} {a : α} (h : required fields name check = .ok a) :
    ∃ v, check v = .ok a := by
  unfold required at h
  split at h
  · cases h
  · rename_i v _
    exact ⟨v, Checked.ofExcept_eq_ok_iff.mp h⟩

end Schema

namespace Group

open Schema

theorem tidy_of_checkShortId {v : Value} {s : Text} (h : checkShortId v = .ok s) : s.Tidy := by
  unfold checkShortId at h
  split at h
  · cases h
  · dsimp only at h
    split at h
    · cases h
    · rename_i hne
      obtain rfl := Except.ok.inj h
      exact Text.tidy_strip (by simpa using hne)

/-- Where the two fields of a checked record with ids come from. -/
theorem ids_of_check {now : Int} {v : Value} {g : Group} (h : check now v = .ok g) :
    ∃ fields, required fields Field.shortId.spelling checkShortId = .ok g.shortId
      ∧ optionalChecked fields Field.references.spelling [] checkGroupReferences
        = .ok g.references := by
  unfold check at h
  split at h
  · rename_i fields
    rw [Checked.toExcept_eq_ok_iff, checkFields] at h
    simp only [Checked.seq_eq_ok_iff, Checked.map_eq_ok_iff] at h
    -- Eleven fields come after the short id, one before it; the references are the last one.
    obtain ⟨_, refs, ⟨_, _, ⟨_, _, ⟨_, _, ⟨_, _, ⟨_, _, ⟨_, _, ⟨_, _, ⟨_, _, ⟨_, _, ⟨_, _,
      ⟨_, s, ⟨_, _, rfl⟩, hs, rfl⟩, -, rfl⟩, -, rfl⟩, -, rfl⟩, -, rfl⟩, -, rfl⟩, -, rfl⟩, -, rfl⟩,
      -, rfl⟩, -, rfl⟩, -, rfl⟩, hrefs, rfl⟩ := h
    exact ⟨fields, hs, hrefs⟩
  · cases h

/-- A checked record has a tidy short id. -/
theorem tidy_shortId_of_check {now : Int} {v : Value} {g : Group} (h : check now v = .ok g) :
    g.shortId.Tidy := by
  obtain ⟨fields, hs, -⟩ := ids_of_check h
  obtain ⟨v, hv⟩ := exists_of_required hs
  exact tidy_of_checkShortId hv

/-! ## Tidy records -/

/-- The short id of a record and all that it lists are tidy. -/
structure Tidy (g : Group) : Prop where
  shortId : g.shortId.Tidy
  references : ∀ s ∈ g.references, s.Tidy

instance (g : Group) : Decidable g.Tidy :=
  decidable_of_iff (g.shortId.Tidy ∧ ∀ s ∈ g.references, s.Tidy)
    ⟨fun h => ⟨h.1, h.2⟩, fun h => ⟨h.shortId, h.references⟩⟩

/-- A checked record is tidy. -/
theorem tidy_of_check {now : Int} {v : Value} {g : Group} (h : check now v = .ok g) : g.Tidy := by
  refine ⟨tidy_shortId_of_check h, ?_⟩
  obtain ⟨fields, -, hrefs⟩ := ids_of_check h
  unfold optionalChecked at hrefs
  split at hrefs
  · rw [← Checked.ok.inj hrefs]
    exact fun s hs => absurd hs List.not_mem_nil
  · exact (normal_of_checkReferences (Checked.below_eq_ok_iff.mp hrefs)).tidy

/-- A record stays tidy when a field is replaced under its checks. -/
theorem Tidy.of_setField {g g' : Group} {field : Field} {v : Value} (h : g.Tidy)
    (hs : g.setField field v = .ok g') : g'.Tidy := by
  cases field with
  | shortId =>
    obtain ⟨s, hid, rfl⟩ := Checked.map_eq_ok_iff.mp hs
    exact ⟨tidy_of_checkShortId (Checked.ofExcept_eq_ok_iff.mp hid), h.references⟩
  | references =>
    obtain ⟨refs, hrefs, rfl⟩ := Checked.map_eq_ok_iff.mp hs
    exact ⟨h.shortId, (normal_of_checkReferences (Checked.below_eq_ok_iff.mp hrefs)).tidy⟩
  | _ =>
    obtain ⟨_, -, rfl⟩ := Checked.map_eq_ok_iff.mp hs
    exact ⟨h.shortId, h.references⟩

end Group

end Lineage
