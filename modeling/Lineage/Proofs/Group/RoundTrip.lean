/-
Lineage.Proofs.Group.RoundTrip — records that are written and read again.

A check strips, lower-cases and drops repetitions, and doing so again
changes nothing (`Settled`).  So the written form of a checked record is
read back as the same record, with two exceptions (`writtenFaults`).  A
language is measured before the blanks around it are removed, so that one
with fewer than two other characters is accepted, and refused when it is
read back.  And a record that names no creation time takes the time of
the reading unchecked, which may lie before the start of time.
-/
import Lineage.Proofs.Text.Lowered

namespace Lineage

open Schema

/-! ## Checked fields -/

namespace Schema

/-- What an optional field holds is its default or has passed its check. -/
theorem optional_cases {α : Type} {fields : Fields} {name : FieldName} {default : α}
    {check : Value → Except Complaint α} {a : α}
    (h : optional fields name default check = .ok a) : a = default ∨ ∃ v, check v = .ok a := by
  unfold optional at h
  split at h
  · exact .inl (Checked.ok.inj h).symm
  · rename_i v _
    exact .inr ⟨v, Checked.ofExcept_eq_ok_iff.mp h⟩

theorem le_of_checkInteger {least i : Int} {v : Value} (h : checkInteger least v = .ok i) :
    least ≤ i := by
  unfold checkInteger at h
  split at h
  · cases h
  · split at h
    · cases h
    · obtain rfl := Except.ok.inj h
      omega

theorem checkInteger_int (least i : Int) :
    checkInteger least (.int i) = if i < least then .error (.lessThan least) else .ok i :=
  rfl

/-- A checked text is the text that was checked. -/
theorem eq_of_checkText {least : Nat} {v : Value} {t : Text} (h : checkText least v = .ok t) :
    v = .text t := by
  unfold checkText at h
  split at h
  · split_ifs at h <;> rw [Except.ok.inj h]
  · cases h

theorem isBroken_of_checkText {least : Nat} {v : Value} {t : Text} (hleast : least ≠ 0)
    (h : checkText least v = .ok t) : t.isBroken = false := by
  unfold checkText at h
  split at h
  · rw [if_neg hleast] at h
    split at h
    · cases h
    · rename_i hwhole
      split at h
      · cases h
      · obtain rfl := Except.ok.inj h
        exact Bool.eq_false_iff.mpr hwhole
  · cases h

/-- A text that is whole is checked by its length alone. -/
theorem checkText_text {t : Text} (h : t.isBroken = false) (least : Nat) :
    checkText least (.text t) = if t.length < least then .error (.textShorterThan least)
      else .ok t := by
  unfold checkText
  by_cases hleast : least = 0
  · simp [hleast]
  · simp [hleast, h]

/-- Distinct tidy ids are their own unique ids. -/
theorem uniqueIds_of_tidy {ids : List Text} (h : ∀ t ∈ ids, t.Tidy) (hnodup : ids.Nodup) :
    uniqueIds ids = ids := by
  rw [uniqueIds_eq_distinct h, distinct_of_nodup hnodup]

theorem mentions_texts (ids : List Text) : mentions (ids.map .text) = .ok ids := by
  induction ids with
  | nil => rfl
  | cons t rest ih =>
    have hcons : mentions ((t :: rest).map .text) = (mentions (rest.map .text)).map (t :: ·) := rfl
    rw [hcons, ih]
    rfl

end Schema

namespace Text

theorem isBroken_strip {t : Text} (h : t.isBroken = false) : t.strip.isBroken = false := by
  have hsub : t.strip.Sublist t :=
    (List.rdropWhile_prefix _ _).sublist.trans (List.dropWhile_sublist _)
  rw [isBroken, List.any_eq_false] at h ⊢
  exact fun p hp => h p (hsub.subset hp)

end Text

namespace Group

/-! ## What a check leaves in a record -/

/-- Normalising the fields of the record once more changes none of them,
and its numbers, the creation time apart, have passed their checks. -/
structure Settled (g : Group) : Prop where
  shortId : g.shortId.Tidy
  shortIdWhole : g.shortId.isBroken = false
  version : 1 ≤ g.version
  languageWhole : g.language.isBroken = false
  languageStripped : g.language.strip = g.language
  languageLowered : g.language.lowercase = g.language
  modificationMs : 0 ≤ g.modificationMs
  deletionMs : 0 ≤ g.deletionMs
  references : ∀ s ∈ g.references, s.Tidy
  referencesOnce : g.references.Nodup

theorem isBroken_of_checkShortId {v : Value} {s : Text} (h : checkShortId v = .ok s) :
    s.isBroken = false := by
  unfold checkShortId at h
  split at h
  · cases h
  · rename_i t ht
    dsimp only at h
    split at h
    · cases h
    · obtain rfl := Except.ok.inj h
      exact Text.isBroken_strip (isBroken_of_checkText (by decide) ht)

theorem settled_language {v : Value} {t : Text} (h : checkLanguage v = .ok t) :
    t.isBroken = false ∧ t.strip = t ∧ t.lowercase = t := by
  obtain ⟨s, hs, rfl⟩ : ∃ s, checkText 2 v = .ok s ∧ Text.lowercase (Text.strip s) = t := by
    unfold checkLanguage at h
    cases hs : checkText 2 v with
    | error c =>
      rw [hs] at h
      cases h
    | ok s =>
      rw [hs] at h
      exact ⟨s, rfl, Except.ok.inj h⟩
  have hwhole := isBroken_of_checkText (by decide) hs
  exact ⟨Text.isBroken_lowercase (Text.isBroken_strip hwhole),
    Text.strip_lowercase (Text.trimWhere_trimWhere _ s), Text.lowercase_lowercase _⟩

/-- Every checked record is settled. -/
theorem settled_of_check {now : Int} {v : Value} {g : Group} (h : check now v = .ok g) :
    g.Settled := by
  have htidy := tidy_of_check h
  unfold check at h
  split at h
  · rename_i fields
    rw [Checked.toExcept_eq_ok_iff, checkFields] at h
    simp only [Checked.seq_eq_ok_iff, Checked.map_eq_ok_iff] at h
    obtain ⟨_, refs, ⟨_, deletion, ⟨_, modification, ⟨_, _, ⟨_, _, ⟨_, _, ⟨_, _, ⟨_, language,
      ⟨_, _, ⟨_, _, ⟨_, version, ⟨_, s, ⟨_, _, rfl⟩, hs, rfl⟩, hversion, rfl⟩, -, rfl⟩, -, rfl⟩,
      hlanguage, rfl⟩, -, rfl⟩, -, rfl⟩, -, rfl⟩, -, rfl⟩, hmodification, rfl⟩, hdeletion, rfl⟩,
      hrefs, rfl⟩ := h
    obtain ⟨_, hs⟩ := exists_of_required hs
    have hlang : language.isBroken = false ∧ language.strip = language
        ∧ language.lowercase = language := by
      rcases optional_cases hlanguage with rfl | ⟨_, hlanguage⟩
      · decide +kernel
      · exact settled_language hlanguage
    refine ⟨htidy.shortId, isBroken_of_checkShortId hs, ?_, hlang.1, hlang.2.1, hlang.2.2, ?_, ?_,
      htidy.references, ?_⟩
    · rcases optional_cases hversion with rfl | ⟨_, hversion⟩
      · exact Int.le_refl 1
      · exact le_of_checkInteger hversion
    · rcases optional_cases hmodification with rfl | ⟨_, hmodification⟩
      · exact Int.le_refl 0
      · exact le_of_checkInteger hmodification
    · rcases optional_cases hdeletion with rfl | ⟨_, hdeletion⟩
      · exact Int.le_refl 0
      · exact le_of_checkInteger hdeletion
    · unfold optionalChecked at hrefs
      split at hrefs
      · rw [← Checked.ok.inj hrefs]
        exact List.nodup_nil
      · exact (normal_of_checkReferences (Checked.below_eq_ok_iff.mp hrefs)).once
  · cases h

/-! ## Written records -/

/-- The fields of a record as it is written. -/
def written (g : Group) : Fields :=
  Field.all.map fun f => (f.spelling.camel, g.fieldValue f)

/-- A written record holds every field under its first spelling. -/
theorem find_written (g : Group) (f : Field) :
    f.spelling.find g.written = some (f.spelling.camel, g.fieldValue f) := by
  cases f <;> rfl

theorem optional_written {α : Type} (g : Group) (f : Field) (default : α)
    (check : Value → Except Complaint α) :
    optional g.written f.spelling default check
      = .ofExcept [.field f.spelling.camel] (check (g.fieldValue f)) := by
  rw [Schema.optional, find_written]

theorem required_written {α : Type} (g : Group) (f : Field)
    (check : Value → Except Complaint α) :
    required g.written f.spelling check
      = .ofExcept [.field f.spelling.camel] (check (g.fieldValue f)) := by
  rw [required, find_written]

theorem optionalChecked_written {α : Type} (g : Group) (f : Field) (default : α)
    (check : Value → Checked α) :
    optionalChecked g.written f.spelling default check
      = (check (g.fieldValue f)).below (.field f.spelling.camel) := by
  rw [optionalChecked, find_written]

theorem checkTextOrNull_textOrNull (t : Option Text) : checkTextOrNull (textOrNull t) = .ok t := by
  cases t <;> rfl

/-- What a tidy whole text stands for as a short id is the text. -/
theorem checkShortId_text {s : Text} (htidy : s.Tidy) (hwhole : s.isBroken = false) :
    checkShortId (.text s) = .ok s := by
  have hlength : ¬ s.length < 1 := by
    have hpos := List.length_pos_iff.mpr htidy.ne_nil
    omega
  have hne : s.isEmpty = false := by simpa using htidy.ne_nil
  rw [checkShortId, checkText_text hwhole, if_neg hlength]
  simp [htidy.stripped, hne]

/-- A language in its normal form is read as it is, if it is long
enough. -/
theorem checkLanguage_text {t : Text} (hwhole : t.isBroken = false) (hstrip : t.strip = t)
    (hlower : t.lowercase = t) :
    checkLanguage (.text t) = if t.length < 2 then .error (.textShorterThan 2) else .ok t := by
  rw [checkLanguage, checkText_text hwhole]
  split
  · rfl
  · change Except.ok (Text.lowercase (Text.strip t)) = _
    rw [hstrip, hlower]

theorem checkGroupReferences_texts {ids : List Text} (h : ∀ t ∈ ids, t.Tidy) (hnodup : ids.Nodup) :
    checkGroupReferences (texts ids) = .ok ids := by
  change checkMentions (ids.map .text) = .ok ids
  rw [checkMentions, mentions_texts]
  exact congrArg Checked.ok (uniqueIds_of_tidy h hnodup)

/-- What keeps a written record from being read back. -/
def writtenFaults (g : Group) : List Fault :=
  (if g.language.length < 2 then
    [⟨[.field Field.language.spelling.camel], .textShorterThan 2⟩] else [])
  ++ (if g.creationMs < 0 then [⟨[.field Field.creationMs.spelling.camel], .lessThan 0⟩] else [])

/-- Reading a settled record that was written. -/
theorem Settled.checkFields_written {g : Group} (h : g.Settled) (now : Int) :
    checkFields now g.written = if g.writtenFaults = [] then .ok g else .faulty g.writtenFaults := by
  have hversion : checkInteger 1 (.int g.version) = .ok g.version := by
    rw [checkInteger_int, if_neg (Int.not_lt.mpr h.version)]
  have hmodification : checkInteger 0 (.int g.modificationMs) = .ok g.modificationMs := by
    rw [checkInteger_int, if_neg (Int.not_lt.mpr h.modificationMs)]
  have hdeletion : checkInteger 0 (.int g.deletionMs) = .ok g.deletionMs := by
    rw [checkInteger_int, if_neg (Int.not_lt.mpr h.deletionMs)]
  simp only [checkFields, optional_written, required_written, optionalChecked_written, fieldValue,
    checkTextOrNull_textOrNull, checkShortId_text h.shortId h.shortIdWhole, hversion,
    hmodification, hdeletion,
    checkLanguage_text h.languageWhole h.languageStripped h.languageLowered, checkInteger_int,
    checkGroupReferences_texts h.references h.referencesOnce, writtenFaults]
  -- The eleven other checks pass; these two may fail, alone or together.
  by_cases hlanguage : g.language.length < 2 <;> by_cases hcreation : g.creationMs < 0 <;>
    simp only [hlanguage, hcreation, if_true, if_false] <;> rfl

theorem writtenFaults_eq_nil_iff (g : Group) :
    g.writtenFaults = [] ↔ 2 ≤ g.language.length ∧ 0 ≤ g.creationMs := by
  have hnone : ∀ (p : Prop) [Decidable p] (fault : Fault),
      (if p then [fault] else []) = [] ↔ ¬ p := by
    intro p _ fault
    by_cases hp : p <;> simp [hp]
  rw [writtenFaults, List.append_eq_nil_iff, hnone, hnone]
  omega

/-- The written form of a checked record is read back as the same record,
whenever that happens, exactly if its language has two characters left
and its creation time does not lie before the start of time.  Otherwise these
two fields alone are found faulty. -/
theorem check_toValue {now : Int} {v : Value} {g : Group} (h : check now v = .ok g) (later : Int) :
    (check later g.toValue = .ok g ↔ 2 ≤ g.language.length ∧ 0 ≤ g.creationMs)
      ∧ (check later g.toValue ≠ .ok g →
        check later g.toValue = .error (.faults .group g.writtenFaults)) := by
  have hcheck : check later g.toValue = (checkFields later g.written).toExcept .group := rfl
  rw [hcheck, (settled_of_check h).checkFields_written, ← writtenFaults_eq_nil_iff]
  by_cases hfaults : g.writtenFaults = []
  · simp [hfaults, Checked.toExcept]
  · simp [hfaults, Checked.toExcept]

/-- Blanks, capitals, repetitions and a number in a text are gone when
the record has been read, and it is read back as it then was. -/
theorem check_toValue_untidy :
    let g : Group :=
      ⟨none, [.char 'a'], 7, [], [], [.char 'e', .char 'n'], true, false, 1000, none, 0, 0,
        [[.char 'b']]⟩
    check 1000 (.object [("short_id", .text " a "), ("version", .text "7"),
        ("language", .text " EN "), ("referringGroups", .array [.text "b ", .null, .text "b"])])
        = .ok g
      ∧ check 2000 g.toValue = .ok g := by
  intro g
  have hread : check 1000 (.object [("short_id", .text " a "), ("version", .text "7"),
      ("language", .text " EN "), ("referringGroups", .array [.text "b ", .null, .text "b"])])
      = .ok g := by
    decide +kernel
  exact ⟨hread, (check_toValue hread 2000).1.mpr (by decide)⟩

/-- A language of a blank and a letter is long enough when it is read;
the letter alone, which is written, is not. -/
theorem check_toValue_shortLanguage :
    ∃ g, check 1000 (.object [("shortId", .text "a"), ("language", .text " e")]) = .ok g
      ∧ g.language = [.char 'e']
      ∧ ∀ later, check later g.toValue
        = .error (.faults .group [⟨[.field "language"], .textShorterThan 2⟩]) := by
  refine ⟨⟨none, [.char 'a'], 1, [], [], [.char 'e'], true, false, 1000, none, 0, 0, []⟩,
    by decide +kernel, rfl, fun later => rfl⟩

end Group

end Lineage
