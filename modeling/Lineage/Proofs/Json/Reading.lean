/-
Lineage.Proofs.Json.Reading — induction along a document that is read.

The three readers call one another with less fuel, and each of them
leaves an end of the text that it was given.  A property of values that
holds of every value put together from parts of which it holds, the names
of fields included, therefore holds of every value that is read
(`ReadingLaws.of_readWithin`).
-/
import Lineage.Json.Reader
import Lineage.Proofs.Outcome
import Mathlib.Tactic.SplitIfs

namespace Lineage.Json

/-! ## What is left of a text -/

theorem skipGap_suffix (t : Text) : skipGap t <:+ t :=
  List.dropWhile_suffix _

theorem skipGap_append {gap : Text} (h : ∀ p ∈ gap, p.isIn isGap = true) (t : Text) :
    skipGap (gap ++ t) = skipGap t :=
  List.dropWhile_append_of_pos h

theorem skipGap_cons {c : Char} (h : isGap c = false) (t : Text) :
    skipGap (.char c :: t) = .char c :: t :=
  List.dropWhile_cons_of_neg (by simp [CodePoint.isIn, h])

theorem afterWord?_suffix {word : List Char} {t r : Text} (h : afterWord? word t = some r) :
    r <:+ t := by
  induction word generalizing t with
  | nil =>
    obtain rfl := Option.some.inj h
    exact List.suffix_refl _
  | cons c word ih =>
    cases t with
    | nil => cases h
    | cons p t =>
      rw [afterWord?] at h
      split_ifs at h
      exact (ih h).trans (List.suffix_cons p t)

theorem word?_suffix {t r : Text} {v : Value} (h : word? t = some (v, r)) : r <:+ t := by
  obtain ⟨⟨word, w⟩, -, hword⟩ := List.exists_of_findSome?_eq_some h
  obtain ⟨rest, hrest, heq⟩ := Option.map_eq_some_iff.mp hword
  obtain ⟨-, rfl⟩ := Prod.mk.inj heq
  exact afterWord?_suffix hrest

theorem spanDigits_suffix (t : Text) : (spanDigits t).2 <:+ t := by
  fun_induction spanDigits t with
  | case1 c rest _ digits r hspan ih =>
    rw [hspan] at ih
    exact ih.trans (List.suffix_cons _ _)
  | case2 | case3 => exact List.suffix_refl _

theorem minusSign_suffix (t : Text) : (minusSign t).2 <:+ t := by
  unfold minusSign
  split
  · exact List.suffix_cons _ _
  · exact List.suffix_refl _

theorem exponentSign_suffix (t : Text) : (exponentSign t).2 <:+ t := by
  unfold exponentSign
  split
  · exact List.suffix_cons _ _
  · exact List.suffix_cons _ _
  · exact List.suffix_refl _

theorem wholePart?_suffix {t r : Text} {digits : List Char} (h : wholePart? t = some (digits, r)) :
    r <:+ t := by
  unfold wholePart? at h
  split at h
  · obtain ⟨-, rfl⟩ := Prod.mk.inj (Option.some.inj h)
    exact List.suffix_cons _ _
  · split at h
    · cases h
    · have hspan := spanDigits_suffix t
      rw [Option.some.inj h] at hspan
      exact hspan

theorem fraction?_suffix {t r : Text} {digits : List Char} (h : fraction? t = some (digits, r)) :
    r <:+ t := by
  unfold fraction? at h
  split at h
  · rename_i rest
    split at h
    · cases h
    · have hspan := spanDigits_suffix rest
      rw [Option.some.inj h] at hspan
      exact hspan.trans (List.suffix_cons _ _)
  · cases h

theorem exponent?_suffix {t r : Text} {e : Int} (h : exponent? t = some (e, r)) : r <:+ t := by
  unfold exponent? at h
  split at h
  · rename_i p rest
    split_ifs at h
    dsimp only at h
    split at h
    · cases h
    · rename_i hspan
      obtain ⟨-, rfl⟩ := Prod.mk.inj (Option.some.inj h)
      have hdigits := spanDigits_suffix (exponentSign rest).2
      rw [hspan] at hdigits
      exact (hdigits.trans (exponentSign_suffix rest)).trans (List.suffix_cons _ _)
  · cases h

theorem readNumber_suffix {t r : Text} {v : Value} (h : readNumber t = .ok (v, r)) : r <:+ t := by
  have hminus := minusSign_suffix t
  unfold readNumber at h
  dsimp only at h
  split at h
  · cases h
  · rename_i whole rest hwhole
    have hwhole := (wholePart?_suffix hwhole).trans hminus
    have hfraction : ((fraction? rest).getD ([], rest)).2 <:+ rest := by
      cases hf : fraction? rest with
      | none => exact List.suffix_refl _
      | some found =>
        obtain ⟨digits, behind⟩ := found
        exact fraction?_suffix hf
    have hrest := hfraction.trans hwhole
    split at h
    · rename_i hexponent
      cases h
      exact (exponent?_suffix hexponent).trans hrest
    · split at h
      · split at h
        · cases h
        · cases h
          exact hrest
      · cases h
        exact hrest

/-! ## Words and numbers -/

/-- Values that are read as they stand hold no text. -/
theorem exists_scalar_of_word? {t r : Text} {v : Value} (h : word? t = some (v, r)) :
    ∃ s, v = .scalar s ∧ ∀ u, s ≠ .text u := by
  obtain ⟨⟨word, w⟩, hmem, hword⟩ := List.exists_of_findSome?_eq_some h
  obtain ⟨_, -, heq⟩ := Option.map_eq_some_iff.mp hword
  obtain ⟨rfl, -⟩ := Prod.mk.inj heq
  simp only [words, List.mem_cons, List.not_mem_nil, or_false, Prod.mk.injEq] at hmem
  rcases hmem with ⟨-, rfl⟩ | ⟨-, rfl⟩ | ⟨-, rfl⟩ | ⟨-, rfl⟩ | ⟨-, rfl⟩ | ⟨-, rfl⟩ <;>
    exact ⟨_, rfl, by simp⟩

theorem exists_scalar_of_readNumber {t r : Text} {v : Value} (h : readNumber t = .ok (v, r)) :
    ∃ s, v = .scalar s ∧ ∀ u, s ≠ .text u := by
  unfold readNumber at h
  dsimp only at h
  split at h
  · cases h
  · split at h
    · cases h
      exact ⟨_, rfl, by simp⟩
    · split at h
      · split at h
        · cases h
        · cases h
          exact ⟨_, rfl, by simp⟩
      · cases h
        exact ⟨_, rfl, by simp⟩

/-! ## The induction -/

/-- What makes a property of values hold of all that is read of good
texts: the texts between their quotes are good names, and the property
holds of what is put together from good names and values that have it. -/
structure ReadingLaws (Good Name : Text → Prop) (P : Value → Prop) : Prop where
  suffix : ∀ {t r}, r <:+ t → Good t → Good r
  text : ∀ {t s r}, Good t → readText t = .ok (s, r) → Name s ∧ Good r
  scalar : ∀ s, (∀ t, s = .text t → Name t) → P (.scalar s)
  array : ∀ items, (∀ v ∈ items, P v) → P (.array items)
  object : ∀ pairs : List (Scalar × Value),
    (∀ f ∈ pairs, (∀ t, f.1 = .text t → Name t) ∧ P f.2) → P (.object (Keyed.ofPairs pairs))

/-- The three readers of a document keep to the property with this
fuel, and leave good texts. -/
structure ReadersKeep (Good Name : Text → Prop) (P : Value → Prop) (fuel : Nat) : Prop where
  value : ∀ {room t v r}, Good t → readValue fuel room t = .ok (v, r) → P v ∧ Good r
  items : ∀ {room t items r}, Good t → readItems fuel room t = .ok (items, r) →
    (∀ v ∈ items, P v) ∧ Good r
  fields : ∀ {room t fields r}, Good t → readFields fuel room t = .ok (fields, r) →
    (∀ f ∈ fields, (∀ s, f.1 = .text s → Name s) ∧ P f.2) ∧ Good r

namespace ReadingLaws

variable {Good Name : Text → Prop} {P : Value → Prop} {fuel room : Nat} {t rest : Text}

theorem tail (laws : ReadingLaws Good Name P) {p : CodePoint} (ht : Good (p :: t)) : Good t :=
  laws.suffix (List.suffix_cons p t) ht

theorem skipped (laws : ReadingLaws Good Name P) (ht : Good t) : Good (skipGap t) :=
  laws.suffix (skipGap_suffix t) ht

/-- What stands behind white space and one more character is good. -/
theorem tail_of_skipGap (laws : ReadingLaws Good Name P) {p : CodePoint} (ht : Good t)
    (h : skipGap t = p :: rest) : Good rest :=
  laws.tail (h ▸ laws.skipped ht)

theorem of_scalar (laws : ReadingLaws Good Name P) {v : Value}
    (h : ∃ s, v = .scalar s ∧ ∀ u, s ≠ .text u) : P v := by
  obtain ⟨s, rfl, hs⟩ := h
  exact laws.scalar s fun u hu => absurd hu (hs u)

theorem value_succ (laws : ReadingLaws Good Name P) (h : ReadersKeep Good Name P fuel) {v : Value}
    (ht : Good t) (hread : readValue (fuel + 1) room t = .ok (v, rest)) : P v ∧ Good rest := by
  unfold readValue at hread
  split at hread
  · -- a string
    obtain ⟨⟨s, r⟩, hs, heq⟩ := map_eq_ok_iff.mp hread
    cases heq
    obtain ⟨hname, hrest⟩ := laws.text (laws.tail ht) hs
    exact ⟨laws.scalar _ fun u hu => Scalar.text.inj hu ▸ hname, hrest⟩
  · -- an array
    split at hread
    · cases hread
    · split at hread
      · rename_i hgap
        cases hread
        exact ⟨laws.array [] fun _ hv => absurd hv List.not_mem_nil,
          laws.tail_of_skipGap (laws.tail ht) hgap⟩
      · obtain ⟨⟨items, r⟩, hitems, heq⟩ := map_eq_ok_iff.mp hread
        cases heq
        obtain ⟨hall, hrest⟩ := h.items (laws.skipped (laws.tail ht)) hitems
        exact ⟨laws.array items hall, hrest⟩
  · -- an object
    split at hread
    · cases hread
    · split at hread
      · rename_i hgap
        cases hread
        exact ⟨laws.object [] fun _ hf => absurd hf List.not_mem_nil,
          laws.tail_of_skipGap (laws.tail ht) hgap⟩
      · obtain ⟨⟨fields, r⟩, hfields, heq⟩ := map_eq_ok_iff.mp hread
        cases heq
        obtain ⟨hall, hrest⟩ := h.fields (laws.skipped (laws.tail ht)) hfields
        exact ⟨laws.object fields hall, hrest⟩
  · -- a word or a number
    split at hread
    · rename_i hword
      cases hread
      exact ⟨laws.of_scalar (exists_scalar_of_word? hword), laws.suffix (word?_suffix hword) ht⟩
    · exact ⟨laws.of_scalar (exists_scalar_of_readNumber hread),
        laws.suffix (readNumber_suffix hread) ht⟩

theorem items_succ (laws : ReadingLaws Good Name P) (h : ReadersKeep Good Name P fuel)
    {items : List Value} (ht : Good t)
    (hread : readItems (fuel + 1) room t = .ok (items, rest)) :
    (∀ v ∈ items, P v) ∧ Good rest := by
  unfold readItems at hread
  split at hread
  · cases hread
  · rename_i hitem
    obtain ⟨hv, hafter⟩ := h.value ht hitem
    split at hread
    · rename_i hgap
      cases hread
      exact ⟨List.forall_mem_singleton.mpr hv, laws.tail_of_skipGap hafter hgap⟩
    · rename_i hgap
      obtain ⟨⟨more, r⟩, hmore, heq⟩ := map_eq_ok_iff.mp hread
      cases heq
      obtain ⟨hall, hrest⟩ := h.items (laws.skipped (laws.tail_of_skipGap hafter hgap)) hmore
      exact ⟨List.forall_mem_cons.mpr ⟨hv, hall⟩, hrest⟩
    · cases hread

theorem fields_succ (laws : ReadingLaws Good Name P) (h : ReadersKeep Good Name P fuel)
    {fields : List (Scalar × Value)} (ht : Good t)
    (hread : readFields (fuel + 1) room t = .ok (fields, rest)) :
    (∀ f ∈ fields, (∀ s, f.1 = .text s → Name s) ∧ P f.2) ∧ Good rest := by
  unfold readFields at hread
  split at hread
  case h_2 => cases hread
  split at hread
  · cases hread
  rename_i hname
  obtain ⟨hname, hcolon⟩ := laws.text (laws.tail ht) hname
  split at hread
  case h_2 => cases hread
  rename_i hgap
  split at hread
  · cases hread
  rename_i hvalue
  obtain ⟨hv, hafter⟩ := h.value (laws.skipped (laws.tail_of_skipGap hcolon hgap)) hvalue
  dsimp only at hread
  split at hread
  · rename_i hgap
    cases hread
    refine ⟨List.forall_mem_singleton.mpr ⟨?_, hv⟩, laws.tail_of_skipGap hafter hgap⟩
    exact fun s hs => Scalar.text.inj hs ▸ hname
  · rename_i hgap
    obtain ⟨⟨more, r⟩, hmore, heq⟩ := map_eq_ok_iff.mp hread
    cases heq
    obtain ⟨hall, hrest⟩ := h.fields (laws.skipped (laws.tail_of_skipGap hafter hgap)) hmore
    refine ⟨List.forall_mem_cons.mpr ⟨⟨?_, hv⟩, hall⟩, hrest⟩
    exact fun s hs => Scalar.text.inj hs ▸ hname
  · cases hread

/-- Whatever their fuel, the readers keep to the property. -/
theorem readersKeep (laws : ReadingLaws Good Name P) (fuel : Nat) :
    ReadersKeep Good Name P fuel := by
  induction fuel with
  | zero =>
    refine ⟨fun _ h => ?_, fun _ h => ?_, fun _ h => ?_⟩
    · rw [readValue] at h
      cases h
    · rw [readItems] at h
      cases h
    · rw [readFields] at h
      cases h
  | succ fuel ih => exact ⟨laws.value_succ ih, laws.items_succ ih, laws.fields_succ ih⟩

/-- The value of a document has the property. -/
theorem of_readWithin (laws : ReadingLaws Good Name P) {room : Nat} {v : Value} (ht : Good t)
    (h : readWithin room t = .ok v) : P v := by
  unfold readWithin readDocument at h
  split at h
  · rename_i hread
    split at hread
    · cases hread
    · split at hread
      · cases hread
      · rename_i hvalue
        split at hread
        · cases hread
          cases h
          exact ((laws.readersKeep _).value (laws.skipped ht) hvalue).1
        · cases hread
  · cases h

end ReadingLaws

end Lineage.Json
