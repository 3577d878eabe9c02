/-
Lineage.Proofs.Json.Grammar — the grammar of documents, beside the reader.

`Spells t v rest` says that the text `t` starts with a spelling of the
value `v` and that `rest` is what follows it.  The relation knows the
grammar and nothing else: it has neither fuel nor room, and an integer may
have any number of digits.  Whatever the reader makes of a text, the text
spells (`readersSpell`), so a document that is read is a document of that
value (`document_of_readWithin`).
-/
import Lineage.Proofs.Json.Decimal
import Lineage.Proofs.Json.Quoted
import Lineage.Proofs.Json.Reading
import Mathlib.Data.List.TakeWhile

namespace Lineage.Json

/-! ## White space -/

/-- The rest stands behind white space, or behind nothing. -/
def Gap (t rest : Text) : Prop :=
  ∃ gap, t = gap ++ rest ∧ ∀ p ∈ gap, p.isIn isGap = true

section Gap

variable {t rest : Text}

theorem gap_skipGap (t : Text) : Gap t (skipGap t) :=
  ⟨t.takeWhile (CodePoint.isIn isGap), List.takeWhile_append_dropWhile.symm,
    fun _ hp => List.mem_takeWhile_imp hp⟩

theorem gap_of_skipGap_eq (h : skipGap t = rest) : Gap t rest :=
  h ▸ gap_skipGap t

theorem Gap.skipGap_eq (h : Gap t rest) : skipGap t = skipGap rest := by
  obtain ⟨gap, rfl, hgap⟩ := h
  exact skipGap_append hgap rest

theorem Gap.skipGap_eq_cons {c : Char} (h : Gap t (.char c :: rest)) (hc : isGap c = false) :
    skipGap t = .char c :: rest :=
  h.skipGap_eq.trans (skipGap_cons hc rest)

theorem Gap.suffix (h : Gap t rest) : rest <:+ t := by
  obtain ⟨gap, rfl, -⟩ := h
  exact List.suffix_append gap rest

/-- White space ends a value, and so does what ends it behind white
space. -/
theorem Gap.endsValue (h : Gap t rest) (hrest : EndsValue rest) : EndsValue t := by
  obtain ⟨gap, rfl, hgap⟩ := h
  cases gap with
  | nil => exact hrest
  | cons p gap =>
    intro q hq
    obtain rfl := Option.some.inj hq
    exact .inr (hgap p List.mem_cons_self)

end Gap

/-! ## Texts -/

/-- The parts of a text up to its closing quote, and what follows it. -/
inductive Quoted : Text → List Piece → Text → Prop
  | close (rest : Text) : Quoted (.char '"' :: rest) [] rest
  | plain {p : CodePoint} {t rest : Text} {pieces : List Piece} (hquote : p ≠ .char '"')
      (hslash : p ≠ .char '\\') (hcontrol : p.isIn (· < ' ') = false)
      (h : Quoted t pieces rest) : Quoted (p :: t) (.point p :: pieces) rest
  | letter {p : CodePoint} {c : Char} {t rest : Text} {pieces : List Piece}
      (hletter : shortEscape? p = some c) (h : Quoted t pieces rest) :
      Quoted (.char '\\' :: p :: t) (.point (.char c) :: pieces) rest
  | unit {a b c d : CodePoint} {n : Nat} {t rest : Text} {pieces : List Piece}
      (hdigits : fourHex? a b c d = some n) (h : Quoted t pieces rest) :
      Quoted (.char '\\' :: .char 'u' :: a :: b :: c :: d :: t) (.unit n :: pieces) rest

section Quoted

variable {opened : Nat} {t rest : Text} {pieces : List Piece}

theorem Quoted.suffix (h : Quoted t pieces rest) : rest <:+ t := by
  induction h with
  | close rest => exact List.suffix_cons _ rest
  | plain _ _ _ _ ih => exact ih.trans (List.suffix_cons _ _)
  | letter _ _ ih => exact ih.trans ((List.suffix_cons _ _).trans (List.suffix_cons _ _))
  | @unit a b c d _ t _ _ _ _ ih => exact ih.trans (List.suffix_append [_, _, a, b, c, d] t)

theorem Quoted.length_lt (h : Quoted t pieces rest) : rest.length < t.length := by
  induction h with
  | close rest => exact Nat.lt_succ_self _
  | plain _ _ _ _ ih => exact Nat.lt_succ_of_lt ih
  | letter _ _ ih => exact Nat.lt_succ_of_lt (Nat.lt_succ_of_lt ih)
  | unit _ _ ih =>
    simp only [List.length_cons]
    omega

theorem quoted_of_readPieces (h : readPieces opened t = .ok (pieces, rest)) :
    Quoted t pieces rest := by
  fun_induction readPieces generalizing pieces rest with
  | case1 | case4 | case5 | case7 | case8 | case9 => cases h
  | case2 t =>
    cases h
    exact .close t
  | case3 a b c d e t n hn ih =>
    obtain ⟨⟨ps, r⟩, hread, heq⟩ := map_eq_ok_iff.mp h
    cases heq
    exact .unit hn (ih hread)
  | case6 letter t _ _ c hc ih =>
    obtain ⟨⟨ps, r⟩, hread, heq⟩ := map_eq_ok_iff.mp h
    cases heq
    exact .letter hc (ih hread)
  | case10 p t hquote hunit hescape hslash hlast hcontrol ih =>
    obtain ⟨⟨ps, r⟩, hread, heq⟩ := map_eq_ok_iff.mp h
    cases heq
    have hslash : p ≠ .char '\\' := fun hp => by
      cases t with
      | nil => exact hlast hp rfl
      | cons letter rest => exact hslash letter rest hp rfl
    exact .plain hquote hslash (Bool.eq_false_iff.mpr hcontrol) (ih hread)

theorem Quoted.readPieces (h : Quoted t pieces rest) (opened : Nat) :
    readPieces opened t = .ok (pieces, rest) := by
  induction h with
  | close rest => rfl
  | plain hquote hslash hcontrol _ ih =>
    rw [Json.readPieces, hcontrol, ih]
    · rfl
    all_goals simp [hquote, hslash]
  | @letter p c _ _ _ hletter _ ih =>
    have hunit : p ≠ .char 'u' := fun heq => by
      subst heq
      cases hletter
    rw [Json.readPieces, hletter, ih]
    · rfl
    · exact fun _ _ _ _ _ _ heq => absurd heq hunit
    · exact hunit
  | @unit a b c d n t rest pieces hdigits h ih =>
    -- Something always follows the digits, since the quotes are closed.
    have hne : t ≠ [] := fun hnil => by
      have hlt := h.length_lt
      rw [hnil] at hlt
      exact Nat.not_lt_zero _ hlt
    obtain ⟨e, t, rfl⟩ := List.exists_cons_of_ne_nil hne
    rw [Json.readPieces, hdigits]
    dsimp only
    rw [ih]
    rfl

theorem readText_eq_ok_iff {s : Text} :
    readText t = .ok (s, rest) ↔ ∃ pieces, Quoted t pieces rest ∧ s = joinPieces pieces := by
  constructor
  · intro h
    obtain ⟨⟨pieces, r⟩, hread, heq⟩ := map_eq_ok_iff.mp h
    cases heq
    exact ⟨pieces, quoted_of_readPieces hread, rfl⟩
  · rintro ⟨pieces, h, rfl⟩
    rw [readText, h.readPieces]
    rfl

end Quoted

/-! ## Numbers -/

/-- A point and the digits behind it, if there are any. -/
def fractionText (fraction : List Char) : Text :=
  if fraction = [] then [] else .char '.' :: Text.ofChars fraction

/-- The text of an exponent. -/
inductive Exponent : Text → Int → Prop
  | plus {mark : Char} {sign : Text} {digits : List Char} (hmark : mark = 'e' ∨ mark = 'E')
      (hsign : sign = [] ∨ sign = [.char '+']) (h : Digits digits) :
      Exponent (.char mark :: (sign ++ Text.ofChars digits)) (digitsValue digits)
  | minus {mark : Char} {digits : List Char} (hmark : mark = 'e' ∨ mark = 'E')
      (h : Digits digits) :
      Exponent (.char mark :: .char '-' :: Text.ofChars digits) (-(digitsValue digits : Int))

/-- The text of a number: a whole number, which is an integer unless a
fraction or an exponent follows. -/
inductive Numeral : Text → Value → Prop
  | integer (negative : Bool) {whole : List Char} (hwhole : Whole whole) :
      Numeral (signText negative ++ Text.ofChars whole)
        (.int (if negative then -(digitsValue whole : Int) else digitsValue whole))
  | decimal (negative : Bool) {whole fraction : List Char} (hwhole : Whole whole)
      (hfraction : Digits fraction) :
      Numeral (signText negative ++ (Text.ofChars whole ++ fractionText fraction))
        (.float (Double.ofDecimal negative (digitsValue (whole ++ fraction))
          (-(fraction.length : Int))))
  | power (negative : Bool) {whole fraction : List Char} {exponent : Text} {e : Int}
      (hwhole : Whole whole) (hfraction : fraction = [] ∨ Digits fraction)
      (hexponent : Exponent exponent e) :
      Numeral (signText negative ++ (Text.ofChars whole ++ (fractionText fraction ++ exponent)))
        (.float (Double.ofDecimal negative (digitsValue (whole ++ fraction))
          (e - fraction.length)))

section Numbers

variable {t rest : Text} {ds : List Char}

theorem minusSign_eq (t : Text) : t = signText (minusSign t).1 ++ (minusSign t).2 := by
  unfold minusSign
  split <;> rfl

theorem spanDigits_eq (t : Text) :
    t = Text.ofChars (spanDigits t).1 ++ (spanDigits t).2
      ∧ ∀ c ∈ (spanDigits t).1, isDigit c = true := by
  fun_induction spanDigits t with
  | case1 c rest hc digits r hspan ih =>
    rw [hspan] at ih
    obtain ⟨hrest, hall⟩ := ih
    exact ⟨congrArg (CodePoint.char c :: ·) hrest, List.forall_mem_cons.mpr ⟨hc, hall⟩⟩
  | case2 | case3 => exact ⟨rfl, fun _ hc => absurd hc List.not_mem_nil⟩

theorem digits_of_spanDigits (h : spanDigits t = (ds, rest)) (hne : ds ≠ []) :
    t = Text.ofChars ds ++ rest ∧ Digits ds := by
  have hspan := spanDigits_eq t
  rw [h] at hspan
  exact ⟨hspan.1, hne, hspan.2⟩

theorem whole_of_wholePart? (h : wholePart? t = some (ds, rest)) :
    t = Text.ofChars ds ++ rest ∧ Whole ds := by
  unfold wholePart? at h
  split at h
  · cases h
    exact ⟨rfl, ⟨List.cons_ne_nil _ _, by simp [isDigit]⟩, fun _ => rfl⟩
  · rename_i hzero
    split at h
    · cases h
    · rename_i hne
      have hspan := Option.some.inj h
      obtain ⟨rfl, hdigits⟩ := digits_of_spanDigits hspan fun hnil => hne rest (by rw [hspan, hnil])
      refine ⟨rfl, hdigits, fun hhead => ?_⟩
      obtain ⟨more, rfl⟩ := List.head?_eq_some_iff.mp hhead
      exact absurd rfl (hzero (Text.ofChars more ++ rest))

theorem fraction_of_fraction? (t : Text) :
    t = fractionText ((fraction? t).getD ([], t)).1 ++ ((fraction? t).getD ([], t)).2
      ∧ (((fraction? t).getD ([], t)).1 = [] ∨ Digits ((fraction? t).getD ([], t)).1) := by
  unfold fraction?
  split
  · rename_i rest
    split
    · exact ⟨rfl, .inl rfl⟩
    · rename_i hne
      obtain ⟨hrest, hdigits⟩ := digits_of_spanDigits (t := rest) rfl fun hnil =>
        hne (spanDigits rest).2 (by rw [← hnil])
      refine ⟨?_, .inr hdigits⟩
      rw [Option.getD_some, fractionText, if_neg hdigits.ne_nil]
      exact congrArg (CodePoint.char '.' :: ·) hrest
  · exact ⟨rfl, .inl rfl⟩

theorem exponentSign_eq (t : Text) :
    ∃ sign, t = sign ++ (exponentSign t).2
      ∧ if (exponentSign t).1 then sign = [.char '-'] else sign = [] ∨ sign = [.char '+'] := by
  unfold exponentSign
  split
  · exact ⟨[.char '-'], rfl, rfl⟩
  · exact ⟨[.char '+'], rfl, .inr rfl⟩
  · exact ⟨[], rfl, .inl rfl⟩

theorem exponent_of_exponent? {e : Int} (h : exponent? t = some (e, rest)) :
    ∃ exponent, t = exponent ++ rest ∧ Exponent exponent e := by
  unfold exponent? at h
  split at h
  · rename_i p tail
    split_ifs at h with hp
    obtain ⟨mark, rfl, hmark⟩ : ∃ mark : Char, p = .char mark ∧ (mark = 'e' ∨ mark = 'E') := by
      rcases hp with rfl | rfl
      · exact ⟨'e', rfl, .inl rfl⟩
      · exact ⟨'E', rfl, .inr rfl⟩
    obtain ⟨sign, htail, hsign⟩ := exponentSign_eq tail
    dsimp only at h
    split at h
    · cases h
    · rename_i digits r hne hspan
      cases h
      obtain ⟨hbody, hdigits⟩ := digits_of_spanDigits hspan hne
      rw [hbody] at htail
      generalize (exponentSign tail).1 = negative at hsign ⊢
      rw [htail]
      refine ⟨.char mark :: (sign ++ Text.ofChars digits), by simp, ?_⟩
      cases negative with
      | true =>
        obtain rfl : sign = [.char '-'] := hsign
        exact .minus hmark hdigits
      | false => exact .plus hmark hsign hdigits
  · cases h

theorem numeral_of_readNumber {v : Value} (h : readNumber t = .ok (v, rest)) :
    ∃ number, t = number ++ rest ∧ Numeral number v := by
  have hsign := minusSign_eq t
  unfold readNumber at h
  dsimp only at h
  split at h
  · cases h
  · rename_i whole behind hbody
    obtain ⟨hbody, hwhole⟩ := whole_of_wholePart? hbody
    obtain ⟨hbehind, hfraction⟩ := fraction_of_fraction? behind
    generalize (minusSign t).1 = negative at h hsign
    generalize (fraction? behind).getD ([], behind) = found at h hbehind hfraction
    obtain ⟨fraction, after⟩ := found
    rw [hsign, hbody, hbehind]
    split at h
    · rename_i e r hexponent
      cases h
      obtain ⟨exponent, hafter, hexponent⟩ := exponent_of_exponent? hexponent
      rw [hafter]
      exact ⟨_, by simp only [List.append_assoc], .power negative hwhole hfraction hexponent⟩
    · dsimp only at h
      split at h
      · split at h
        · cases h
        · cases h
          exact ⟨_, by simp [fractionText], .integer negative hwhole⟩
      · rename_i hne
        cases h
        exact ⟨_, by simp only [List.append_assoc],
          .decimal negative hwhole (hfraction.resolve_left hne)⟩

end Numbers

/-! ## Values -/

mutual

/-- A text starts with a spelling of the value, and the rest follows. -/
inductive Spells : Text → Value → Text → Prop
  | word {name : String} {v : Value} (hword : (name, v) ∈ words) (rest : Text) :
      Spells (Text.ofString name ++ rest) v rest
  | number {number : Text} {v : Value} (hnumber : Numeral number v) (rest : Text) :
      Spells (number ++ rest) v rest
  | text {t rest : Text} {pieces : List Piece} (hquoted : Quoted t pieces rest) :
      Spells (.char '"' :: t) (.text (joinPieces pieces)) rest
  | noItems {t rest : Text} (hclose : Gap t (.char ']' :: rest)) :
      Spells (.char '[' :: t) (.array []) rest
  | array {t first rest : Text} {items : List Value} (hgap : Gap t first)
      (hitems : SpellsItems first items rest) : Spells (.char '[' :: t) (.array items) rest
  | noFields {t rest : Text} (hclose : Gap t (.char '\x7d' :: rest)) :
      Spells (.char '\x7b' :: t) (.object []) rest
  | object {t first rest : Text} {fields : List (Scalar × Value)} (hgap : Gap t first)
      (hfields : SpellsFields first fields rest) :
      Spells (.char '\x7b' :: t) (.object (Keyed.ofPairs fields)) rest

/-- A text starts with the items of an array up to its closing bracket,
and the rest follows. -/
inductive SpellsItems : Text → List Value → Text → Prop
  | last {t after rest : Text} {item : Value} (hitem : Spells t item after)
      (hclose : Gap after (.char ']' :: rest)) : SpellsItems t [item] rest
  | more {t after behind next rest : Text} {item : Value} {items : List Value}
      (hitem : Spells t item after) (hcomma : Gap after (.char ',' :: behind))
      (hgap : Gap behind next) (hitems : SpellsItems next items rest) :
      SpellsItems t (item :: items) rest

/-- A text starts with the fields of an object up to its closing brace,
and the rest follows. -/
inductive SpellsFields : Text → List (Scalar × Value) → Text → Prop
  | last {t after rest name : Text} {v : Value} (hfield : SpellsField t name v after)
      (hclose : Gap after (.char '\x7d' :: rest)) : SpellsFields t [(.text name, v)] rest
  | more {t after behind next rest name : Text} {v : Value} {fields : List (Scalar × Value)}
      (hfield : SpellsField t name v after) (hcomma : Gap after (.char ',' :: behind))
      (hgap : Gap behind next) (hfields : SpellsFields next fields rest) :
      SpellsFields t ((.text name, v) :: fields) rest

/-- A text starts with a field, its name, a colon and its value, and the
rest follows. -/
inductive SpellsField : Text → Text → Value → Text → Prop
  | mk {t after behind value rest : Text} {pieces : List Piece} {v : Value}
      (hname : Quoted t pieces after) (hcolon : Gap after (.char ':' :: behind))
      (hgap : Gap behind value) (hvalue : Spells value v rest) :
      SpellsField (.char '"' :: t) (joinPieces pieces) v rest

end

/-- The text is a document of the value: a spelling of it and white space
around it. -/
def Document (t : Text) (v : Value) : Prop :=
  ∃ first rest, Gap t first ∧ Spells first v rest ∧ Gap rest []

/-! ## What is left -/

/-- The rest is an end of the text and not all of it. -/
def EndOf (rest t : Text) : Prop :=
  rest <:+ t ∧ rest.length < t.length

section EndOf

variable {t after rest : Text} {p : CodePoint}

theorem EndOf.of_suffix (h : EndOf after t) (hrest : rest <:+ after) : EndOf rest t :=
  ⟨hrest.trans h.1, Nat.lt_of_le_of_lt hrest.length_le h.2⟩

theorem endOf_cons (h : rest <:+ t) : EndOf rest (p :: t) :=
  ⟨h.trans (List.suffix_cons p t), Nat.lt_succ_of_le h.length_le⟩

theorem endOf_append (hne : t ≠ []) : EndOf rest (t ++ rest) :=
  ⟨List.suffix_append t rest, by
    have := List.length_pos_of_ne_nil hne
    rw [List.length_append]
    omega⟩

/-- Behind a mark, and white space before it, less is left. -/
theorem EndOf.behind (h : EndOf after t) (hgap : Gap after (p :: rest)) : EndOf rest t :=
  h.of_suffix ((List.suffix_cons p rest).trans hgap.suffix)

end EndOf

theorem ofString_ne_nil_of_mem_words {name : String} {v : Value} (h : (name, v) ∈ words) :
    Text.ofString name ≠ [] := by
  have hall : ∀ w ∈ words, Text.ofString w.1 ≠ [] := by decide
  exact hall _ h

theorem Numeral.opensNumber {number : Text} {v : Value} (h : Numeral number v) :
    OpensNumber number := by
  cases h with
  | integer negative hwhole =>
    have hopens := hwhole.opensNumber negative []
    rwa [List.append_nil] at hopens
  | decimal negative hwhole _ => exact hwhole.opensNumber negative _
  | power negative hwhole _ _ => exact hwhole.opensNumber negative _

mutual

theorem Spells.endOf {t rest : Text} {v : Value} : Spells t v rest → EndOf rest t
  | .word hword rest => endOf_append (ofString_ne_nil_of_mem_words hword)
  | .number hnumber rest => endOf_append fun hnil => by
    obtain ⟨c, r, -, rfl | rfl⟩ := hnumber.opensNumber <;> cases hnil
  | .text hquoted => endOf_cons hquoted.suffix
  | .noItems hclose => endOf_cons ((List.suffix_cons _ _).trans hclose.suffix)
  | .array hgap hitems => endOf_cons (hitems.endOf.1.trans hgap.suffix)
  | .noFields hclose => endOf_cons ((List.suffix_cons _ _).trans hclose.suffix)
  | .object hgap hfields => endOf_cons (hfields.endOf.1.trans hgap.suffix)

theorem SpellsItems.endOf {t rest : Text} {items : List Value} :
    SpellsItems t items rest → EndOf rest t
  | .last hitem hclose => hitem.endOf.behind hclose
  | .more hitem hcomma hgap hitems =>
    (hitem.endOf.behind hcomma).of_suffix (hitems.endOf.1.trans hgap.suffix)

theorem SpellsFields.endOf {t rest : Text} {fields : List (Scalar × Value)} :
    SpellsFields t fields rest → EndOf rest t
  | .last hfield hclose => hfield.endOf.behind hclose
  | .more hfield hcomma hgap hfields =>
    (hfield.endOf.behind hcomma).of_suffix (hfields.endOf.1.trans hgap.suffix)

theorem SpellsField.endOf {t name rest : Text} {v : Value} :
    SpellsField t name v rest → EndOf rest t
  | .mk hname hcolon hgap hvalue =>
    ((endOf_cons hname.suffix).behind hcolon).of_suffix (hvalue.endOf.1.trans hgap.suffix)

end

/-- The items of an array are closed. -/
theorem SpellsItems.closing_mem {t rest : Text} {items : List Value} :
    SpellsItems t items rest → .char ']' ∈ t
  | .last hitem hclose => hitem.endOf.1.subset (hclose.suffix.subset List.mem_cons_self)
  | .more hitem hcomma hgap hitems =>
    (hitem.endOf.behind hcomma).1.subset (hgap.suffix.subset hitems.closing_mem)

/-! ## What is read is spelled -/

theorem afterWord?_eq_some_iff {word : List Char} {t rest : Text} :
    afterWord? word t = some rest ↔ t = Text.ofChars word ++ rest := by
  induction word generalizing t with
  | nil => simp [afterWord?, Text.ofChars]
  | cons c word ih =>
    have hcons : Text.ofChars (c :: word) ++ rest = .char c :: (Text.ofChars word ++ rest) := rfl
    cases t with
    | nil => simp [afterWord?, hcons]
    | cons p t =>
      rw [afterWord?, hcons, List.cons.injEq]
      by_cases hp : p = .char c <;> simp [hp, ih]

theorem spells_of_word? {t rest : Text} {v : Value} (h : word? t = some (v, rest)) :
    Spells t v rest := by
  obtain ⟨⟨name, w⟩, hmem, hword⟩ := List.exists_of_findSome?_eq_some h
  obtain ⟨r, hafter, heq⟩ := Option.map_eq_some_iff.mp hword
  cases heq
  obtain rfl := afterWord?_eq_some_iff.mp hafter
  exact .word hmem _

theorem spells_of_readNumber {t rest : Text} {v : Value} (h : readNumber t = .ok (v, rest)) :
    Spells t v rest := by
  obtain ⟨number, rfl, hnumber⟩ := numeral_of_readNumber h
  exact .number hnumber rest

/-- With this fuel, what the readers read is spelled. -/
structure ReadersSpell (fuel : Nat) : Prop where
  value : ∀ {room t v rest}, readValue fuel room t = .ok (v, rest) → Spells t v rest
  items : ∀ {room t items rest}, readItems fuel room t = .ok (items, rest) →
    SpellsItems t items rest
  fields : ∀ {room t fields rest}, readFields fuel room t = .ok (fields, rest) →
    SpellsFields t fields rest

namespace ReadersSpell

variable {fuel room : Nat} {t rest : Text}

theorem value_succ (ih : ReadersSpell fuel) {v : Value}
    (h : readValue (fuel + 1) room t = .ok (v, rest)) : Spells t v rest := by
  unfold readValue at h
  split at h
  · -- a text
    obtain ⟨⟨s, r⟩, hs, heq⟩ := map_eq_ok_iff.mp h
    cases heq
    obtain ⟨pieces, hquoted, rfl⟩ := readText_eq_ok_iff.mp hs
    exact .text hquoted
  · -- an array
    split at h
    · cases h
    · split at h
      · rename_i hclose
        cases h
        exact .noItems (gap_of_skipGap_eq hclose)
      · obtain ⟨⟨items, r⟩, hitems, heq⟩ := map_eq_ok_iff.mp h
        cases heq
        exact .array (gap_skipGap _) (ih.items hitems)
  · -- an object
    split at h
    · cases h
    · split at h
      · rename_i hclose
        cases h
        exact .noFields (gap_of_skipGap_eq hclose)
      · obtain ⟨⟨fields, r⟩, hfields, heq⟩ := map_eq_ok_iff.mp h
        cases heq
        exact .object (gap_skipGap _) (ih.fields hfields)
  · -- a word or a number
    split at h
    · rename_i hword
      cases h
      exact spells_of_word? hword
    · exact spells_of_readNumber h

theorem items_succ (ih : ReadersSpell fuel) {items : List Value}
    (h : readItems (fuel + 1) room t = .ok (items, rest)) : SpellsItems t items rest := by
  unfold readItems at h
  split at h
  · cases h
  · rename_i hitem
    have hitem := ih.value hitem
    split at h
    · rename_i hclose
      cases h
      exact .last hitem (gap_of_skipGap_eq hclose)
    · rename_i hcomma
      obtain ⟨⟨more, r⟩, hmore, heq⟩ := map_eq_ok_iff.mp h
      cases heq
      exact .more hitem (gap_of_skipGap_eq hcomma) (gap_skipGap _) (ih.items hmore)
    · cases h

theorem fields_succ (ih : ReadersSpell fuel) {fields : List (Scalar × Value)}
    (h : readFields (fuel + 1) room t = .ok (fields, rest)) : SpellsFields t fields rest := by
  unfold readFields at h
  split at h
  case h_2 => cases h
  split at h
  · cases h
  rename_i hname
  obtain ⟨pieces, hquoted, rfl⟩ := readText_eq_ok_iff.mp hname
  split at h
  case h_2 => cases h
  rename_i hcolon
  split at h
  · cases h
  rename_i hvalue
  have hfield := SpellsField.mk hquoted (gap_of_skipGap_eq hcolon) (gap_skipGap _)
    (ih.value hvalue)
  dsimp only at h
  split at h
  · rename_i hclose
    cases h
    exact .last hfield (gap_of_skipGap_eq hclose)
  · rename_i hcomma
    obtain ⟨⟨more, r⟩, hmore, heq⟩ := map_eq_ok_iff.mp h
    cases heq
    exact .more hfield (gap_of_skipGap_eq hcomma) (gap_skipGap _) (ih.fields hmore)
  · cases h

end ReadersSpell

/-- Whatever their fuel, what the readers read is spelled. -/
theorem readersSpell (fuel : Nat) : ReadersSpell fuel := by
  induction fuel with
  | zero =>
    refine ⟨fun h => ?_, fun h => ?_, fun h => ?_⟩
    · rw [readValue] at h
      cases h
    · rw [readItems] at h
      cases h
    · rw [readFields] at h
      cases h
  | succ fuel ih => exact ⟨ih.value_succ, ih.items_succ, ih.fields_succ⟩

/-- A document that is read is one of the value that it is read as. -/
theorem document_of_readWithin {room : Nat} {t : Text} {v : Value}
    (h : readWithin room t = .ok v) : Document t v := by
  unfold readWithin readDocument at h
  split at h
  · rename_i hread
    cases h
    split at hread
    · cases hread
    · split at hread
      · cases hread
      · rename_i hvalue
        split at hread
        · rename_i hend
          cases hread
          exact ⟨_, _, gap_skipGap _, (readersSpell _).value hvalue, gap_of_skipGap_eq hend⟩
        · cases hread
  · cases h

end Lineage.Json
