/-
Lineage.Proofs.Json.Limits — the reader fails on a document at its limits
alone.

The reader knows two limits that the grammar does not know: how many
digits an integer has, and how many arrays and objects stand within one
another.  A document is read as its value unless one of them is met
(`readWithin_of_document`), so reading succeeds on the documents that meet
no limit, and refuses for its grammar what meets none and is no document
(`readWithin_eq_ok_iff`, `exists_grammar_iff`).  Where a limit is met the text
shows it: it holds a long run of digits, or more opening brackets than
there is room for (`Cause.Explained`, `Limit.explained`).
-/
import Lineage.Proofs.Json.Grammar
import Lineage.Proofs.Json.RoundTrip

namespace Lineage.Json

variable {α β : Type}

/-! ## Readings up to the limits -/

/-- The reading comes to this, unless it meets a limit. -/
def ComesTo (x : Except Stop α) (a : α) : Prop :=
  x = .ok a ∨ ∃ stop, x = .error stop ∧ stop.cause.kind ≠ .grammar

theorem ComesTo.map {x : Except Stop α} {a : α} (h : ComesTo x a) (f : α → β) :
    ComesTo (x.map f) (f a) := by
  rcases h with rfl | ⟨stop, rfl, hstop⟩
  · exact .inl rfl
  · exact .inr ⟨stop, rfl, hstop⟩

/-- A reading that goes on with what the first one comes to. -/
theorem ComesTo.next {x : Except Stop α} {a : α} (h : ComesTo x a) {y : Except Stop β} {b : β}
    (hok : x = .ok a → ComesTo y b) (herror : ∀ stop, x = .error stop → y = .error stop) :
    ComesTo y b := by
  rcases h with hx | ⟨stop, hx, hstop⟩
  · exact hok hx
  · exact .inr ⟨stop, herror stop hx, hstop⟩

theorem comesTo_nesting {object : Bool} {left : Nat} {a : α} :
    ComesTo (.error ⟨.nesting object, left⟩) a :=
  .inr ⟨_, rfl, by simp [Cause.kind]⟩

/-! ## Numbers -/

/-- What may follow the digits of a fraction, or of a whole number without
one. -/
structure EndsFraction (t : Text) : Prop where
  noDigit : NoDigit t
  noPoint : t.head? ≠ some (.char '.')

theorem EndsValue.endsFraction {rest : Text} (h : EndsValue rest) : EndsFraction rest := by
  refine ⟨h.noDigit, fun hpoint => ?_⟩
  obtain ⟨rest, rfl⟩ := List.head?_eq_some_iff.mp hpoint
  exact h.notNumber.2.1 rfl

section Numbers

variable {t body rest after number : Text} {whole fraction : List Char} {negative : Bool}

theorem Exponent.endsFraction {exponent : Text} {e : Int} (h : Exponent exponent e)
    (rest : Text) : EndsFraction (exponent ++ rest) := by
  have hmark {mark : Char} (hmark : mark = 'e' ∨ mark = 'E') (t : Text) :
      EndsFraction (.char mark :: t) := by
    refine ⟨fun p hp => ?_, ?_⟩
    · obtain rfl := Option.some.inj hp
      rcases hmark with rfl | rfl <;> decide
    · rcases hmark with rfl | rfl <;> simp
  cases h with
  | plus h _ _ => exact hmark h _
  | minus h _ => exact hmark h _

theorem Exponent.exponent?_append {exponent : Text} {e : Int} (h : Exponent exponent e)
    (hrest : NoDigit rest) : exponent? (exponent ++ rest) = some (e, rest) := by
  have hread (negative : Bool) {mark : Char} (hmark : mark = 'e' ∨ mark = 'E') {t : Text}
      {digits : List Char} (hdigits : Digits digits)
      (hsign : exponentSign t = (negative, Text.ofChars digits ++ rest)) :
      exponent? (.char mark :: t)
        = some (if negative then -(digitsValue digits : Int) else digitsValue digits, rest) := by
    have hmarked : CodePoint.char mark = .char 'e' ∨ CodePoint.char mark = .char 'E' := by
      rcases hmark with rfl | rfl
      · exact .inl rfl
      · exact .inr rfl
    rw [exponent?, if_pos hmarked, hsign]
    dsimp only
    rw [spanDigits_append hdigits.digit hrest]
    split
    · rename_i heq
      exact absurd (Prod.mk.inj heq).1 hdigits.ne_nil
    · rename_i heq
      cases heq
      rfl
  cases h with
  | @plus mark sign digits hmark hsign hdigits =>
    have hplain : exponentSign (sign ++ (Text.ofChars digits ++ rest))
        = (false, Text.ofChars digits ++ rest) := by
      rcases hsign with rfl | rfl
      · obtain ⟨c, t, ht, hminus, hplus⟩ := hdigits.head_ne rest
        rw [List.nil_append, ht]
        simp [exponentSign, hminus, hplus]
      · rfl
    rw [List.cons_append, List.append_assoc]
    exact hread false hmark hdigits hplain
  | minus hmark hdigits => exact hread true hmark hdigits rfl

theorem fraction?_append (hfraction : fraction = [] ∨ Digits fraction)
    (hrest : EndsFraction rest) :
    (fraction? (fractionText fraction ++ rest)).getD ([], fractionText fraction ++ rest)
      = (fraction, rest) := by
  rcases hfraction with rfl | hdigits
  · have hnone : fraction? rest = none := by
      rw [fraction?]
      rintro t rfl
      exact hrest.noPoint rfl
    change (fraction? rest).getD ([], rest) = _
    rw [hnone]
    rfl
  · have hspan := spanDigits_append hdigits.digit hrest.noDigit
    have hsome : fraction? (.char '.' :: (Text.ofChars fraction ++ rest))
        = some (fraction, rest) := by
      rw [fraction?, hspan]
      split
      · rename_i heq
        exact absurd (Prod.mk.inj heq).1 hdigits.ne_nil
      · rfl
    rw [fractionText, if_neg hdigits.ne_nil, List.cons_append, hsome]
    rfl

theorem noDigit_fractionText (hrest : NoDigit rest) : NoDigit (fractionText fraction ++ rest) := by
  unfold fractionText
  split
  · exact hrest
  · intro p hp
    obtain rfl := Option.some.inj hp
    decide

/-- A number with a fraction is read as a double. -/
theorem readNumber_fraction (negative : Bool) (hwhole : Whole whole) (hfraction : Digits fraction)
    (hrest : EndsValue rest) :
    readNumber (signText negative ++ (Text.ofChars whole ++ (fractionText fraction ++ rest)))
      = .ok (.float (Double.ofDecimal negative (digitsValue (whole ++ fraction))
          (-(fraction.length : Int))), rest) := by
  have hfound := fraction?_append (.inr hfraction) hrest.endsFraction
  unfold readNumber
  rw [minusSign_append negative hwhole]
  dsimp only
  rw [hwhole.wholePart? (noDigit_fractionText hrest.noDigit)]
  dsimp only
  rw [hfound]
  dsimp only
  rw [exponent?_of_endsValue hrest]
  obtain ⟨c, ds, rfl⟩ := List.exists_cons_of_ne_nil hfraction.ne_nil
  rfl

/-- A number with an exponent is read as a double. -/
theorem readNumber_power (negative : Bool) {exponent : Text} {e : Int} (hwhole : Whole whole)
    (hfraction : fraction = [] ∨ Digits fraction) (hexponent : Exponent exponent e)
    (hrest : EndsValue rest) :
    readNumber (signText negative
        ++ (Text.ofChars whole ++ (fractionText fraction ++ (exponent ++ rest))))
      = .ok (.float (Double.ofDecimal negative (digitsValue (whole ++ fraction))
          (e - fraction.length)), rest) := by
  have hends := hexponent.endsFraction rest
  unfold readNumber
  rw [minusSign_append negative hwhole]
  dsimp only
  rw [hwhole.wholePart? (noDigit_fractionText hends.noDigit)]
  dsimp only
  rw [fraction?_append hfraction hends]
  dsimp only
  rw [hexponent.exponent?_append hrest.noDigit]

theorem Numeral.comesTo {v : Value} (h : Numeral number v) (hrest : EndsValue rest) :
    ComesTo (readNumber (number ++ rest)) (v, rest) := by
  cases h with
  | integer negative hwhole =>
    rw [List.append_assoc, readNumber_integer negative hwhole hrest]
    split
    · exact .inr ⟨_, rfl, by simp [Cause.kind]⟩
    · exact .inl rfl
  | decimal negative hwhole hfraction =>
    rw [List.append_assoc, List.append_assoc]
    exact .inl (readNumber_fraction negative hwhole hfraction hrest)
  | power negative hwhole hfraction hexponent =>
    rw [List.append_assoc, List.append_assoc, List.append_assoc]
    exact .inl (readNumber_power negative hwhole hfraction hexponent hrest)

end Numbers

/-! ## Values -/

theorem readValue_word {name : String} {v : Value} (h : (name, v) ∈ words) (fuel room : Nat)
    (rest : Text) : readValue (fuel + 1) room (Text.ofString name ++ rest) = .ok (v, rest) := by
  simp only [words, List.mem_cons, List.not_mem_nil, or_false, Prod.mk.injEq] at h
  rcases h with ⟨rfl, rfl⟩ | ⟨rfl, rfl⟩ | ⟨rfl, rfl⟩ | ⟨rfl, rfl⟩ | ⟨rfl, rfl⟩ | ⟨rfl, rfl⟩
  · exact readValue_plain (c := 'n') (by decide) _
  · exact readValue_plain (c := 't') (by decide) _
  · exact readValue_plain (c := 'f') (by decide) _
  · exact readValue_plain (c := 'N') (by decide) _
  · exact readValue_plain (c := 'I') (by decide) _
  · exact readValue_plain (c := '-') (by decide) _

theorem opensValue_word {name : String} {v : Value} (h : (name, v) ∈ words) (rest : Text) :
    OpensValue (Text.ofString name ++ rest) := by
  simp only [words, List.mem_cons, List.not_mem_nil, or_false, Prod.mk.injEq] at h
  rcases h with ⟨rfl, -⟩ | ⟨rfl, -⟩ | ⟨rfl, -⟩ | ⟨rfl, -⟩ | ⟨rfl, -⟩ | ⟨rfl, -⟩
  · exact ⟨'n', _, rfl, by decide⟩
  · exact ⟨'t', _, rfl, by decide⟩
  · exact ⟨'f', _, rfl, by decide⟩
  · exact ⟨'N', _, rfl, by decide⟩
  · exact ⟨'I', _, rfl, by decide⟩
  · exact ⟨'-', _, rfl, by decide⟩

section Opens

variable {t rest : Text}

theorem Spells.opensValue {v : Value} (h : Spells t v rest) : OpensValue t := by
  cases h with
  | word hword => exact opensValue_word hword rest
  | number hnumber => exact hnumber.opensNumber.opensValue.append rest
  | text | noItems | array | noFields | object => exact ⟨_, _, rfl, by decide⟩

theorem SpellsItems.opensValue {items : List Value} (h : SpellsItems t items rest) :
    OpensValue t := by
  cases h with
  | last hitem _ | more hitem _ _ _ => exact hitem.opensValue

theorem SpellsFields.opensValue {fields : List (Scalar × Value)}
    (h : SpellsFields t fields rest) : OpensValue t := by
  cases h with
  | last hfield _ | more hfield _ _ _ =>
    cases hfield with
    | mk => exact ⟨'"', _, rfl, by decide⟩

theorem endsValue_cons {c : Char} (h : c = ',' ∨ c = ']' ∨ c = '\x7d') :
    EndsValue (.char c :: rest) := by
  intro p hp
  obtain rfl := Option.some.inj hp
  rcases h with rfl | rfl | rfl <;> exact .inl (by simp)

end Opens

/-- With this fuel, the readers recognise what is spelled; the fuel goes
down no faster than the text does. -/
structure ReadersRecognise (fuel : Nat) : Prop where
  value : ∀ {room t v rest}, Spells t v rest → EndsValue rest → t.length ≤ fuel + rest.length →
    ComesTo (readValue fuel room t) (v, rest)
  items : ∀ {room t items rest}, SpellsItems t items rest → t.length ≤ fuel + rest.length →
    ComesTo (readItems fuel room t) (items, rest)
  fields : ∀ {room t fields rest}, SpellsFields t fields rest → t.length ≤ fuel + rest.length →
    ComesTo (readFields fuel room t) (fields, rest)

namespace ReadersRecognise

variable {fuel room : Nat} {t rest : Text}

theorem value_succ (ih : ReadersRecognise fuel) {v : Value} (h : Spells t v rest)
    (hrest : EndsValue rest) (hfuel : t.length ≤ fuel + 1 + rest.length) :
    ComesTo (readValue (fuel + 1) room t) (v, rest) := by
  cases h with
  | word hword => exact .inl (readValue_word hword fuel room rest)
  | number hnumber =>
    rw [readValue_of_opensNumber (hnumber.opensNumber.append rest)]
    exact hnumber.comesTo hrest
  | text hquoted =>
    rw [readValue, readText_eq_ok_iff.mpr ⟨_, hquoted, rfl⟩]
    exact .inl rfl
  | noItems hclose =>
    cases room with
    | zero => exact comesTo_nesting
    | succ room =>
      rw [readValue, hclose.skipGap_eq_cons (by decide)]
      exact .inl rfl
  | array hgap hitems =>
    cases room with
    | zero => exact comesTo_nesting
    | succ room =>
      have hlength := hgap.suffix.length_le
      rw [readValue_array (hgap.skipGap_eq.trans hitems.opensValue.skipGap_eq) hitems.opensValue]
      refine (ih.items hitems ?_).map _
      rw [List.length_cons] at hfuel
      omega
  | noFields hclose =>
    cases room with
    | zero => exact comesTo_nesting
    | succ room =>
      rw [readValue, hclose.skipGap_eq_cons (by decide)]
      exact .inl rfl
  | object hgap hfields =>
    cases room with
    | zero => exact comesTo_nesting
    | succ room =>
      have hlength := hgap.suffix.length_le
      rw [readValue_object (hgap.skipGap_eq.trans hfields.opensValue.skipGap_eq)
        hfields.opensValue]
      refine (ih.fields hfields ?_).map _
      rw [List.length_cons] at hfuel
      omega

theorem items_succ (ih : ReadersRecognise fuel) {items : List Value}
    (h : SpellsItems t items rest) (hfuel : t.length ≤ fuel + 1 + rest.length) :
    ComesTo (readItems (fuel + 1) room t) (items, rest) := by
  have herror {stop : Stop} (h : readValue fuel room t = .error stop) :
      readItems (fuel + 1) room t = .error stop := by
    simp only [readItems, h]
  cases h with
  | @last _ after _ item hitem hclose =>
    have hlength : rest.length + 1 ≤ after.length := hclose.suffix.length_le
    refine (ih.value hitem (hclose.endsValue (endsValue_cons (by decide))) (by omega)).next
      (fun hok => ?_) fun _ => herror
    exact .inl (readItems_last hok (hclose.skipGap_eq_cons (by decide)))
  | @more _ after behind next _ item items hitem hcomma hgap hitems =>
    have hshort := hitem.endOf.2
    have hafter : behind.length + 1 ≤ after.length := hcomma.suffix.length_le
    have hbehind := hgap.suffix.length_le
    have hnext := hitems.endOf.2
    refine (ih.value hitem (hcomma.endsValue (endsValue_cons (by decide))) (by omega)).next
      (fun hok => ?_) fun _ => herror
    rw [readItems_more hok (hcomma.skipGap_eq_cons (by decide)), hgap.skipGap_eq,
      hitems.opensValue.skipGap_eq]
    exact (ih.items hitems (by omega)).map _

/-- A field is recognised; what is left behind it is shorter. -/
theorem field (ih : ReadersRecognise fuel) {name after : Text} {v : Value}
    (h : SpellsField t name v after) (hafter : EndsValue after)
    (hfuel : t.length ≤ fuel + 1 + after.length) (room : Nat) :
    ∃ quoted colon behind, t = .char '"' :: quoted ∧ readText quoted = .ok (name, colon)
      ∧ skipGap colon = .char ':' :: behind
      ∧ ComesTo (readValue fuel room (skipGap behind)) (v, after) := by
  cases h with
  | @mk quoted colon behind value _ pieces _ hname hcolon hgap hvalue =>
    have hshort := hname.length_lt
    have hbehind : behind.length + 1 ≤ colon.length := hcolon.suffix.length_le
    have hlength := hgap.suffix.length_le
    refine ⟨quoted, colon, behind, rfl, readText_eq_ok_iff.mpr ⟨pieces, hname, rfl⟩,
      hcolon.skipGap_eq_cons (by decide), ?_⟩
    rw [hgap.skipGap_eq, hvalue.opensValue.skipGap_eq]
    rw [List.length_cons] at hfuel
    exact ih.value hvalue hafter (by omega)

theorem fields_succ (ih : ReadersRecognise fuel) {fields : List (Scalar × Value)}
    (h : SpellsFields t fields rest) (hfuel : t.length ≤ fuel + 1 + rest.length) :
    ComesTo (readFields (fuel + 1) room t) (fields, rest) := by
  cases h with
  | @last _ after _ name v hfield hclose =>
    have hlength : rest.length + 1 ≤ after.length := hclose.suffix.length_le
    obtain ⟨quoted, colon, behind, rfl, hname, hcolon, hvalue⟩ :=
      ih.field hfield (hclose.endsValue (endsValue_cons (by decide))) (by omega) room
    refine hvalue.next (fun hok => ?_) fun stop herror => ?_
    · have hclose := hclose.skipGap_eq_cons (by decide)
      exact .inl (by simp only [readFields, hname, hcolon, hok, hclose])
    · simp only [readFields, hname, hcolon, herror]
  | @more _ after behind next _ name v fields hfield hcomma hgap hfields =>
    have hshort := hfield.endOf.2
    have hafter : behind.length + 1 ≤ after.length := hcomma.suffix.length_le
    have hbehind := hgap.suffix.length_le
    have hnext := hfields.endOf.2
    obtain ⟨quoted, colon, value, rfl, hname, hcolon, hvalue⟩ :=
      ih.field hfield (hcomma.endsValue (endsValue_cons (by decide))) (by omega) room
    refine hvalue.next (fun hok => ?_) fun stop herror => ?_
    · have hcomma := hcomma.skipGap_eq_cons (by decide)
      have hread : ComesTo (readFields fuel room next) (fields, rest) :=
        ih.fields hfields (by omega)
      simp only [readFields, hname, hcolon, hok, hcomma, hgap.skipGap_eq,
        hfields.opensValue.skipGap_eq]
      exact hread.map _
    · simp only [readFields, hname, hcolon, herror]

end ReadersRecognise

/-- Whatever their fuel, the readers recognise what is spelled. -/
theorem readersRecognise (fuel : Nat) : ReadersRecognise fuel := by
  induction fuel with
  | zero =>
    -- Without fuel nothing is read, but what is spelled is never empty.
    refine ⟨fun h _ hfuel => ?_, fun h hfuel => ?_, fun h hfuel => ?_⟩
    all_goals
      have hshort := h.endOf.2
      omega
  | succ fuel ih => exact ⟨ih.value_succ, ih.items_succ, ih.fields_succ⟩

/-- White space before a value is skipped, and nothing else may follow
it. -/
theorem readDocument_eq {t first : Text} (hgap : Gap t first) (hopens : OpensValue first)
    (room : Nat) :
    readDocument room t
      = (readValue (2 * t.length + 2) room first).bind fun found =>
        if skipGap found.2 = [] then .ok found.1
        else .error ⟨.extra, (skipGap found.2).length⟩ := by
  have hstart : skipGap t = first := hgap.skipGap_eq.trans hopens.skipGap_eq
  unfold readDocument
  split
  · -- A byte order mark is neither white space nor the start of a value.
    obtain ⟨gap, hgap, hall⟩ := hgap
    cases gap with
    | nil =>
      obtain ⟨c, r, rfl, -, -, -, hne⟩ := hopens
      exact absurd (CodePoint.char.inj (List.cons.inj hgap).1).symm hne
    | cons p gap =>
      have hp := hall p List.mem_cons_self
      rw [← (List.cons.inj hgap).1] at hp
      exact absurd hp (by decide)
  · rw [hstart]
    cases readValue (2 * t.length + 2) room first with
    | error stop => rfl
    | ok found =>
      dsimp only [Except.bind]
      cases skipGap found.2 <;> simp

/-- A document is read as its value, unless a limit is met. -/
theorem readWithin_of_document {t : Text} {v : Value} (h : Document t v) (room : Nat) :
    readWithin room t = .ok v
      ∨ ∃ fault, readWithin room t = .error fault ∧ fault.cause.kind ≠ .grammar := by
  obtain ⟨first, rest, hgap, hvalue, hend⟩ := h
  have hread : ComesTo (readValue (2 * t.length + 2) room first) (v, rest) := by
    have hlength := hgap.suffix.length_le
    refine (readersRecognise _).value hvalue (hend.endsValue ?_) (by omega)
    exact fun p hp => by cases hp
  have hrest : skipGap rest = [] := hend.skipGap_eq
  have hdocument : ComesTo (readDocument room t) v := by
    rw [readDocument_eq hgap hvalue.opensValue]
    refine hread.next (fun hok => ?_) fun stop herror => ?_
    · rw [hok]
      exact .inl (if_pos hrest)
    · rw [herror]
      rfl
  rcases hdocument with hok | ⟨stop, herror, hstop⟩
  · exact .inl (by rw [readWithin, hok])
  · exact .inr ⟨stop.inDocument t, by rw [readWithin, herror], hstop⟩

/-! ## Where a limit is met -/

/-- The text holds more digits in a row than an integer may have. -/
def LongDigits (t : Text) : Prop :=
  ∃ digits : List Char, maxIntegerDigits < digits.length ∧ (∀ c ∈ digits, isDigit c = true)
    ∧ Text.ofChars digits <:+: t

/-- The brackets and braces of a text that open an array or an object. -/
def openings (t : Text) : Nat :=
  t.countP fun p => p = .char '[' || p = .char '\x7b'

/-- What a text holds if reading it with so much room stops for this
cause. -/
def Cause.Explained (room : Nat) (t : Text) (cause : Cause) : Prop :=
  match cause.kind with
  | .grammar => True
  | .size => LongDigits t
  | .depth => room < openings t

section Explained

variable {room opened : Nat} {t after rest : Text} {cause : Cause} {stop : Stop}

theorem Cause.Explained.of_grammar (h : cause.kind = .grammar) : cause.Explained room t := by
  rw [Explained, h]
  trivial

theorem Cause.Explained.of_suffix (h : cause.Explained room after) (hafter : after <:+ t) :
    cause.Explained room t := by
  unfold Explained at h ⊢
  split
  · trivial
  · rename_i hkind
    rw [hkind] at h
    obtain ⟨digits, hlong, hdigits, hinfix⟩ := h
    exact ⟨digits, hlong, hdigits, hinfix.trans hafter.isInfix⟩
  · rename_i hkind
    rw [hkind] at h
    exact Nat.lt_of_lt_of_le h (hafter.sublist.countP_le)

/-- Within an array or an object there is less room. -/
theorem Cause.Explained.enclosed {p : CodePoint} (h : cause.Explained room t)
    (hp : p = .char '[' ∨ p = .char '\x7b') : cause.Explained (room + 1) (p :: t) := by
  unfold Explained at h ⊢
  split
  · trivial
  · rename_i hkind
    rw [hkind] at h
    obtain ⟨digits, hlong, hdigits, hinfix⟩ := h
    exact ⟨digits, hlong, hdigits, hinfix.trans (List.suffix_cons p t).isInfix⟩
  · rename_i hkind
    rw [hkind] at h
    have hcount : openings (p :: t) = openings t + 1 :=
      List.countP_cons_of_pos (by simpa using hp)
    rw [hcount]
    exact Nat.succ_lt_succ h

theorem explained_nesting {p : CodePoint} (hp : p = .char '[' ∨ p = .char '\x7b')
    (object : Bool) (t : Text) : (Cause.nesting object).Explained 0 (p :: t) := by
  have hcount : openings (p :: t) = openings t + 1 := List.countP_cons_of_pos (by simpa using hp)
  change 0 < openings (p :: t)
  omega

theorem explained_of_readPieces (h : readPieces opened t = .error stop) :
    stop.cause.Explained room t := by
  refine .of_grammar ?_
  fun_induction readPieces with
  | case1 | case4 | case5 | case7 | case8 | case9 =>
    cases h
    rfl
  | case2 => cases h
  | case3 a b c d e t n hn ih => exact ih (map_eq_error_iff.mp h)
  | case6 letter t _ _ c hc ih => exact ih (map_eq_error_iff.mp h)
  | case10 p t _ _ _ _ _ _ ih => exact ih (map_eq_error_iff.mp h)

theorem explained_of_readText (h : readText t = .error stop) : stop.cause.Explained room t :=
  explained_of_readPieces (map_eq_error_iff.mp h)

theorem explained_of_readNumber (h : readNumber t = .error stop) :
    stop.cause.Explained room t := by
  have hsign := minusSign_eq t
  unfold readNumber at h
  dsimp only at h
  split at h
  · cases h
    exact .of_grammar rfl
  · rename_i whole behind hbody
    obtain ⟨hbody, hwhole⟩ := whole_of_wholePart? hbody
    split at h
    · cases h
    · split at h
      · split at h
        · rename_i hlong
          cases h
          refine ⟨whole, hlong, hwhole.digit, ?_⟩
          rw [hsign, hbody]
          exact List.infix_append' _ _ _
        · cases h
      · cases h

end Explained

/-- With this fuel, what stops the readers is explained by the text. -/
structure ReadersExplain (fuel : Nat) : Prop where
  value : ∀ {room t stop}, readValue fuel room t = .error stop → stop.cause.Explained room t
  items : ∀ {room t stop}, readItems fuel room t = .error stop → stop.cause.Explained room t
  fields : ∀ {room t stop}, readFields fuel room t = .error stop → stop.cause.Explained room t

namespace ReadersExplain

variable {fuel room : Nat} {t : Text} {stop : Stop}

theorem value_succ (ih : ReadersExplain fuel) (h : readValue (fuel + 1) room t = .error stop) :
    stop.cause.Explained room t := by
  unfold readValue at h
  split at h
  · exact (explained_of_readText (map_eq_error_iff.mp h)).of_suffix (List.suffix_cons _ _)
  · split at h
    · cases h
      exact explained_nesting (.inl rfl) _ _
    · split at h
      · cases h
      · exact ((ih.items (map_eq_error_iff.mp h)).of_suffix (skipGap_suffix _)).enclosed (.inl rfl)
  · split at h
    · cases h
      exact explained_nesting (.inr rfl) _ _
    · split at h
      · cases h
      · exact ((ih.fields (map_eq_error_iff.mp h)).of_suffix (skipGap_suffix _)).enclosed (.inr rfl)
  · split at h
    · cases h
    · exact explained_of_readNumber h

theorem items_succ (ih : ReadersExplain fuel) (h : readItems (fuel + 1) room t = .error stop) :
    stop.cause.Explained room t := by
  unfold readItems at h
  split at h
  · rename_i herror
    cases h
    exact ih.value herror
  · rename_i hitem
    have hitem := ((readersSpell fuel).value hitem).endOf
    split at h
    · cases h
    · rename_i hcomma
      exact (ih.items (map_eq_error_iff.mp h)).of_suffix ((skipGap_suffix _).trans
        (hitem.behind (gap_of_skipGap_eq hcomma)).1)
    · cases h
      exact .of_grammar rfl

theorem fields_succ (ih : ReadersExplain fuel) (h : readFields (fuel + 1) room t = .error stop) :
    stop.cause.Explained room t := by
  unfold readFields at h
  split at h
  case h_2 =>
    cases h
    exact .of_grammar rfl
  split at h
  · rename_i herror
    cases h
    exact (explained_of_readText herror).of_suffix (List.suffix_cons _ _)
  rename_i hname
  obtain ⟨pieces, hquoted, -⟩ := readText_eq_ok_iff.mp hname
  split at h
  case h_2 =>
    cases h
    exact .of_grammar rfl
  rename_i hcolon
  have hcolon := (endOf_cons (p := .char '"') hquoted.suffix).behind (gap_of_skipGap_eq hcolon)
  split at h
  · rename_i herror
    cases h
    exact (ih.value herror).of_suffix ((skipGap_suffix _).trans hcolon.1)
  rename_i hvalue
  have hvalue := hcolon.of_suffix
    (((readersSpell fuel).value hvalue).endOf.1.trans (skipGap_suffix _))
  dsimp only at h
  split at h
  · cases h
  · rename_i hcomma
    exact (ih.fields (map_eq_error_iff.mp h)).of_suffix ((skipGap_suffix _).trans
      (hvalue.behind (gap_of_skipGap_eq hcomma)).1)
  · cases h
    exact .of_grammar rfl

end ReadersExplain

/-- Whatever their fuel, what stops the readers is explained by the
text. -/
theorem readersExplain (fuel : Nat) : ReadersExplain fuel := by
  induction fuel with
  | zero =>
    refine ⟨fun h => ?_, fun h => ?_, fun h => ?_⟩
    · rw [readValue] at h
      cases h
      exact .of_grammar rfl
    · rw [readItems] at h
      cases h
      exact .of_grammar rfl
    · rw [readFields] at h
      cases h
      exact .of_grammar rfl
  | succ fuel ih => exact ⟨ih.value_succ, ih.items_succ, ih.fields_succ⟩

/-- A fault of a document is explained by its text. -/
theorem explained_of_readWithin {room : Nat} {t : Text} {fault : Fault}
    (h : readWithin room t = .error fault) : fault.cause.Explained room t := by
  unfold readWithin readDocument at h
  split at h
  · cases h
  · rename_i hread
    cases h
    split at hread
    · cases hread
      exact .of_grammar rfl
    · split at hread
      · rename_i herror
        cases hread
        exact ((readersExplain _).value herror).of_suffix (skipGap_suffix _)
      · split at hread
        · cases hread
        · cases hread
          exact .of_grammar rfl

/-! ## Texts that meet a limit, and texts that do not -/

/-- Reading the text with so much room stops at a limit of the reader. -/
structure Limit (room : Nat) (t : Text) (fault : Fault) : Prop where
  read_eq : readWithin room t = .error fault
  kind_ne : fault.cause.kind ≠ .grammar

/-- Reading the text with so much room meets no limit of the reader. -/
def Fits (room : Nat) (t : Text) : Prop :=
  ∀ fault, ¬ Limit room t fault

section Fits

variable {room : Nat} {t : Text} {v : Value} {fault : Fault}

/-- A text that meets a limit of the reader shows it. -/
theorem Limit.explained (h : Limit room t fault) :
    fault.cause.kind = .size ∧ LongDigits t
      ∨ fault.cause.kind = .depth ∧ room < openings t := by
  have hexplained := explained_of_readWithin h.read_eq
  unfold Cause.Explained at hexplained
  cases hkind : fault.cause.kind with
  | grammar => exact absurd hkind h.kind_ne
  | size =>
    rw [hkind] at hexplained
    exact .inl ⟨rfl, hexplained⟩
  | depth =>
    rw [hkind] at hexplained
    exact .inr ⟨rfl, hexplained⟩

theorem fits_of_openings (hdigits : ¬ LongDigits t) (hopenings : openings t ≤ room) :
    Fits room t := by
  intro fault h
  rcases h.explained with ⟨-, hlong⟩ | ⟨-, hdeep⟩
  · exact hdigits hlong
  · exact absurd hdeep (Nat.not_lt.mpr hopenings)

/-- The documents that meet no limit are read. -/
theorem readWithin_eq_ok_iff : readWithin room t = .ok v ↔ Document t v ∧ Fits room t := by
  constructor
  · refine fun h => ⟨document_of_readWithin h, fun fault hlimit => ?_⟩
    cases h.symm.trans hlimit.read_eq
  · rintro ⟨hv, hfits⟩
    rcases readWithin_of_document hv room with hok | ⟨fault, herror, hlimit⟩
    · exact hok
    · exact absurd ⟨herror, hlimit⟩ (hfits fault)

/-- A text is refused for its grammar where it is no document and meets no
limit. -/
theorem exists_grammar_iff :
    (∃ fault, readWithin room t = .error fault ∧ fault.cause.kind = .grammar)
      ↔ (∀ v, ¬ Document t v) ∧ Fits room t := by
  constructor
  · rintro ⟨fault, herror, hkind⟩
    refine ⟨fun v hv => ?_, fun other hlimit => ?_⟩
    · rcases readWithin_of_document hv room with hok | ⟨other, hother, hlimit⟩
      · cases herror.symm.trans hok
      · cases herror.symm.trans hother
        exact hlimit hkind
    · cases herror.symm.trans hlimit.read_eq
      exact hlimit.kind_ne hkind
  · rintro ⟨hnone, hfits⟩
    cases hread : readWithin room t with
    | ok v => exact absurd (document_of_readWithin hread) (hnone v)
    | error fault =>
      by_cases hkind : fault.cause.kind = .grammar
      · exact ⟨fault, rfl, hkind⟩
      · exact absurd ⟨hread, hkind⟩ (hfits fault)

end Fits

/-! ## Arrays that are not closed -/

/-- An array that is opened and not closed is no document. -/
theorem not_document_of_unclosed {t : Text} (h : .char ']' ∉ t) (v : Value) :
    ¬ Document (.char '[' :: t) v := by
  rintro ⟨first, rest, hgap, hvalue, -⟩
  have hfirst : first = .char '[' :: t := by
    have hskip := hgap.skipGap_eq
    rw [hvalue.opensValue.skipGap_eq, skipGap_cons (by decide)] at hskip
    exact hskip.symm
  cases hvalue with
  | word hword =>
    have hstart := congrArg List.head? hfirst
    simp only [words, List.mem_cons, List.not_mem_nil, or_false, Prod.mk.injEq] at hword
    rcases hword with ⟨rfl, -⟩ | ⟨rfl, -⟩ | ⟨rfl, -⟩ | ⟨rfl, -⟩ | ⟨rfl, -⟩ | ⟨rfl, -⟩ <;>
      exact absurd hstart (by simp [Text.ofString, Text.ofChars])
  | number hnumber =>
    obtain ⟨c, r, hc, heq | heq⟩ := hnumber.opensNumber.append rest
    · obtain rfl := CodePoint.char.inj (List.cons.inj (heq.symm.trans hfirst)).1
      exact absurd hc (by decide)
    · exact absurd (List.cons.inj (heq.symm.trans hfirst)).1 (by decide)
  | noItems hclose =>
    obtain rfl := (List.cons.inj hfirst).2
    exact h (hclose.suffix.subset List.mem_cons_self)
  | array hinner hitems =>
    obtain rfl := (List.cons.inj hfirst).2
    exact h (hinner.suffix.subset hitems.closing_mem)
  | text | noFields | object => exact absurd (List.cons.inj hfirst).1 (by decide)

/-- Where a value starts at once, the document stops as the value does. -/
theorem readWithin_of_error {room : Nat} {t : Text} {stop : Stop} (hopens : OpensValue t)
    (h : readValue (2 * t.length + 2) room t = .error stop) :
    readWithin room t = .error (stop.inDocument t) := by
  have hgap : Gap t t := ⟨[], rfl, fun _ hp => absurd hp List.not_mem_nil⟩
  rw [readWithin, readDocument_eq hgap hopens, h]
  rfl

theorem readItems_of_error {fuel room : Nat} {t : Text} {stop : Stop}
    (h : readValue fuel room t = .error stop) : readItems (fuel + 1) room t = .error stop := by
  simp only [readItems, h]

/-- Arrays that are opened within one another, none of which is closed. -/
def unclosed (n : Nat) : Text :=
  List.replicate n (.char '[')

theorem not_document_unclosed {n : Nat} (hn : 0 < n) (v : Value) : ¬ Document (unclosed n) v := by
  obtain ⟨n, rfl⟩ : ∃ k, n = k + 1 := ⟨n - 1, by omega⟩
  refine not_document_of_unclosed (fun hmem => ?_) v
  exact absurd (List.eq_of_mem_replicate hmem) (by decide)

theorem not_longDigits_unclosed (n : Nat) : ¬ LongDigits (unclosed n) := by
  rintro ⟨digits, hlong, hdigits, hinfix⟩
  obtain ⟨c, ds, rfl⟩ :=
    List.exists_cons_of_ne_nil (List.ne_nil_of_length_pos (Nat.zero_lt_of_lt hlong))
  have hmem : CodePoint.char c ∈ unclosed n := hinfix.subset List.mem_cons_self
  obtain rfl := CodePoint.char.inj (List.eq_of_mem_replicate hmem)
  exact absurd (hdigits '[' List.mem_cons_self) (by decide)

theorem readValue_unclosed {room n fuel : Nat} (hn : room < n) (hfuel : 2 * room < fuel) :
    ∃ left, readValue fuel room (unclosed n) = .error ⟨.nesting false, left⟩ := by
  obtain ⟨n, rfl⟩ : ∃ k, n = k + 1 := ⟨n - 1, by omega⟩
  induction room generalizing n fuel with
  | zero =>
    obtain ⟨fuel, rfl⟩ : ∃ k, fuel = k + 1 := ⟨fuel - 1, by omega⟩
    exact ⟨_, rfl⟩
  | succ room ih =>
    obtain ⟨fuel, rfl⟩ : ∃ k, fuel = k + 1 + 1 := ⟨fuel - 2, by omega⟩
    obtain ⟨n, rfl⟩ : ∃ k, n = k + 1 := ⟨n - 1, by omega⟩
    obtain ⟨left, hleft⟩ : ∃ left, readValue fuel room (unclosed (n + 1))
        = .error ⟨.nesting false, left⟩ := ih (by omega) n (by omega)
    have hopens : OpensValue (unclosed (n + 1)) := ⟨'[', _, rfl, by decide⟩
    refine ⟨left, ?_⟩
    rw [unclosed, List.replicate_succ, ← unclosed, readValue_array hopens.skipGap_eq hopens,
      readItems_of_error hleft]
    rfl

/-- More arrays are opened than there is room for. -/
theorem readWithin_unclosed {room n : Nat} (hn : room < n) :
    ∃ fault, readWithin room (unclosed n) = .error fault ∧ fault.cause = .nesting false := by
  have hfuel : 2 * room < 2 * (unclosed n).length + 2 := by
    rw [unclosed, List.length_replicate]
    omega
  obtain ⟨left, hleft⟩ := readValue_unclosed hn hfuel
  obtain ⟨n, rfl⟩ : ∃ k, n = k + 1 := ⟨n - 1, by omega⟩
  exact ⟨_, readWithin_of_error ⟨'[', _, rfl, by decide⟩ hleft, rfl⟩

/-- An array is opened before an integer with too many digits. -/
theorem readWithin_longDigits {digits : List Char} (hwhole : Whole digits)
    (hlong : maxIntegerDigits < digits.length) (room : Nat) :
    ∃ fault, readWithin (room + 1) (.char '[' :: Text.ofChars digits) = .error fault
      ∧ fault.cause = .longInteger digits.length := by
  have hopens : OpensNumber (Text.ofChars digits) := by
    have hopens := hwhole.opensNumber false []
    rwa [List.append_nil] at hopens
  have hends : EndsValue [] := fun p hp => by cases hp
  have hnumber := readNumber_integer false hwhole hends
  rw [if_pos hlong, List.append_nil] at hnumber
  have harray : readValue (2 * (Text.ofChars digits).length + 1 + 1 + 1 + 1) (room + 1)
      (.char '[' :: Text.ofChars digits)
        = .error ⟨.longInteger digits.length, (signText false ++ Text.ofChars digits).length⟩ := by
    rw [readValue_array hopens.opensValue.skipGap_eq hopens.opensValue,
      readItems_of_error ((readValue_of_opensNumber hopens _ room).trans hnumber)]
    rfl
  exact ⟨_, readWithin_of_error ⟨'[', _, rfl, by decide⟩ harray, rfl⟩

/-- Nines are the digits of a whole number. -/
theorem whole_replicate {n : Nat} (hn : 0 < n) : Whole (List.replicate n '9') := by
  obtain ⟨n, rfl⟩ : ∃ k, n = k + 1 := ⟨n - 1, by omega⟩
  refine ⟨⟨List.cons_ne_nil _ _, fun c hc => ?_⟩, fun hzero => ?_⟩
  · obtain rfl := List.eq_of_mem_replicate hc
    decide
  · exact absurd (Option.some.inj hzero) (by decide)

end Lineage.Json
