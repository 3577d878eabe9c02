/-
Lineage.Proofs.Json.Decimal — whole numbers are read back.

A whole number is written in decimal digits, which start with a zero only
if it is zero, so that they are one whole part (`whole_toDigits`).
What may stand behind a value is no part of a number (`EndsValue`); so
neither a fraction nor an exponent follows, and the number is read as it
was, if it does not have more digits than can be read
(`readNumber_decimal`).
-/
import Lineage.Json.Printer
import Lineage.Json.Reader

namespace Lineage.Json

/-! ## Digits -/

theorem isDigit_of_mem_toDigits {n : Nat} {c : Char} (h : c ∈ Nat.toDigits 10 n) :
    isDigit c = true := by
  have hdigit := Nat.isDigit_of_mem_toDigits (by decide) (by decide) h
  simp only [Char.isDigit, Bool.and_eq_true, decide_eq_true_eq] at hdigit
  simp only [isDigit, Bool.and_eq_true, decide_eq_true_eq]
  exact hdigit

theorem digitsValue_toDigits (n : Nat) : digitsValue (Nat.toDigits 10 n) = n := by
  have h : digitsValue (Nat.toDigits 10 n) = Nat.ofDigitChars 10 (Nat.toDigits 10 n) 0 := by
    simp only [digitsValue, Nat.ofDigitChars, Nat.mul_comm 10]
    rfl
  rw [h, Nat.ofDigitChars_toDigits (by decide) (by decide)]

/-- No number but zero starts with a zero. -/
theorem toDigits_eq_zero_cons {n : Nat} {ds : List Char} (h : Nat.toDigits 10 n = '0' :: ds) :
    n = 0 := by
  induction n using Nat.strongRecOn generalizing ds with
  | ind n ih =>
    by_cases hlt : n < 10
    · rw [Nat.toDigits_of_lt_base hlt] at h
      have hdigit : ∀ d < 10, d.digitChar = '0' → d = 0 := by decide
      exact hdigit n hlt (List.cons.inj h).1
    · rw [Nat.toDigits_of_base_le (by decide) (by omega)] at h
      obtain ⟨ds', hds⟩ : ∃ ds', Nat.toDigits 10 (n / 10) = '0' :: ds' := by
        cases hd : Nat.toDigits 10 (n / 10) with
        | nil => exact absurd hd Nat.toDigits_ne_nil
        | cons c ds' =>
          rw [hd, List.cons_append] at h
          exact ⟨ds', by rw [(List.cons.inj h).1]⟩
      have hzero := ih (n / 10) (by omega) hds
      omega

theorem decimal_ofNat (n : Nat) : Text.decimal n = Text.ofChars (Nat.toDigits 10 n) :=
  congrArg Text.ofChars String.toList_ofList

theorem decimal_negSucc (n : Nat) :
    Text.decimal (Int.negSucc n) = .char '-' :: Text.ofChars (Nat.toDigits 10 (n + 1)) := by
  have h : (toString (Int.negSucc n)).toList = '-' :: Nat.toDigits 10 (n + 1) := by
    have hsign : toString (Int.negSucc n) = "-" ++ String.ofList (Nat.toDigits 10 (n + 1)) := rfl
    simp [hsign]
  exact congrArg Text.ofChars h

/-- The text starts with a digit, or with a minus sign and a digit. -/
def OpensNumber (t : Text) : Prop :=
  ∃ c r, isDigit c = true ∧ (t = .char c :: r ∨ t = .char '-' :: .char c :: r)

theorem OpensNumber.append {t : Text} (h : OpensNumber t) (rest : Text) :
    OpensNumber (t ++ rest) := by
  obtain ⟨c, r, hc, rfl | rfl⟩ := h
  · exact ⟨c, r ++ rest, hc, .inl rfl⟩
  · exact ⟨c, r ++ rest, hc, .inr rfl⟩

/-- No word starts as a number does. -/
theorem word?_of_opensNumber {t : Text} (h : OpensNumber t) : word? t = none := by
  obtain ⟨c, r, hc, ht⟩ := h
  have hne : c ≠ 'n' ∧ c ≠ 't' ∧ c ≠ 'f' ∧ c ≠ 'N' ∧ c ≠ 'I' ∧ c ≠ '-' := by
    refine ⟨?_, ?_, ?_, ?_, ?_, ?_⟩ <;> rintro rfl <;> exact absurd hc (by decide)
  rcases ht with rfl | rfl <;> simp [word?, words, afterWord?, hne]

/-- What starts as a number does is read as one. -/
theorem readValue_of_opensNumber {t : Text} (h : OpensNumber t) (fuel room : Nat) :
    readValue (fuel + 1) room t = readNumber t := by
  have hword := word?_of_opensNumber h
  obtain ⟨c, r, hc, ht⟩ := h
  have hne : c ≠ '"' ∧ c ≠ '[' ∧ c ≠ '\x7b' := by
    refine ⟨?_, ?_, ?_⟩ <;> rintro rfl <;> exact absurd hc (by decide)
  rw [readValue, hword] <;> rcases ht with rfl | rfl <;> simp [hne]

/-! ## Numbers -/

/-- Behind a value comes nothing, white space or a mark that ends it. -/
def EndsValue (t : Text) : Prop :=
  ∀ p ∈ t.head?, p ∈ ([.char ',', .char ']', .char '\x7d'] : Text) ∨ p.isIn isGap = true

/-- A character that may stand behind a value is no part of a number. -/
theorem EndsValue.notNumber {p : CodePoint} {rest : Text} (h : EndsValue (p :: rest)) :
    p.isIn isDigit = false ∧ p ≠ .char '.' ∧ p ≠ .char 'e' ∧ p ≠ .char 'E' := by
  have hp := h p rfl
  cases p with
  | surrogate offset => exact ⟨rfl, by simp, by simp, by simp⟩
  | char c =>
    simp only [List.mem_cons, CodePoint.char.injEq, List.not_mem_nil, or_false, CodePoint.isIn,
      isGap, Bool.or_eq_true, decide_eq_true_eq] at hp
    rcases hp with (rfl | rfl | rfl) | (((rfl | rfl) | rfl) | rfl) <;> decide

/-- The text does not start with a digit. -/
def NoDigit (t : Text) : Prop :=
  ∀ p ∈ t.head?, p.isIn isDigit = false

theorem EndsValue.noDigit {rest : Text} (h : EndsValue rest) : NoDigit rest := by
  intro p hp
  cases rest with
  | nil => cases hp
  | cons q rest =>
    obtain rfl := Option.some.inj hp
    exact h.notNumber.1

theorem spanDigits_append {ds : List Char} (hds : ∀ c ∈ ds, isDigit c = true) {rest : Text}
    (hrest : NoDigit rest) : spanDigits (Text.ofChars ds ++ rest) = (ds, rest) := by
  induction ds with
  | nil =>
    cases rest with
    | nil => rfl
    | cons p rest =>
      have hp := hrest p rfl
      cases p with
      | surrogate offset => rfl
      | char c =>
        change isDigit c = false at hp
        simp [Text.ofChars, spanDigits, hp]
  | cons c ds ih =>
    have hcons : Text.ofChars (c :: ds) ++ rest = .char c :: (Text.ofChars ds ++ rest) := rfl
    rw [hcons, spanDigits, if_pos (hds c List.mem_cons_self),
      ih fun d hd => hds d (List.mem_cons_of_mem _ hd)]

/-- At least one digit. -/
structure Digits (ds : List Char) : Prop where
  ne_nil : ds ≠ []
  digit : ∀ c ∈ ds, isDigit c = true

/-- The digits of a whole number: a zero, or digits that start with
none. -/
structure Whole (ds : List Char) : Prop extends Digits ds where
  zero : ds.head? = some '0' → ds = ['0']

theorem whole_toDigits (n : Nat) : Whole (Nat.toDigits 10 n) := by
  refine ⟨⟨Nat.toDigits_ne_nil, fun c => isDigit_of_mem_toDigits⟩, fun hzero => ?_⟩
  obtain ⟨ds, hds⟩ := List.head?_eq_some_iff.mp hzero
  obtain rfl := toDigits_eq_zero_cons hds
  rfl

theorem Whole.wholePart? {ds : List Char} (h : Whole ds) {rest : Text} (hrest : NoDigit rest) :
    wholePart? (Text.ofChars ds ++ rest) = some (ds, rest) := by
  have hspan := spanDigits_append h.digit hrest
  obtain ⟨c, ds, rfl⟩ := List.exists_cons_of_ne_nil h.ne_nil
  by_cases hzero : c = '0'
  · subst hzero
    obtain rfl : ds = [] := (List.cons.inj (h.zero rfl)).2
    rfl
  · have hcons : Text.ofChars (c :: ds) ++ rest = .char c :: (Text.ofChars ds ++ rest) := rfl
    rw [hcons] at hspan ⊢
    rw [Json.wholePart?, hspan]
    simp [hzero]

theorem fraction?_of_endsValue {rest : Text} (h : EndsValue rest) : fraction? rest = none := by
  cases rest with
  | nil => rfl
  | cons p rest =>
    rw [fraction?]
    intro r heq
    exact h.notNumber.2.1 (List.cons.inj heq).1

theorem exponent?_of_endsValue {rest : Text} (h : EndsValue rest) : exponent? rest = none := by
  cases rest with
  | nil => rfl
  | cons p rest =>
    obtain ⟨-, -, he, hE⟩ := h.notNumber
    rw [exponent?, if_neg (not_or.mpr ⟨he, hE⟩)]

/-- A minus sign before a negative number. -/
def signText (negative : Bool) : Text :=
  if negative then [.char '-'] else []

theorem decimal_eq (i : Int) :
    Text.decimal i = signText (decide (i < 0)) ++ Text.ofChars (Nat.toDigits 10 i.natAbs) := by
  cases i with
  | ofNat n => exact decimal_ofNat n
  | negSucc n =>
    rw [decimal_negSucc, decide_eq_true (Int.negSucc_lt_zero n)]
    rfl

theorem Whole.opensNumber {ds : List Char} (h : Whole ds) (negative : Bool) (rest : Text) :
    OpensNumber (signText negative ++ (Text.ofChars ds ++ rest)) := by
  obtain ⟨c, ds, rfl⟩ := List.exists_cons_of_ne_nil h.ne_nil
  have hc := h.digit c List.mem_cons_self
  cases negative with
  | false => exact ⟨c, Text.ofChars ds ++ rest, hc, .inl rfl⟩
  | true => exact ⟨c, Text.ofChars ds ++ rest, hc, .inr rfl⟩

theorem opensNumber_decimal (i : Int) : OpensNumber (Text.decimal i) := by
  have hopens := (whole_toDigits i.natAbs).opensNumber (decide (i < 0)) []
  rwa [List.append_nil, ← decimal_eq] at hopens

/-- Digits do not start with a sign. -/
theorem Digits.head_ne {ds : List Char} (h : Digits ds) (rest : Text) :
    ∃ c t, Text.ofChars ds ++ rest = .char c :: t ∧ c ≠ '-' ∧ c ≠ '+' := by
  obtain ⟨c, ds, rfl⟩ := List.exists_cons_of_ne_nil h.ne_nil
  have hc := h.digit c List.mem_cons_self
  refine ⟨c, Text.ofChars ds ++ rest, rfl, ?_, ?_⟩ <;> rintro rfl <;> exact absurd hc (by decide)

theorem minusSign_append (negative : Bool) {whole : List Char} (hwhole : Whole whole)
    (rest : Text) :
    minusSign (signText negative ++ (Text.ofChars whole ++ rest))
      = (negative, Text.ofChars whole ++ rest) := by
  cases negative with
  | true => rfl
  | false =>
    obtain ⟨c, t, ht, hminus, -⟩ := hwhole.toDigits.head_ne rest
    change minusSign (Text.ofChars whole ++ rest) = _
    rw [ht]
    simp [minusSign, hminus]

/-- What is read of an integer. -/
theorem readNumber_integer (negative : Bool) {whole : List Char} (hwhole : Whole whole)
    {rest : Text} (hrest : EndsValue rest) :
    readNumber (signText negative ++ (Text.ofChars whole ++ rest))
      = if maxIntegerDigits < whole.length then
          .error ⟨.longInteger whole.length,
            (signText negative ++ (Text.ofChars whole ++ rest)).length⟩
        else .ok (.int (if negative then -(digitsValue whole : Int) else digitsValue whole), rest)
    := by
  -- Unfolded once, because the equations of the definition would compute with the limit.
  unfold readNumber
  rw [minusSign_append negative hwhole]
  dsimp only
  rw [hwhole.wholePart? hrest.noDigit]
  dsimp only
  rw [fraction?_of_endsValue hrest]
  dsimp only [Option.getD_none]
  rw [exponent?_of_endsValue hrest]

/-- A written integer is read back, if it does not have too many digits. -/
theorem readNumber_decimal {i : Int} (hi : (Nat.toDigits 10 i.natAbs).length ≤ maxIntegerDigits)
    {rest : Text} (hrest : EndsValue rest) :
    readNumber (Text.decimal i ++ rest) = .ok (.int i, rest) := by
  have hvalue : (if decide (i < 0) then -(i.natAbs : Int) else i.natAbs) = i := by
    simp only [decide_eq_true_eq]
    omega
  rw [decimal_eq, List.append_assoc, readNumber_integer _ (whole_toDigits _) hrest,
    if_neg (Nat.not_lt.mpr hi), digitsValue_toDigits, hvalue]

end Lineage.Json
