/-
Lineage.Proofs.Json.Quoted — texts within quotes are read back.

A code point is written as it is, as an escape of one letter, or as one
or two code units in hexadecimal digits.  Each form is read as the pieces
it is made of (`readPieces_quotePoint`), and the pieces of a text are put
together as that text (`joinPieces_flatMap`) if the text is `Unpaired`:
then the only escapes next to each other that are the halves of a
surrogate pair are those of one character.  So a text that stands between
quotes is read as it was (`readText_quoted`), whether or not what is
beyond ASCII was escaped.  Every text of characters is unpaired, and so
is every text that is read (`unpaired_of_readText`).
-/
import Lineage.Json.Printer
import Lineage.Json.Reader
import Lineage.Proofs.Outcome
import Mathlib.Data.List.Chain
import Mathlib.Tactic.SplitIfs

namespace Lineage.Json

/-! ## Code units -/

theorem hexValue?_hexChar : ∀ d < 16, hexValue? (hexChar d) = some d := by
  decide

/-- The digits of a code unit spell it. -/
theorem fourHex?_digits {n : Nat} (h : n < 0x10000) :
    fourHex? (.char (hexChar (n / 4096 % 16))) (.char (hexChar (n / 256 % 16)))
      (.char (hexChar (n / 16 % 16))) (.char (hexChar (n % 16))) = some n := by
  have hdigit (k : Nat) : hexValue? (hexChar (k % 16)) = some (k % 16) :=
    hexValue?_hexChar _ (Nat.mod_lt k (by decide))
  simp only [fourHex?, hdigit]
  congr 1
  omega

/-- An escape is read as its code unit; something always follows it,
since the quotes are closed. -/
theorem readPieces_unitEscape {n : Nat} (h : n < 0x10000) (opened : Nat) {tail : Text}
    (htail : tail ≠ []) :
    readPieces opened (unitEscape n ++ tail)
      = (readPieces opened tail).map fun (ps, r) => (.unit n :: ps, r) := by
  obtain ⟨p, rest, rfl⟩ := List.exists_cons_of_ne_nil htail
  simp only [unitEscape, Text.ofChars, List.map_cons, List.map_nil, List.cons_append,
    List.nil_append, readPieces, fourHex?_digits h]

/-! ## Characters -/

/-- The pieces as which a code point is read that was written. -/
def writtenPieces (ascii : Bool) : CodePoint → List Piece
  | .char c =>
    if (escapeLetter? c).isSome then [.point (.char c)]
    else if c < ' ' then [.unit c.toNat]
    else if ascii && '~' < c then
      if c.toNat < 0x10000 then [.unit c.toNat]
      else
        [.unit (0xD800 + (c.toNat - 0x10000) / 0x400),
          .unit (0xDC00 + (c.toNat - 0x10000) % 0x400)]
    else [.point (.char c)]
  | p => if ascii then [.unit p.code] else [.point p]

/-- A letter that escapes a character stands for it, and is not the one
that announces a code unit. -/
theorem shortEscape?_of_escapeLetter? {c letter : Char} (h : escapeLetter? c = some letter) :
    shortEscape? (.char letter) = some c ∧ letter ≠ 'u' := by
  unfold escapeLetter? at h
  split at h <;> cases h <;> decide

theorem readPieces_letter {c letter : Char} (h : escapeLetter? c = some letter) (opened : Nat)
    (tail : Text) :
    readPieces opened (.char '\\' :: .char letter :: tail)
      = (readPieces opened tail).map fun (ps, r) => (.point (.char c) :: ps, r) := by
  obtain ⟨hshort, hu⟩ := shortEscape?_of_escapeLetter? h
  have hunit : CodePoint.char letter ≠ .char 'u' := fun heq => hu (CodePoint.char.inj heq)
  rw [readPieces, hshort]
  · exact fun _ _ _ _ _ _ heq => absurd heq hunit
  · exact hunit

theorem readPieces_plain {c : Char} (hquote : c ≠ '"') (hslash : c ≠ '\\') (hcontrol : ¬ c < ' ')
    (opened : Nat) (tail : Text) :
    readPieces opened (.char c :: tail)
      = (readPieces opened tail).map fun (ps, r) => (.point (.char c) :: ps, r) := by
  have hcontrol : (CodePoint.char c).isIn (· < ' ') = false := decide_eq_false hcontrol
  rw [readPieces, hcontrol]
  · rfl
  all_goals simp [hquote, hslash]

/-- A character within quotes is read as its pieces. -/
theorem readPieces_quoteChar (ascii : Bool) (c : Char) (opened : Nat) {tail : Text}
    (htail : tail ≠ []) :
    readPieces opened (quotePoint ascii (.char c) ++ tail)
      = (readPieces opened tail).map fun (ps, r) => (writtenPieces ascii (.char c) ++ ps, r) := by
  cases hletter : escapeLetter? c with
  | some letter =>
    simp only [quotePoint, writtenPieces, hletter, Option.isSome_some, if_true]
    exact readPieces_letter hletter opened tail
  | none =>
    simp only [quotePoint, writtenPieces, hletter, Option.isSome_none, Bool.false_eq_true,
      if_false]
    by_cases hcontrol : c < ' '
    · have hunit : c.toNat < 0x10000 := by
        have : c.toNat < ' '.toNat := hcontrol
        have : ' '.toNat = 32 := rfl
        omega
      rw [if_pos hcontrol, if_pos hcontrol]
      exact readPieces_unitEscape hunit opened htail
    · rw [if_neg hcontrol, if_neg hcontrol]
      by_cases hescape : (ascii && decide ('~' < c)) = true
      · rw [if_pos hescape, if_pos hescape, pointEscape]
        have hvalid : c.toNat < 0x110000 := by
          have hv : c.toNat < 0xD800 ∨ (0xDFFF < c.toNat ∧ c.toNat < 0x110000) := c.valid
          omega
        by_cases hunit : c.toNat < 0x10000
        · rw [if_pos hunit, if_pos hunit]
          exact readPieces_unitEscape hunit opened htail
        · have hlow (n : Nat) : unitEscape n ++ tail ≠ [] := List.cons_ne_nil _ _
          rw [if_neg hunit, if_neg hunit, List.append_assoc,
            readPieces_unitEscape (by omega) opened (hlow _),
            readPieces_unitEscape (by omega) opened htail]
          cases readPieces opened tail <;> rfl
      · rw [if_neg hescape, if_neg hescape]
        refine readPieces_plain ?_ ?_ hcontrol opened tail
        · rintro rfl
          cases hletter
        · rintro rfl
          cases hletter

/-- A code point within quotes is read as its pieces. -/
theorem readPieces_quotePoint (ascii : Bool) (p : CodePoint) (opened : Nat) {tail : Text}
    (htail : tail ≠ []) :
    readPieces opened (quotePoint ascii p ++ tail)
      = (readPieces opened tail).map fun (ps, r) => (writtenPieces ascii p ++ ps, r) := by
  cases p with
  | char c => exact readPieces_quoteChar ascii c opened htail
  | surrogate offset =>
    cases ascii with
    | true =>
      have hunit : (CodePoint.surrogate offset).code < 0x10000 := by
        have := offset.isLt
        rw [CodePoint.code]
        omega
      exact readPieces_unitEscape hunit opened htail
    | false =>
      change readPieces opened (.surrogate offset :: tail) = _
      rw [readPieces]
      · rfl
      all_goals simp

/-! ## Texts -/

/-- No two code points of the text are the halves of a surrogate pair
that stand next to each other. -/
def Unpaired (t : Text) : Prop :=
  t.IsChain fun p q => (isHighSurrogate p.code && isLowSurrogate q.code) = false

/-- The number of a character is no half of a surrogate pair. -/
theorem isHighSurrogate_toNat (c : Char) : isHighSurrogate c.toNat = false := by
  have hv : c.toNat < 0xD800 ∨ (0xDFFF < c.toNat ∧ c.toNat < 0x110000) := c.valid
  simp only [isHighSurrogate, Bool.and_eq_false_iff, decide_eq_false_iff_not]
  omega

theorem isLowSurrogate_toNat (c : Char) : isLowSurrogate c.toNat = false := by
  have hv : c.toNat < 0xD800 ∨ (0xDFFF < c.toNat ∧ c.toNat < 0x110000) := c.valid
  simp only [isLowSurrogate, Bool.and_eq_false_iff, decide_eq_false_iff_not]
  omega

theorem unpaired_cons {p : CodePoint} {t : Text} :
    Unpaired (p :: t)
      ↔ (∀ q ∈ t.head?, (isHighSurrogate p.code && isLowSurrogate q.code) = false)
        ∧ Unpaired t :=
  List.isChain_cons

theorem unpaired_ofChars (cs : List Char) : Unpaired (.ofChars cs) := by
  induction cs with
  | nil => exact List.isChain_nil
  | cons c rest ih =>
    refine unpaired_cons.mpr ⟨fun q _ => ?_, ih⟩
    rw [CodePoint.code, isHighSurrogate_toNat, Bool.false_and]

/-- A text without surrogates is unpaired. -/
theorem unpaired_of_isBroken {t : Text} (h : t.isBroken = false) : Unpaired t := by
  obtain ⟨cs, rfl⟩ := Text.isBroken_eq_false_iff.mp h
  exact unpaired_ofChars cs

/-- A code unit that the other half of a pair does not follow stands for
itself. -/
theorem joinPieces_unit {n : Nat} {rest : List Piece}
    (h : ∀ low more, rest = .unit low :: more →
      (isHighSurrogate n && isLowSurrogate low) = false) :
    joinPieces (.unit n :: rest) = CodePoint.ofCode n :: joinPieces rest := by
  cases rest with
  | nil => rfl
  | cons p rest =>
    cases p with
    | point q => rfl
    | unit low =>
      rw [joinPieces, h low rest rfl]
      rfl

/-- The pieces of a character are put together as the character. -/
theorem joinPieces_writtenPieces (ascii : Bool) (c : Char) (rest : List Piece) :
    joinPieces (writtenPieces ascii (.char c) ++ rest) = .char c :: joinPieces rest := by
  have hcode : CodePoint.ofCode c.toNat = .char c := CodePoint.ofCode_code (.char c)
  have hunit : joinPieces (.unit c.toNat :: rest) = .char c :: joinPieces rest := by
    rw [joinPieces_unit fun _ _ _ => by rw [isHighSurrogate_toNat, Bool.false_and], hcode]
  rw [writtenPieces]
  by_cases hletter : (escapeLetter? c).isSome = true
  · rw [if_pos hletter]
    rfl
  rw [if_neg hletter]
  by_cases hcontrol : c < ' '
  · rw [if_pos hcontrol]
    exact hunit
  rw [if_neg hcontrol]
  by_cases hescape : (ascii && decide ('~' < c)) = true
  · rw [if_pos hescape]
    by_cases hsmall : c.toNat < 0x10000
    · rw [if_pos hsmall]
      exact hunit
    · have hv : c.toNat < 0xD800 ∨ (0xDFFF < c.toNat ∧ c.toNat < 0x110000) := c.valid
      have hhigh : isHighSurrogate (0xD800 + (c.toNat - 0x10000) / 0x400) = true := by
        simp only [isHighSurrogate, Bool.and_eq_true, decide_eq_true_eq]
        omega
      have hlow : isLowSurrogate (0xDC00 + (c.toNat - 0x10000) % 0x400) = true := by
        simp only [isLowSurrogate, Bool.and_eq_true, decide_eq_true_eq]
        omega
      have hpair : 0x10000 + (0xD800 + (c.toNat - 0x10000) / 0x400 - 0xD800) * 0x400
          + (0xDC00 + (c.toNat - 0x10000) % 0x400 - 0xDC00) = c.toNat := by omega
      rw [if_neg hsmall]
      simp only [List.cons_append, List.nil_append, joinPieces, hhigh, hlow, Bool.and_self,
        if_true, hpair, hcode]
  · rw [if_neg hescape]
    rfl

/-- The only code point whose pieces start with the second half of a pair
is that half. -/
theorem code_of_writtenPieces {ascii : Bool} {p : CodePoint} {rest more : List Piece} {low : Nat}
    (h : writtenPieces ascii p ++ rest = .unit low :: more) (hlow : isLowSurrogate low = true) :
    p.code = low := by
  cases p with
  | surrogate offset =>
    cases ascii with
    | true => exact Piece.unit.inj (List.cons.inj h).1
    | false => exact absurd (List.cons.inj h).1 Piece.noConfusion
  | char c =>
    rw [writtenPieces] at h
    split_ifs at h
    · exact absurd (List.cons.inj h).1 Piece.noConfusion
    · exact Piece.unit.inj (List.cons.inj h).1
    · exact Piece.unit.inj (List.cons.inj h).1
    · have hfirst := Piece.unit.inj (List.cons.inj h).1
      have hv : c.toNat < 0xD800 ∨ (0xDFFF < c.toNat ∧ c.toNat < 0x110000) := c.valid
      simp only [isLowSurrogate, Bool.and_eq_true, decide_eq_true_eq] at hlow
      omega
    · exact absurd (List.cons.inj h).1 Piece.noConfusion

/-- The pieces of an unpaired text are put together as the text. -/
theorem joinPieces_flatMap (ascii : Bool) {t : Text} (h : Unpaired t) :
    joinPieces (t.flatMap (writtenPieces ascii)) = t := by
  induction t with
  | nil => rfl
  | cons p rest ih =>
    obtain ⟨hnext, hrest⟩ := unpaired_cons.mp h
    rw [List.flatMap_cons]
    cases p with
    | char c => rw [joinPieces_writtenPieces, ih hrest]
    | surrogate offset =>
      cases ascii with
      | false =>
        change CodePoint.surrogate offset :: joinPieces (rest.flatMap (writtenPieces false)) = _
        rw [ih hrest]
      | true =>
        change joinPieces (.unit (CodePoint.surrogate offset).code
          :: rest.flatMap (writtenPieces true)) = _
        rw [joinPieces_unit, ih hrest, CodePoint.ofCode_code]
        intro low more hstart
        rw [Bool.and_eq_false_imp]
        intro hhigh
        cases rest with
        | nil => cases hstart
        | cons q rest =>
          rw [Bool.eq_false_iff]
          intro hlow
          have hcode := code_of_writtenPieces hstart hlow
          have hpair := hnext q rfl
          rw [hhigh, hcode, hlow] at hpair
          cases hpair

/-- The pieces up to the closing quote are those of the code points
before it. -/
theorem readPieces_quoted (ascii : Bool) (t : Text) (opened : Nat) (rest : Text) :
    readPieces opened (t.flatMap (quotePoint ascii) ++ .char '"' :: rest)
      = .ok (t.flatMap (writtenPieces ascii), rest) := by
  induction t with
  | nil => rfl
  | cons p t ih =>
    have htail : t.flatMap (quotePoint ascii) ++ .char '"' :: rest ≠ [] :=
      List.append_ne_nil_of_right_ne_nil _ (List.cons_ne_nil _ _)
    rw [List.flatMap_cons, List.append_assoc, readPieces_quotePoint ascii p opened htail, ih]
    rfl

/-- An unpaired text within quotes is read as it was. -/
theorem readText_quoted (ascii : Bool) {t : Text} (h : Unpaired t) (rest : Text) :
    readText (t.flatMap (quotePoint ascii) ++ .char '"' :: rest) = .ok (t, rest) := by
  rw [readText, readPieces_quoted]
  exact congrArg (fun t => Except.ok (t, rest)) (joinPieces_flatMap ascii h)

/-! ## Texts that are read -/

/-- The piece does not stand for a surrogate that was written as it
is. -/
def Piece.Sound : Piece → Prop
  | .point p => p.isSurrogate = false
  | .unit n => n < 0x10000

theorem hexValue?_lt {c : Char} {d : Nat} (h : hexValue? c = some d) : d < 16 := by
  have hle {a b : Char} (h : a ≤ b) : a.toNat ≤ b.toNat := h
  unfold hexValue? at h
  split_ifs at h with hdigit hlower hupper
  · have := hle hdigit.2
    have : '9'.toNat = 57 := rfl
    cases h
    omega
  · have := hle hlower.2
    have : 'f'.toNat = 102 := rfl
    cases h
    omega
  · have := hle hupper.2
    have : 'F'.toNat = 70 := rfl
    cases h
    omega

theorem fourHex?_lt {a b c d : CodePoint} {n : Nat} (h : fourHex? a b c d = some n) :
    n < 0x10000 := by
  unfold fourHex? at h
  split at h
  · split at h
    · rename_i ha hb hc hd
      have := hexValue?_lt ha
      have := hexValue?_lt hb
      have := hexValue?_lt hc
      have := hexValue?_lt hd
      cases h
      omega
    · cases h
  · cases h

/-- A piece that was read before others. -/
theorem sound_of_map_cons {x : Reading (List Piece)} {p : Piece} {pieces : List Piece} {rest : Text}
    (hp : p.Sound)
    (ih : ∀ {pieces rest}, x = .ok (pieces, rest) →
      (∀ q ∈ pieces, q.Sound) ∧ rest.isBroken = false)
    (h : (x.map fun (ps, r) => (p :: ps, r)) = .ok (pieces, rest)) :
    (∀ q ∈ pieces, q.Sound) ∧ rest.isBroken = false := by
  obtain ⟨⟨ps, r⟩, hread, heq⟩ := map_eq_ok_iff.mp h
  obtain ⟨rfl, rfl⟩ := Prod.mk.inj heq
  obtain ⟨hps, hr⟩ := ih hread
  exact ⟨List.forall_mem_cons.mpr ⟨hp, hps⟩, hr⟩

/-- What is read of characters is sound, and characters are left. -/
theorem sound_of_readPieces {opened : Nat} {t rest : Text} {pieces : List Piece}
    (ht : t.isBroken = false) (h : readPieces opened t = .ok (pieces, rest)) :
    (∀ p ∈ pieces, p.Sound) ∧ rest.isBroken = false := by
  have hcons {p : CodePoint} {t : Text} (h : Text.isBroken (p :: t) = false) :
      p.isSurrogate = false ∧ t.isBroken = false := Bool.or_eq_false_iff.mp h
  fun_induction readPieces generalizing pieces rest with
  | case1 => cases h
  | case2 t =>
    cases h
    exact ⟨fun _ hp => absurd hp List.not_mem_nil, (hcons ht).2⟩
  | case3 a b c d e t n hn ih =>
    -- an escaped code unit
    have hd := (hcons (hcons (hcons (hcons (hcons (hcons ht).2).2).2).2).2).2
    exact sound_of_map_cons (p := .unit n) (fourHex?_lt hn) (ih hd) h
  | case4 | case5 | case7 | case8 | case9 => cases h
  | case6 letter t _ _ c hc ih =>
    exact sound_of_map_cons (p := .point (.char c)) rfl (ih (hcons (hcons ht).2).2) h
  | case10 p t _ _ _ _ _ _ ih =>
    exact sound_of_map_cons (p := .point p) (hcons ht).1 (ih (hcons ht).2) h

/-- Pieces that are put together start with the second half of a pair
only if the first of them is that half. -/
theorem low_of_joinPieces {pieces : List Piece} (h : ∀ p ∈ pieces, p.Sound) {q : CodePoint}
    (hq : q ∈ (joinPieces pieces).head?) (hlow : isLowSurrogate q.code = true) :
    ∃ more, pieces = .unit q.code :: more := by
  have hunit {n : Nat} {rest : List Piece} (hn : n < 0x10000) :
      ∃ more, Piece.unit n :: rest = .unit (CodePoint.ofCode n).code :: more := by
    rw [CodePoint.code_ofCode (by omega)]
    exact ⟨rest, rfl⟩
  fun_induction joinPieces with
  | case1 => cases hq
  | case2 p rest ih =>
    obtain rfl := Option.some.inj hq
    have hp : p.isSurrogate = false := h _ List.mem_cons_self
    cases p with
    | char c => rw [CodePoint.code, isLowSurrogate_toNat] at hlow; cases hlow
    | surrogate offset => cases hp
  | case3 high low rest hpair ih =>
    obtain rfl := Option.some.inj hq
    simp only [isHighSurrogate, isLowSurrogate, Bool.and_eq_true, decide_eq_true_eq] at hpair hlow
    rw [CodePoint.code_ofCode (by omega)] at hlow
    omega
  | case4 high low rest hpair ih =>
    obtain rfl := Option.some.inj hq
    exact hunit (h _ List.mem_cons_self)
  | case5 n rest hrest ih =>
    obtain rfl := Option.some.inj hq
    exact hunit (h _ List.mem_cons_self)

/-- Sound pieces are put together as an unpaired text. -/
theorem unpaired_joinPieces {pieces : List Piece} (h : ∀ p ∈ pieces, p.Sound) :
    Unpaired (joinPieces pieces) := by
  fun_induction joinPieces with
  | case1 => exact List.isChain_nil
  | case2 p rest ih =>
    obtain ⟨hp, hrest⟩ := List.forall_mem_cons.mp h
    refine unpaired_cons.mpr ⟨fun q _ => ?_, ih hrest⟩
    cases p with
    | char c => rw [CodePoint.code, isHighSurrogate_toNat, Bool.false_and]
    | surrogate offset => cases hp
  | case3 high low rest hpair ih =>
    obtain ⟨-, hrest⟩ := List.forall_mem_cons.mp h
    refine unpaired_cons.mpr ⟨fun q _ => ?_, ih (List.forall_mem_cons.mp hrest).2⟩
    -- A code point of two halves is a character.
    simp only [isHighSurrogate, isLowSurrogate, Bool.and_eq_true, decide_eq_true_eq] at hpair
    rw [CodePoint.code_ofCode (by omega), isHighSurrogate, Bool.and_eq_false_imp,
      Bool.and_eq_true, decide_eq_true_eq, decide_eq_true_eq]
    omega
  | case4 high low rest hpair ih =>
    obtain ⟨hhigh, hrest⟩ := List.forall_mem_cons.mp h
    refine unpaired_cons.mpr ⟨fun q hq => ?_, ih hrest⟩
    rw [CodePoint.code_ofCode (Nat.lt_trans hhigh (by decide)), Bool.eq_false_iff]
    intro hboth
    obtain ⟨more, heq⟩ := low_of_joinPieces hrest hq (Bool.and_eq_true _ _ ▸ hboth).2
    obtain rfl := Piece.unit.inj (List.cons.inj heq).1
    exact hpair hboth
  | case5 n rest hnone ih =>
    obtain ⟨hn, hrest⟩ := List.forall_mem_cons.mp h
    refine unpaired_cons.mpr ⟨fun q hq => ?_, ih hrest⟩
    rw [Bool.eq_false_iff]
    intro hboth
    obtain ⟨more, heq⟩ := low_of_joinPieces hrest hq (Bool.and_eq_true _ _ ▸ hboth).2
    exact hnone _ _ heq

/-- A text that is read is unpaired, if what is read are characters. -/
theorem unpaired_of_readText {t rest s : Text} (ht : t.isBroken = false)
    (h : readText t = .ok (s, rest)) : Unpaired s ∧ rest.isBroken = false := by
  obtain ⟨⟨pieces, r⟩, hread, heq⟩ := map_eq_ok_iff.mp h
  obtain ⟨rfl, rfl⟩ := Prod.mk.inj heq
  obtain ⟨hsound, hrest⟩ := sound_of_readPieces ht hread
  exact ⟨unpaired_joinPieces hsound, hrest⟩

end Lineage.Json
