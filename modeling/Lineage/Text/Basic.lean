/-
Lineage.Text.Basic — texts as lists of code points.

The documents that are read here can spell any code point in an escape,
also a surrogate that is no half of a pair, which no string can hold.
So a text is a list of code points, each a character or a surrogate, and
every string is a text (`Text.ofString`, injective).  Equality and order
of texts are those of the numbers of their code points.
-/

namespace Lineage

/-- A code point: a character, or a surrogate that stands alone, counted
from the first surrogate. -/
inductive CodePoint where
  | char (c : Char)
  | surrogate (offset : Fin 2048)
  deriving DecidableEq, Repr, Inhabited

namespace CodePoint

/-- The number of a code point. -/
def code : CodePoint → Nat
  | .char c => c.toNat
  | .surrogate offset => 0xD800 + offset.val

/-- The code point of a number, which is to be below 0x110000. -/
def ofCode (n : Nat) : CodePoint :=
  if 0xD800 ≤ n ∧ n < 0xE000 then .surrogate (Fin.ofNat 2048 (n - 0xD800))
  else .char (Char.ofNat n)

/-- A character of a class; a surrogate belongs to no class. -/
def isIn (class? : Char → Bool) : CodePoint → Bool
  | .char c => class? c
  | .surrogate _ => false

/-- The code point is a surrogate. -/
def isSurrogate : CodePoint → Bool
  | .char _ => false
  | .surrogate _ => true

theorem ofCode_code (p : CodePoint) : ofCode p.code = p := by
  cases p with
  | char c =>
    have hv : c.toNat < 0xD800 ∨ (0xDFFF < c.toNat ∧ c.toNat < 0x110000) := c.valid
    have hn : ¬ (0xD800 ≤ c.toNat ∧ c.toNat < 0xE000) := by omega
    simp [ofCode, code, hn, Char.ofNat_toNat]
  | surrogate offset =>
    have hlt := offset.isLt
    have hc : (surrogate offset).code = 0xD800 + offset.val := rfl
    rw [ofCode, hc, if_pos ⟨Nat.le_add_right _ _, by omega⟩, Nat.add_sub_cancel_left]
    congr 1
    apply Fin.ext
    exact Nat.mod_eq_of_lt hlt

theorem code_ofCode {n : Nat} (h : n < 0x110000) : (ofCode n).code = n := by
  unfold ofCode
  split
  · rename_i hn
    have hoffset : (n - 0xD800) % 2048 = n - 0xD800 := Nat.mod_eq_of_lt (by omega)
    rw [code, Fin.val_ofNat, hoffset]
    omega
  · rename_i hn
    have hvalid : n.isValidChar := by
      simp only [Nat.isValidChar]
      omega
    rw [code, Char.ofNat, dif_pos hvalid]
    rfl

/-- Code points with the same number are the same. -/
theorem code_inj {p q : CodePoint} : p.code = q.code ↔ p = q :=
  ⟨fun h => by rw [← ofCode_code p, h, ofCode_code], fun h => by rw [h]⟩

end CodePoint

/-- A text: a list of code points. -/
abbrev Text := List CodePoint

namespace Text

/-- Characters as a text. -/
def ofChars (cs : List Char) : Text :=
  cs.map .char

/-- A string as a text. -/
def ofString (s : String) : Text :=
  ofChars s.toList

instance : Coe String Text := ⟨ofString⟩

/-- The characters of a text, unless it holds a surrogate. -/
def chars? : Text → Option (List Char)
  | [] => some []
  | .char c :: rest => (chars? rest).map (c :: ·)
  | .surrogate _ :: _ => none

/-- The text holds a surrogate, so that it is no string. -/
def isBroken (t : Text) : Bool :=
  t.any CodePoint.isSurrogate

/-- The order of texts by the numbers of their code points, the first
difference deciding. -/
def atMost : Text → Text → Bool
  | [], _ => true
  | _ :: _, [] => false
  | p :: a, q :: b => p.code < q.code || (p == q && atMost a b)

/-- A whole number in decimal digits. -/
def decimal (i : Int) : Text :=
  toString i

/-- Texts with another one between them. -/
def join (between : Text) (parts : List Text) : Text :=
  List.intercalate between parts

@[simp] theorem chars?_ofChars (cs : List Char) : chars? (ofChars cs) = some cs := by
  induction cs with
  | nil => rfl
  | cons c rest ih =>
    have h : chars? (CodePoint.char c :: ofChars rest) = (chars? (ofChars rest)).map (c :: ·) := rfl
    rw [ofChars, List.map_cons, ← ofChars, h, ih]
    rfl

@[simp] theorem ofChars_inj {cs ds : List Char} : ofChars cs = ofChars ds ↔ cs = ds := by
  constructor
  · intro h
    have hc : chars? (ofChars cs) = chars? (ofChars ds) := by rw [h]
    simpa using hc
  · intro h
    rw [h]

/-- Strings with the same text are the same. -/
@[simp] theorem ofString_inj {a b : String} : ofString a = ofString b ↔ a = b := by
  constructor
  · intro h
    have hs : a.toList = b.toList := ofChars_inj.1 h
    have ho : String.ofList a.toList = String.ofList b.toList := by rw [hs]
    simpa using ho
  · intro h
    rw [h]

/-- Of two texts one comes first. -/
theorem atMost_total (a b : Text) : (atMost a b || atMost b a) = true := by
  induction a generalizing b with
  | nil => simp [atMost]
  | cons p a ih =>
    cases b with
    | nil => simp [atMost]
    | cons q b =>
      rcases Nat.lt_trichotomy p.code q.code with h | h | h
      · simp [atMost, h]
      · have hpq : p = q := CodePoint.code_inj.1 h
        simpa [atMost, hpq] using ih b
      · simp [atMost, h]

/-- Texts that come before each other are the same. -/
theorem atMost_antisymm {a b : Text} (hab : atMost a b = true) (hba : atMost b a = true) :
    a = b := by
  induction a generalizing b with
  | nil =>
    cases b with
    | nil => rfl
    | cons q b => simp [atMost] at hba
  | cons p a ih =>
    cases b with
    | nil => simp [atMost] at hab
    | cons q b =>
      simp only [atMost, Bool.or_eq_true, decide_eq_true_eq, Bool.and_eq_true, beq_iff_eq]
        at hab hba
      rcases hab with hlt | ⟨rfl, hab⟩
      · rcases hba with hgt | ⟨rfl, _⟩
        · omega
        · omega
      · rcases hba with hgt | ⟨_, hba⟩
        · omega
        · rw [ih hab hba]

theorem atMost_trans {a b c : Text} (hab : atMost a b = true) (hbc : atMost b c = true) :
    atMost a c = true := by
  induction a generalizing b c with
  | nil => simp [atMost]
  | cons p a ih =>
    cases b with
    | nil => simp [atMost] at hab
    | cons q b =>
      cases c with
      | nil => simp [atMost] at hbc
      | cons r c =>
        simp only [atMost, Bool.or_eq_true, decide_eq_true_eq, Bool.and_eq_true, beq_iff_eq]
          at hab hbc ⊢
        rcases hab with hpq | ⟨rfl, hab⟩
        · rcases hbc with hqr | ⟨rfl, _⟩
          · exact Or.inl (Nat.lt_trans hpq hqr)
          · exact Or.inl hpq
        · rcases hbc with hqr | ⟨rfl, hbc⟩
          · exact Or.inl hqr
          · exact Or.inr ⟨rfl, ih hab hbc⟩

/-- A text holds no surrogate exactly if it is a list of characters. -/
theorem chars?_eq_some {t : Text} {cs : List Char} : chars? t = some cs ↔ t = ofChars cs := by
  constructor
  · intro h
    induction t generalizing cs with
    | nil =>
      have hn : cs = [] := by simpa [chars?] using h.symm
      rw [hn]
      rfl
    | cons p rest ih =>
      cases p with
      | char c =>
        simp only [chars?, Option.map_eq_some_iff] at h
        obtain ⟨ds, hd, rfl⟩ := h
        rw [ih hd]
        rfl
      | surrogate offset => simp [chars?] at h
  · intro h
    rw [h, chars?_ofChars]

/-- The texts that are not broken are the lists of characters. -/
theorem isBroken_eq_false_iff {t : Text} : t.isBroken = false ↔ ∃ cs, t = ofChars cs := by
  constructor
  · intro h
    induction t with
    | nil => exact ⟨[], rfl⟩
    | cons p rest ih =>
      rw [isBroken, List.any_cons, Bool.or_eq_false_iff] at h
      cases p with
      | char c =>
        obtain ⟨cs, rfl⟩ := ih h.2
        exact ⟨c :: cs, rfl⟩
      | surrogate offset => cases h.1
  · rintro ⟨cs, rfl⟩
    simp [isBroken, ofChars, CodePoint.isSurrogate]

end Text

end Lineage
