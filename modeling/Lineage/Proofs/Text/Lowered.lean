/-
Lineage.Proofs.Text.Lowered — texts in lower case.

Lower-casing a text twice is lower-casing it once
(`lowercase_lowercase`), and a text without blanks around it has none
after lower-casing (`strip_lowercase`).  Both come down to the table of
lower-case forms: no form is itself the start of another one, nor a
capital I with dot, nor a surrogate, nor a blank.  The table holds runs
of code points, and the forms of a run are looked at as a run as well
(`CaseRun.clearOf`), so that the table is read once for each two runs and
not for each two code points (`settled_lowerRuns`).
-/
import Lineage.Proofs.Group.Ids
import Lineage.Text.Lowercase

namespace Lineage.Text

/-! ## Runs of the table -/

/-- The lower-case form that a run gives to a code point. -/
def CaseRun.form (run : CaseRun) (code : Nat) : Nat :=
  ((code : Int) + run.shift).toNat

/-- The forms of one run are no code points of another one: they stand
before it, behind it, or between its code points. -/
def CaseRun.clearOf (run other : CaseRun) : Bool :=
  Nat.blt (run.form run.last) other.first || Nat.blt other.last (run.form run.first)
    || (Nat.beq (other.stride % 2) 0 && (Nat.beq (run.stride % 2) 0 || Nat.beq run.first run.last)
      && Nat.beq ((run.form run.first + other.first) % 2) 1)

/-- The blanks, as ranges of code points. -/
def blankRanges : List (Nat × Nat) :=
  [(0x9, 0xD), (0x1C, 0x20), (0x85, 0x85), (0xA0, 0xA0), (0x1680, 0x1680), (0x2000, 0x200A),
    (0x2028, 0x2029), (0x202F, 0x202F), (0x205F, 0x205F), (0x3000, 0x3000)]

/-- The capital I with dot, the surrogates and the blanks. -/
def formless : List (Nat × Nat) :=
  (0x130, 0x130) :: (0xD800, 0xDFFF) :: blankRanges

/-- The forms of a run are code points that lower-casing leaves alone. -/
def CaseRun.settled (run : CaseRun) : Bool :=
  decide (0 ≤ (run.first : Int) + run.shift) && run.form run.last < 0x110000
    && formless.all (fun r => run.form run.last < r.1 || r.2 < run.form run.first)
    && lowerRuns.all run.clearOf

theorem settled_lowerRuns : lowerRuns.all CaseRun.settled = true := by
  decide +kernel

theorem inRanges_of_isBlank {c : Char} (h : isBlank c = true) :
    inRanges blankRanges c.toNat = true := by
  simp only [isBlank, isSpace, inRanges, blankRanges, List.any_cons, List.any_nil, Bool.or_eq_true,
    Bool.and_eq_true, decide_eq_true_eq, beq_iff_eq, Bool.or_false] at h ⊢
  omega

namespace CaseRun

variable {run other : CaseRun} {code : Nat}

/-- The forms of a run stand as far from each other as its code points. -/
theorem form_eq (h : run.covers code = true) (hs : 0 ≤ (run.first : Int) + run.shift) :
    run.form code = run.form run.first + (code - run.first)
      ∧ run.form code ≤ run.form run.last := by
  simp only [covers, Bool.and_eq_true, decide_eq_true_eq] at h
  simp only [form]
  omega

/-- The code points of a run with an even stride are all even or all
odd. -/
theorem parity_of_covers (h : run.covers code = true) (hs : run.stride % 2 = 0) :
    (code - run.first) % 2 = 0 := by
  simp only [covers, Bool.and_eq_true, beq_iff_eq] at h
  have hdvd : 2 ∣ code - run.first :=
    Nat.dvd_trans (Nat.dvd_of_mod_eq_zero hs) (Nat.dvd_of_mod_eq_zero h.2)
  exact Nat.mod_eq_zero_of_dvd hdvd

theorem not_covers_of_clearOf (h : run.clearOf other = true) (hcode : run.covers code = true)
    (hs : 0 ≤ (run.first : Int) + run.shift) : other.covers (run.form code) = false := by
  rw [Bool.eq_false_iff]
  intro hother
  obtain ⟨hform, hle⟩ := form_eq hcode hs
  have hparity := parity_of_covers hcode
  have hparity' := parity_of_covers hother
  simp only [covers, Bool.and_eq_true, decide_eq_true_eq] at hcode hother
  simp only [clearOf, Bool.or_eq_true, Bool.and_eq_true, Nat.blt_eq, Nat.beq_eq] at h
  rcases h with (h | h) | ⟨⟨heven, hrun⟩, hodd⟩
  · omega
  · omega
  · have hcross := hparity' heven
    rcases hrun with hrun | hrun
    · have := hparity hrun
      omega
    · omega

end CaseRun

/-! ## Code points -/

/-- Lower-casing leaves the code point alone, wherever it stands. -/
structure Lowered (p : CodePoint) : Prop where
  ne_sigma : p ≠ .char 'Σ'
  ne_dotted : p ≠ .char 'İ'
  lowerPoint : lowerPoint p = p

instance (p : CodePoint) : Decidable (Lowered p) :=
  decidable_of_iff (p ≠ .char 'Σ' ∧ p ≠ .char 'İ' ∧ Text.lowerPoint p = p)
    ⟨fun h => ⟨h.1, h.2.1, h.2.2⟩, fun h => ⟨h.ne_sigma, h.ne_dotted, h.lowerPoint⟩⟩

/-- What lower-casing makes of code points: no surrogate, no blank, and
nothing that it would change again. -/
structure Form (p : CodePoint) : Prop where
  lowered : Lowered p
  not_surrogate : p.isSurrogate = false
  not_blank : p.isIn isBlank = false

instance (p : CodePoint) : Decidable (Form p) :=
  decidable_of_iff (Lowered p ∧ p.isSurrogate = false ∧ p.isIn isBlank = false)
    ⟨fun h => ⟨h.1, h.2.1, h.2.2⟩, fun h => ⟨h.lowered, h.not_surrogate, h.not_blank⟩⟩

/-- The code point of a number that is no surrogate's is a character. -/
theorem isSurrogate_ofCode {n : Nat} (hn : ¬ (0xD800 ≤ n ∧ n < 0xE000)) :
    (CodePoint.ofCode n).isSurrogate = false := by
  rw [CodePoint.ofCode, if_neg hn]
  rfl

/-- A form of the table is one. -/
theorem form_of_covers {run : CaseRun} {code : Nat} (hrun : run ∈ lowerRuns)
    (hcode : run.covers code = true) : Form (CodePoint.ofCode (run.form code)) := by
  have hsettled := List.all_eq_true.mp settled_lowerRuns run hrun
  simp only [CaseRun.settled, Bool.and_eq_true, decide_eq_true_eq, List.all_eq_true,
    Bool.or_eq_true] at hsettled
  obtain ⟨⟨⟨hshift, hbound⟩, haway⟩, hclear⟩ := hsettled
  obtain ⟨hform, hle⟩ := CaseRun.form_eq hcode hshift
  have hout : ∀ r ∈ formless, ¬ (r.1 ≤ run.form code ∧ run.form code ≤ r.2) := by
    intro r hr hbetween
    have := haway r hr
    omega
  have huncovered : ∀ other ∈ lowerRuns, other.covers (run.form code) = false := fun other hother =>
    CaseRun.not_covers_of_clearOf (hclear other hother) hcode hshift
  have hsurrogate : ¬ (0xD800 ≤ run.form code ∧ run.form code < 0xE000) := fun hbetween =>
    hout (0xD800, 0xDFFF) (by simp [formless]) (by omega)
  have hnumber : (CodePoint.ofCode (run.form code)).code = run.form code :=
    CodePoint.code_ofCode (by omega)
  have hchar := isSurrogate_ofCode hsurrogate
  generalize hp : CodePoint.ofCode (run.form code) = p at hnumber hchar
  rw [← hnumber] at huncovered hout
  refine ⟨⟨?_, ?_, ?_⟩, hchar, ?_⟩
  · rintro rfl
    have hsigma : ∃ other ∈ lowerRuns, other.covers (CodePoint.char 'Σ').code = true := by
      decide +kernel
    obtain ⟨other, hother, hcovers⟩ := hsigma
    rw [huncovered other hother] at hcovers
    cases hcovers
  · rintro rfl
    exact hout (0x130, 0x130) (by simp [formless]) (by decide)
  · have hnone : lowerRuns.find? (·.covers p.code) = none := by
      rw [List.find?_eq_none]
      intro other hother
      rw [huncovered other hother]
      exact Bool.false_ne_true
    rw [lowerPoint, hnone]
  · cases p with
    | surrogate offset => rfl
    | char c =>
      rw [CodePoint.isIn, Bool.eq_false_iff]
      intro hblank
      obtain ⟨r, hr, hbetween⟩ := List.any_eq_true.mp (inRanges_of_isBlank hblank)
      simp only [Bool.and_eq_true, decide_eq_true_eq] at hbetween
      exact hout r (List.mem_cons_of_mem _ (List.mem_cons_of_mem _ hr)) hbetween

/-- A code point that the table does not change, or its form. -/
theorem lowerPoint_cases (p : CodePoint) : lowerPoint p = p ∨ Form (lowerPoint p) := by
  unfold lowerPoint
  cases hrun : lowerRuns.find? (·.covers p.code) with
  | none => exact .inl rfl
  | some run =>
    have hcovers : run.covers p.code = true := by simpa using List.find?_some hrun
    exact .inr (form_of_covers (List.mem_of_find?_eq_some hrun) hcovers)

section LowerAt

variable {before after : Text} {p q : CodePoint}

theorem lowerAt_of_ne (hsigma : p ≠ .char 'Σ') (hdotted : p ≠ .char 'İ') :
    lowerAt before p after = [lowerPoint p] := by
  unfold lowerAt
  split
  · exact absurd rfl hsigma
  · exact absurd rfl hdotted
  · rfl

theorem lowerAt_of_lowered (h : Lowered p) : lowerAt before p after = [p] := by
  rw [lowerAt_of_ne h.ne_sigma h.ne_dotted, h.lowerPoint]

/-- Lower-casing keeps a code point that it leaves alone, and makes forms
of any other. -/
theorem mem_lowerAt (h : q ∈ lowerAt before p after) : (q = p ∧ Lowered p) ∨ Form q := by
  by_cases hsigma : p = .char 'Σ'
  · right
    subst hsigma
    have hforms : lowerAt before (.char 'Σ') after
        = if leadsToCased before && !leadsToCased after then [.char 'ς'] else [.char 'σ'] := rfl
    have hmem : q = .char 'ς' ∨ q = .char 'σ' := by
      rw [hforms] at h
      split at h
      · exact .inl (List.mem_singleton.mp h)
      · exact .inr (List.mem_singleton.mp h)
    rcases hmem with rfl | rfl <;> decide +kernel
  · by_cases hdotted : p = .char 'İ'
    · right
      subst hdotted
      have hforms : lowerAt before (.char 'İ') after = [.char 'i', .char '\u0307'] := rfl
      have hmem : q = .char 'i' ∨ q = .char '\u0307' := by
        rw [hforms] at h
        simpa using h
      rcases hmem with rfl | rfl <;> decide +kernel
    · rw [lowerAt_of_ne hsigma hdotted, List.mem_singleton] at h
      subst h
      rcases lowerPoint_cases p with hkept | hform
      · exact .inl ⟨hkept, hsigma, hdotted, hkept⟩
      · exact .inr hform

theorem lowerAt_ne_nil : lowerAt before p after ≠ [] := by
  unfold lowerAt
  split
  · split <;> exact List.cons_ne_nil _ _
  · exact List.cons_ne_nil _ _
  · exact List.cons_ne_nil _ _

end LowerAt

/-! ## Texts -/

theorem mem_lowerFrom {before t : Text} {q : CodePoint} (h : q ∈ lowerFrom before t) :
    ∃ p ∈ t, (q = p ∧ Lowered p) ∨ Form q := by
  induction t generalizing before with
  | nil => cases h
  | cons p rest ih =>
    rw [lowerFrom, List.mem_append] at h
    rcases h with h | h
    · exact ⟨p, List.mem_cons_self, mem_lowerAt h⟩
    · obtain ⟨p', hp', hq⟩ := ih h
      exact ⟨p', List.mem_cons_of_mem _ hp', hq⟩

theorem lowerFrom_of_lowered {before t : Text} (h : ∀ p ∈ t, Lowered p) :
    lowerFrom before t = t := by
  induction t generalizing before with
  | nil => rfl
  | cons p rest ih =>
    rw [lowerFrom, lowerAt_of_lowered (h p List.mem_cons_self),
      ih fun q hq => h q (List.mem_cons_of_mem _ hq)]
    rfl

/-- Lower-casing twice is lower-casing once. -/
theorem lowercase_lowercase (t : Text) : lowercase (lowercase t) = lowercase t := by
  refine lowerFrom_of_lowered fun q hq => ?_
  obtain ⟨p, -, ⟨rfl, hp⟩ | hq⟩ := mem_lowerFrom hq
  · exact hp
  · exact hq.lowered

/-- A text without surrogates has none in lower case. -/
theorem isBroken_lowercase {t : Text} (h : t.isBroken = false) : (lowercase t).isBroken = false := by
  rw [isBroken, List.any_eq_false] at h ⊢
  intro q hq
  obtain ⟨p, hp, ⟨rfl, -⟩ | hq⟩ := mem_lowerFrom hq
  · exact h q hp
  · simp [hq.not_surrogate]

/-! ## Blanks around a text -/

/-- A text has no blanks around it exactly if its first and its last code
point are none. -/
theorem strip_eq_self_iff {t : Text} :
    t.strip = t ↔ ∀ h : t ≠ [], (t.head h).isIn isBlank = false
      ∧ (t.getLast h).isIn isBlank = false := by
  have hstrip : t.strip = (t.dropWhile (CodePoint.isIn isBlank)).rdropWhile (CodePoint.isIn isBlank) :=
    rfl
  constructor
  · intro h hne
    have hprefix := List.rdropWhile_prefix (CodePoint.isIn isBlank)
      (t.dropWhile (CodePoint.isIn isBlank))
    have hstart : t.dropWhile (CodePoint.isIn isBlank) = t := by
      refine (List.dropWhile_suffix _).eq_of_length_le ?_
      rw [hstrip] at h
      have hlength := hprefix.length_le
      rw [h] at hlength
      exact hlength
    have hend : t.rdropWhile (CodePoint.isIn isBlank) = t := by
      rw [hstrip, hstart] at h
      exact h
    refine ⟨?_, ?_⟩
    · have hhead := List.dropWhile_eq_self_iff.mp hstart (List.length_pos_of_ne_nil hne)
      rw [← List.head_eq_getElem hne] at hhead
      exact Bool.eq_false_iff.mpr hhead
    · exact Bool.eq_false_iff.mpr (List.rdropWhile_eq_self_iff.mp hend hne)
  · intro h
    have hstart : t.dropWhile (CodePoint.isIn isBlank) = t := by
      rw [List.dropWhile_eq_self_iff]
      intro hlength
      rw [← List.head_eq_getElem (List.ne_nil_of_length_pos hlength)]
      exact Bool.eq_false_iff.mp (h _).1
    rw [hstrip, hstart, List.rdropWhile_eq_self_iff]
    exact fun hne => Bool.eq_false_iff.mp (h hne).2

theorem lowerFrom_ne_nil {before t : Text} (h : t ≠ []) : lowerFrom before t ≠ [] := by
  cases t with
  | nil => exact absurd rfl h
  | cons p rest =>
    rw [lowerFrom]
    exact List.append_ne_nil_of_left_ne_nil lowerAt_ne_nil _

/-- The last code point of a text in lower case comes from the last one of
the text. -/
theorem getLast_lowerFrom (before : Text) {t : Text} (h : t ≠ []) :
    ∃ b a, (lowerFrom before t).getLast (lowerFrom_ne_nil h) ∈ lowerAt b (t.getLast h) a := by
  induction t generalizing before with
  | nil => exact absurd rfl h
  | cons p rest ih =>
    by_cases hrest : rest = []
    · subst hrest
      refine ⟨before, [], ?_⟩
      simp only [lowerFrom, List.append_nil, List.getLast_singleton]
      exact List.getLast_mem lowerAt_ne_nil
    · obtain ⟨b, a, hlast⟩ := ih (p :: before) hrest
      refine ⟨b, a, ?_⟩
      simp only [lowerFrom, List.getLast_cons hrest,
        List.getLast_append_of_ne_nil _ (lowerFrom_ne_nil hrest)]
      exact hlast

/-- Lower-casing puts no blanks around a text. -/
theorem strip_lowercase {t : Text} (h : t.strip = t) : (lowercase t).strip = lowercase t := by
  have hform : ∀ {b a p q}, p.isIn isBlank = false → q ∈ lowerAt b p a → q.isIn isBlank = false := by
    intro b a p q hp hq
    rcases mem_lowerAt hq with ⟨rfl, -⟩ | hq
    · exact hp
    · exact hq.not_blank
  cases t with
  | nil => rfl
  | cons p rest =>
    have hne : p :: rest ≠ [] := List.cons_ne_nil p rest
    obtain ⟨hfirst, hlast⟩ := strip_eq_self_iff.mp h hne
    refine strip_eq_self_iff.mpr fun hlower => ⟨?_, ?_⟩
    · refine hform (b := []) (a := rest) hfirst ?_
      simp only [lowercase, lowerFrom, List.head_append_of_ne_nil lowerAt_ne_nil]
      exact List.head_mem lowerAt_ne_nil
    · obtain ⟨b, a, hmem⟩ := getLast_lowerFrom [] hne
      exact hform hlast hmem

end Lineage.Text
