/-
Lineage.Proofs.Json.LineEnds — layouts and the ends of lines.

A file is read with every line end written as one line feed.  Line ends
stand in the white space of a document alone, since between quotes they are
escaped, and what is left of them is white space.  So the document keeps
its value (`Layout.unified`).  That the parts of a document may be taken
one by one rests on their edges: a carriage return at the end of one part
and a line feed at the start of the next would be one line end, but of two
neighbours one is not white space (`Firm`).
-/
import Lineage.Proofs.Json.Layout
import Lineage.Text.Lines

namespace Lineage

/-! ## Line ends -/

namespace Text

/-- The text with every line end written as one line feed. -/
def unified : Text → Text
  | [] => []
  | .char '\r' :: .char '\n' :: rest => .char '\n' :: unified rest
  | .char '\r' :: rest => .char '\n' :: unified rest
  | p :: rest => p :: unified rest

section Unified

variable {p : CodePoint} {t u : Text}

theorem unified_cons (h : p ≠ .char '\r') (t : Text) : unified (p :: t) = p :: unified t := by
  rw [unified] <;> simp [h]

theorem unified_return (h : t.head? ≠ some (.char '\n')) :
    unified (.char '\r' :: t) = .char '\n' :: unified t := by
  rw [unified]
  rintro rest rfl
  exact h rfl

theorem ofChars_unifyLines (cs : List Char) : ofChars (unifyLines cs) = unified (.ofChars cs) := by
  fun_induction unifyLines cs with
  | case1 => rfl
  | case2 rest ih => exact congrArg (CodePoint.char '\n' :: ·) ih
  | case3 rest hrest ih =>
    have hhead : (ofChars rest).head? ≠ some (.char '\n') := by
      cases rest with
      | nil => simp [ofChars]
      | cons c rest =>
        intro hc
        exact hrest rest (congrArg (· :: rest) (CodePoint.char.inj (Option.some.inj hc)))
    exact (congrArg (CodePoint.char '\n' :: ·) ih).trans (unified_return hhead).symm
  | case4 c rest _ hc ih =>
    have hc : CodePoint.char c ≠ .char '\r' := fun heq => hc (CodePoint.char.inj heq)
    exact (congrArg (CodePoint.char c :: ·) ih).trans (unified_cons hc _).symm

/-- Two parts of a text may be taken one by one, unless a line end stands
across their border. -/
theorem unified_append
    (h : t.getLast? ≠ some (.char '\r') ∨ u.head? ≠ some (.char '\n')) :
    unified (t ++ u) = unified t ++ unified u := by
  have hrest {p : CodePoint} {rest : Text} (h : (p :: rest).getLast? ≠ some (.char '\r')) :
      rest.getLast? ≠ some (.char '\r') := by
    cases rest with
    | nil => exact nofun
    | cons q rest => exact h
  fun_induction unified t with
  | case1 => rfl
  | case2 rest ih =>
    exact congrArg (CodePoint.char '\n' :: ·) (ih (h.imp_left fun hlast => hrest (hrest hlast)))
  | case3 rest hfeed ih =>
    cases rest with
    | nil => exact unified_return (h.resolve_left fun hlast => hlast rfl)
    | cons q rest =>
      have hq : (q :: (rest ++ u)).head? ≠ some (.char '\n') := fun hq =>
        hfeed rest (congrArg (· :: rest) (Option.some.inj hq))
      exact (unified_return hq).trans (congrArg (CodePoint.char '\n' :: ·) (ih h))
  | case4 p rest _ hp ih =>
    rw [List.cons_append, unified_cons hp, ih (h.imp_left hrest), List.cons_append]

end Unified

/-- Nothing in the text ends a line. -/
def Straight (t : Text) : Prop :=
  ∀ p ∈ t, p ≠ .char '\n' ∧ p ≠ .char '\r'

theorem Straight.unified {t : Text} (h : Straight t) : t.unified = t := by
  induction t with
  | nil => rfl
  | cons p t ih =>
    obtain ⟨hp, ht⟩ := List.forall_mem_cons.mp h
    rw [unified_cons hp.2, ih ht]

theorem Straight.append {t u : Text} (ht : Straight t) (hu : Straight u) : Straight (t ++ u) :=
  List.forall_mem_append.mpr ⟨ht, hu⟩

/-- No line end reaches from the text into what is before or behind it. -/
structure Firm (t : Text) : Prop where
  start : ∃ p, t.head? = some p ∧ p ≠ .char '\n'
  stop : ∃ p, t.getLast? = some p ∧ p ≠ .char '\r'

namespace Firm

variable {t : Text}

theorem before (h : Firm t) (s u : Text) :
    unified (s ++ (t ++ u)) = unified s ++ unified (t ++ u) := by
  obtain ⟨p, hp, hne⟩ := h.start
  refine unified_append (.inr ?_)
  rw [List.head?_append, hp]
  simpa using hne

theorem behind (h : Firm t) (u : Text) : unified (t ++ u) = unified t ++ unified u := by
  obtain ⟨p, hp, hne⟩ := h.stop
  refine unified_append (.inl ?_)
  rw [hp]
  simpa using hne

theorem of_straight (h : Straight t) (hne : t ≠ []) : Firm t :=
  ⟨⟨t.head hne, List.head?_eq_some_head hne, (h _ (List.head_mem hne)).1⟩,
    ⟨t.getLast hne, List.getLast?_eq_some_getLast hne, (h _ (List.getLast_mem hne)).2⟩⟩

/-- A text between marks is firm. -/
theorem between {p q : CodePoint} (hp : p ≠ .char '\n') (hq : q ≠ .char '\r') (t : Text) :
    Firm (p :: (t ++ [q])) :=
  ⟨⟨p, rfl, hp⟩, ⟨q, by rw [← List.cons_append, List.getLast?_concat], hq⟩⟩

end Firm

end Text

namespace Json

open Text (unified Straight Firm)

/-! ## Tokens -/

theorem straight_ofChars {ds : List Char} (h : ∀ c ∈ ds, isDigit c = true) :
    Straight (Text.ofChars ds) := by
  intro p hp
  obtain ⟨c, hc, rfl⟩ := List.mem_map.mp hp
  have hdigit := h c hc
  constructor <;> rintro ⟨⟩ <;> exact absurd hdigit (by decide)

theorem straight_fractionText {fraction : List Char} (h : fraction = [] ∨ Digits fraction) :
    Straight (fractionText fraction) := by
  rcases h with rfl | h
  · exact fun p hp => absurd hp List.not_mem_nil
  · rw [fractionText, if_neg h.ne_nil]
    exact List.forall_mem_cons.mpr ⟨by decide, straight_ofChars h.digit⟩

theorem Exponent.straight {exponent : Text} {e : Int} (h : Exponent exponent e) :
    Straight exponent := by
  have hmark {mark : Char} (h : mark = 'e' ∨ mark = 'E') :
      CodePoint.char mark ≠ .char '\n' ∧ CodePoint.char mark ≠ .char '\r' := by
    rcases h with rfl | rfl <;> decide
  cases h with
  | plus hm hsign h =>
    refine List.forall_mem_cons.mpr ⟨hmark hm, ?_⟩
    refine Straight.append ?_ (straight_ofChars h.digit)
    rcases hsign with rfl | rfl <;> simp [Straight]
  | minus hm h =>
    exact List.forall_mem_cons.mpr
      ⟨hmark hm, List.forall_mem_cons.mpr ⟨by decide, straight_ofChars h.digit⟩⟩

theorem Numeral.straight {number : Text} {v : Value} (h : Numeral number v) :
    Straight number := by
  have hsign (negative : Bool) : Straight (signText negative) := by
    cases negative <;> simp [Straight, signText]
  cases h with
  | integer negative hwhole => exact (hsign _).append (straight_ofChars hwhole.digit)
  | decimal negative hwhole hfraction =>
    exact (hsign _).append ((straight_ofChars hwhole.digit).append
      (straight_fractionText (.inr hfraction)))
  | power negative hwhole hfraction hexponent =>
    exact (hsign _).append ((straight_ofChars hwhole.digit).append
      ((straight_fractionText hfraction).append hexponent.straight))

theorem straight_word {name : String} {v : Value} (h : (name, v) ∈ words) :
    Straight (Text.ofString name) := by
  have hall : ∀ w ∈ words, ∀ p ∈ Text.ofString w.1, p ≠ .char '\n' ∧ p ≠ .char '\r' := by decide
  exact hall _ h

theorem straight_shortEscape? {p : CodePoint} {c : Char} (h : shortEscape? p = some c) :
    p ≠ .char '\n' ∧ p ≠ .char '\r' := by
  constructor <;> rintro rfl <;> cases h

theorem straight_fourHex? {a b c d : CodePoint} {n : Nat} (h : fourHex? a b c d = some n) :
    Straight [a, b, c, d] := by
  have hdigit {c : Char} {k : Nat} (h : hexValue? c = some k) :
      CodePoint.char c ≠ .char '\n' ∧ CodePoint.char c ≠ .char '\r' := by
    constructor <;> rintro ⟨⟩ <;> simp [hexValue?] at h
  unfold fourHex? at h
  split at h
  · split at h
    · rename_i ha hb hc hd
      simp only [Straight, List.forall_mem_cons]
      exact ⟨hdigit ha, hdigit hb, hdigit hc, hdigit hd, fun p hp => absurd hp List.not_mem_nil⟩
    · cases h
  · cases h

/-- Between quotes line ends are escaped. -/
theorem Quoted.straight {t rest : Text} {pieces : List Piece} (h : Quoted t pieces rest)
    (hrest : Straight rest) : Straight t := by
  induction h with
  | close rest => exact List.forall_mem_cons.mpr ⟨by decide, hrest⟩
  | @plain p _ _ _ _ _ hcontrol _ ih =>
    refine List.forall_mem_cons.mpr ⟨?_, ih hrest⟩
    constructor <;> rintro rfl <;> exact absurd hcontrol (by decide)
  | letter hletter _ ih =>
    exact List.forall_mem_cons.mpr
      ⟨by decide, List.forall_mem_cons.mpr ⟨straight_shortEscape? hletter, ih hrest⟩⟩
  | unit hdigits _ ih =>
    have hunit : Straight [.char '\\', .char 'u'] := by simp [Straight]
    exact hunit.append ((straight_fourHex? hdigits).append (ih hrest))

/-! ## Layouts -/

theorem White.unified {gap : Text} (h : White gap) : White gap.unified := by
  have hfeed : (CodePoint.char '\n').isIn isGap = true := rfl
  fun_induction Text.unified gap with
  | case1 => exact h
  | case2 rest ih =>
    exact List.forall_mem_cons.mpr ⟨hfeed, ih fun p hp => h p (by simp [hp])⟩
  | case3 rest _ ih =>
    exact List.forall_mem_cons.mpr ⟨hfeed, ih fun p hp => h p (List.mem_cons_of_mem _ hp)⟩
  | case4 p rest _ _ ih =>
    obtain ⟨hp, hrest⟩ := List.forall_mem_cons.mp h
    exact List.forall_mem_cons.mpr ⟨hp, ih hrest⟩

/-- A label with the line ends of its white space written as line
feeds. -/
def Label.unified (l : Label) : Label :=
  { l with
    before := l.before.unified
    behind := l.behind.unified
    whiteBefore := l.whiteBefore.unified
    whiteBehind := l.whiteBehind.unified }

theorem Label.firm_field (l : Label) {value : Text} (h : Firm value) : Firm (l.field value) := by
  obtain ⟨p, hp, hne⟩ := h.stop
  refine ⟨⟨_, rfl, by decide⟩, p, ?_, hne⟩
  simp [field, List.getLast?_cons, List.getLast?_append, hp]

theorem Label.unified_field (l : Label) {value : Text} (h : Firm value) :
    (l.field value).unified = l.unified.field value.unified := by
  have hquoted := l.isQuoted.straight fun p hp => absurd hp List.not_mem_nil
  have hfirm : Firm l.quoted := .of_straight hquoted fun hnil => by
    have hlt := l.isQuoted.length_lt
    rw [hnil] at hlt
    exact Nat.not_lt_zero _ hlt
  have hbefore (t : Text) : Text.unified (l.before ++ .char ':' :: t)
      = l.before.unified ++ .char ':' :: t.unified := by
    rw [Text.unified_append (.inr (by simp)), Text.unified_cons (by decide)]
  have hbehind := h.before l.behind []
  rw [List.append_nil] at hbehind
  rw [field, Text.unified_cons (by decide), hfirm.behind, hquoted.unified, hbefore, hbehind]
  rfl

theorem Listed.unified {body : Text} {parts : List Text} (h : Listed body parts)
    (hfirm : ∀ part ∈ parts, Firm part) : Listed body.unified (parts.map Text.unified) := by
  induction h with
  | none hgap => exact .none hgap.unified
  | last hbefore hbehind =>
    have hpart := hfirm _ List.mem_cons_self
    rw [hpart.before, hpart.behind]
    exact .last hbefore.unified hbehind.unified
  | @more before part behind body next parts hbefore hbehind _ ih =>
    obtain ⟨hpart, hmore⟩ := List.forall_mem_cons.mp hfirm
    have hcomma : Text.unified (behind ++ .char ',' :: body)
        = behind.unified ++ .char ',' :: body.unified := by
      rw [Text.unified_append (.inr (by simp)), Text.unified_cons (by decide)]
    rw [hpart.before, hpart.behind, hcomma]
    exact .more hbefore.unified hbehind.unified (ih hmore)

/-- A rendering stays one of the same value, and it is firm. -/
theorem Renders.unified {t : Text} {v : Value} (h : Renders t v) :
    Renders t.unified v ∧ Firm t := by
  induction h with
  | word hword =>
    have hflat := straight_word hword
    rw [hflat.unified]
    exact ⟨.word hword, .of_straight hflat (ofString_ne_nil_of_mem_words hword)⟩
  | number hnumber =>
    have hflat := hnumber.straight
    rw [hflat.unified]
    refine ⟨.number hnumber, .of_straight hflat fun hnil => ?_⟩
    obtain ⟨c, r, -, rfl | rfl⟩ := hnumber.opensNumber <;> cases hnil
  | text hquoted =>
    have hflat : Straight (.char '"' :: _) := List.forall_mem_cons.mpr
      ⟨by decide, hquoted.straight fun p hp => absurd hp List.not_mem_nil⟩
    rw [hflat.unified]
    exact ⟨.text hquoted, .of_straight hflat (List.cons_ne_nil _ _)⟩
  | @array body items hbody _ ih =>
    refine ⟨?_, .between (by decide) (by decide) body⟩
    have hbody := hbody.unified fun part hpart => by
      obtain ⟨i, hi, rfl⟩ := List.mem_map.mp hpart
      exact (ih i hi).2
    have hitems : items.map (·.2) = (items.map fun i => (Text.unified i.1, i.2)).map (·.2) := by
      rw [List.map_map]
      rfl
    rw [Text.unified_cons (by decide), Text.unified_append (.inr (by simp)), hitems]
    refine .array ?_ fun i hi => ?_
    · rw [List.map_map] at hbody ⊢
      exact hbody
    · obtain ⟨j, hj, rfl⟩ := List.mem_map.mp hi
      exact (ih j hj).1
  | @object body fields hbody _ ih =>
    refine ⟨?_, .between (by decide) (by decide) body⟩
    have hbody := hbody.unified fun part hpart => by
      obtain ⟨f, hf, rfl⟩ := List.mem_map.mp hpart
      exact f.1.firm_field (ih f hf).2
    have hparts : (fields.map fun f => f.1.field f.2.1).map Text.unified
        = (fields.map fun f => (f.1.unified, f.2.1.unified, f.2.2)).map
          fun f => f.1.field f.2.1 := by
      rw [List.map_map, List.map_map]
      exact List.map_congr_left fun f hf => f.1.unified_field (ih f hf).2
    have hfields : (fields.map fun f => (Scalar.text f.1.name, f.2.2))
        = (fields.map fun f => (f.1.unified, f.2.1.unified, f.2.2)).map
          fun f => (.text f.1.name, f.2.2) := by
      rw [List.map_map]
      rfl
    rw [Text.unified_cons (by decide), Text.unified_append (.inr (by simp)), hfields]
    refine .object (hparts ▸ hbody) fun f hf => ?_
    obtain ⟨g, hg, rfl⟩ := List.mem_map.mp hf
    exact (ih g hg).1

/-- A layout stays one of the same value. -/
theorem Layout.unified {t : Text} {v : Value} (h : Layout t v) : Layout t.unified v := by
  obtain ⟨before, body, behind, hbefore, hbehind, hbody, rfl⟩ := h
  obtain ⟨hrenders, hfirm⟩ := hbody.unified
  rw [hfirm.before, hfirm.behind]
  exact ⟨_, _, _, hbefore.unified, hbehind.unified, hrenders, rfl⟩

end Json

end Lineage
