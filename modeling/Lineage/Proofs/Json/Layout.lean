/-
Lineage.Proofs.Json.Layout — documents whatever their layout.

A text renders a value if it is the value token by token, with white space
between the tokens (`Renders`, `Layout`).  The value is the one that is
written: its objects may repeat a name.  What reading comes to depends on
that value and on the room alone (`outcome`, `Layout.readWithin`), also
where a limit of the reader is met: on the way through the value the first
integer with too many digits, or the first array or object without room,
decides.  The positions of faults depend on the layout, and these faults
do not tell theirs.

The induction is on the rendering.  That a part is read as it should be
holds whatever ends it, as long as the fuel lasts for its text
(`ReadsAs`), so that the readers of items and of fields can go on behind
it (`reaches_items`, `reaches_fields`).
-/
import Lineage.Proofs.Json.Limits
import Mathlib.Data.List.Induction

namespace Lineage.Json

/-! ## Layouts -/

/-- Nothing but white space. -/
def White (gap : Text) : Prop :=
  ∀ p ∈ gap, p.isIn isGap = true

/-- Parts between brackets: commas between them, and white space around
each. -/
inductive Listed : Text → List Text → Prop
  | none {gap : Text} (hgap : White gap) : Listed gap []
  | last {before part behind : Text} (hbefore : White before) (hbehind : White behind) :
      Listed (before ++ (part ++ behind)) [part]
  | more {before part behind body next : Text} {parts : List Text} (hbefore : White before)
      (hbehind : White behind) (h : Listed body (next :: parts)) :
      Listed (before ++ (part ++ (behind ++ .char ',' :: body))) (part :: next :: parts)

/-- The name of a field between its quotes, and the white space before and
behind the colon. -/
structure Label where
  quoted : Text
  pieces : List Piece
  before : Text
  behind : Text
  isQuoted : Quoted quoted pieces []
  whiteBefore : White before
  whiteBehind : White behind

namespace Label

/-- The name. -/
def name (l : Label) : Text :=
  joinPieces l.pieces

/-- The text of a field with this label. -/
def field (l : Label) (value : Text) : Text :=
  .char '"' :: (l.quoted ++ (l.before ++ .char ':' :: (l.behind ++ value)))

end Label

/-- The text is the value, token by token. -/
inductive Renders : Text → Value → Prop
  | word {name : String} {v : Value} (hword : (name, v) ∈ words) : Renders (Text.ofString name) v
  | number {number : Text} {v : Value} (hnumber : Numeral number v) : Renders number v
  | text {quoted : Text} {pieces : List Piece} (hquoted : Quoted quoted pieces []) :
      Renders (.char '"' :: quoted) (.text (joinPieces pieces))
  | array {body : Text} {items : List (Text × Value)} (hbody : Listed body (items.map (·.1)))
      (h : ∀ i ∈ items, Renders i.1 i.2) :
      Renders (.char '[' :: (body ++ [.char ']'])) (.array (items.map (·.2)))
  | object {body : Text} {fields : List (Label × Text × Value)}
      (hbody : Listed body (fields.map fun f => f.1.field f.2.1))
      (h : ∀ f ∈ fields, Renders f.2.1 f.2.2) :
      Renders (.char '\x7b' :: (body ++ [.char '\x7d']))
        (.object (fields.map fun f => (.text f.1.name, f.2.2)))

/-- The text renders the value, with white space around it. -/
def Layout (t : Text) (v : Value) : Prop :=
  ∃ before body behind, White before ∧ White behind ∧ Renders body v
    ∧ t = before ++ (body ++ behind)

/-! ## What reading comes to -/

/-- Of scalars, integers can have too many digits. -/
def scalarOutcome : Scalar → Except Cause Scalar
  | .int i =>
    let digits := (Nat.toDigits 10 i.natAbs).length
    if maxIntegerDigits < digits then .error (.longInteger digits) else .ok (.int i)
  | s => .ok s

mutual

/-- What reading a rendering of the value comes to, with this much room. -/
def outcome (room : Nat) : Value → Except Cause Value
  | .scalar s => (scalarOutcome s).map .scalar
  | .array items =>
    match room with
    | 0 => .error (.nesting false)
    | room + 1 => (outcomeItems room items).map .array
  | .object fields =>
    match room with
    | 0 => .error (.nesting true)
    | room + 1 => (outcomeFields room fields).map fun fields => .object (Keyed.ofPairs fields)

/-- The outcomes of items, up to the first that fails. -/
def outcomeItems (room : Nat) : List Value → Except Cause (List Value)
  | [] => .ok []
  | item :: rest => outcome room item >>= fun v => (outcomeItems room rest).map (v :: ·)

/-- The outcomes of fields, up to the first that fails. -/
def outcomeFields (room : Nat) : List (Scalar × Value) → Except Cause (List (Scalar × Value))
  | [] => .ok []
  | (name, value) :: rest =>
    outcome room value >>= fun v => (outcomeFields room rest).map ((name, v) :: ·)

end

mutual

/-- Where reading a rendering fails, a limit of the reader is met. -/
theorem kind_of_outcome {room : Nat} {cause : Cause} :
    ∀ v : Value, outcome room v = .error cause → cause.kind ≠ .grammar
  | .scalar s, h => by
    rw [outcome, map_eq_error_iff] at h
    unfold scalarOutcome at h
    split at h
    · dsimp only at h
      split at h
      · cases h
        simp [Cause.kind]
      · cases h
    · cases h
  | .array items, h => by
    cases room with
    | zero =>
      cases h
      simp [Cause.kind]
    | succ room =>
      rw [outcome, map_eq_error_iff] at h
      exact kind_of_outcomeItems items h
  | .object fields, h => by
    cases room with
    | zero =>
      cases h
      simp [Cause.kind]
    | succ room =>
      rw [outcome, map_eq_error_iff] at h
      exact kind_of_outcomeFields fields h

theorem kind_of_outcomeItems {room : Nat} {cause : Cause} :
    ∀ items : List Value, outcomeItems room items = .error cause → cause.kind ≠ .grammar
  | [], h => by cases h
  | item :: rest, h => by
    rw [outcomeItems, bind_eq_error_iff] at h
    rcases h with h | ⟨v, -, h⟩
    · exact kind_of_outcome item h
    · exact kind_of_outcomeItems rest (map_eq_error_iff.mp h)

theorem kind_of_outcomeFields {room : Nat} {cause : Cause} :
    ∀ fields : List (Scalar × Value), outcomeFields room fields = .error cause
      → cause.kind ≠ .grammar
  | [], h => by cases h
  | (name, value) :: rest, h => by
    rw [outcomeFields, bind_eq_error_iff] at h
    rcases h with h | ⟨v, -, h⟩
    · exact kind_of_outcome value h
    · exact kind_of_outcomeFields rest (map_eq_error_iff.mp h)

end

/-- The reading comes to this, up to the position of a fault, and leaves
the rest. -/
def Reaches {α : Type} (x : Reading α) (o : Except Cause α) (rest : Text) : Prop :=
  x.mapError Stop.cause = o.map fun a => (a, rest)

namespace Reaches

variable {α β : Type} {x : Reading α} {o : Except Cause α} {rest : Text}

theorem cases (h : Reaches x o rest) :
    (∃ a, o = .ok a ∧ x = .ok (a, rest)) ∨ ∃ stop, o = .error stop.cause ∧ x = .error stop := by
  unfold Reaches at h
  cases x with
  | error stop =>
    cases o with
    | error cause => exact .inr ⟨stop, congrArg _ (Except.error.inj h).symm, rfl⟩
    | ok a => cases h
  | ok found =>
    cases o with
    | error cause => cases h
    | ok a => exact .inl ⟨a, rfl, congrArg _ (Except.ok.inj h)⟩

theorem map (h : Reaches x o rest) (f : α → β) :
    Reaches (x.map fun found => (f found.1, found.2)) (o.map f) rest := by
  rcases h.cases with ⟨a, rfl, rfl⟩ | ⟨stop, rfl, rfl⟩ <;> rfl

end Reaches

/-- The text is read as the value, whatever ends it. -/
structure ReadsAs (room : Nat) (t : Text) (v : Value) : Prop where
  opens : OpensValue t
  reads : ∀ (fuel : Nat) (rest : Text), t.length ≤ fuel → EndsValue rest →
    Reaches (readValue fuel room (t ++ rest)) (outcome room v) rest

/-! ## Parts between brackets -/

section Parts

variable {gap body rest : Text} {fuel room : Nat}

theorem White.gap_append (h : White gap) (rest : Text) : Gap (gap ++ rest) rest :=
  ⟨gap, rfl, h⟩

theorem White.endsValue (h : White gap) (hrest : EndsValue rest) : EndsValue (gap ++ rest) :=
  (h.gap_append rest).endsValue hrest

theorem White.skipGap_eq_cons (h : White gap) {c : Char} (hc : isGap c = false) :
    skipGap (gap ++ .char c :: rest) = .char c :: rest :=
  (h.gap_append _).skipGap_eq_cons hc

theorem White.skipGap_eq_of_opens (h : White gap) {t : Text} (ht : OpensValue t) :
    skipGap (gap ++ (t ++ rest)) = t ++ rest :=
  (h.gap_append _).skipGap_eq.trans (skipGap_of_opensValue ht rest)

/-- Behind the white space a list of parts starts as its first part
does. -/
theorem Listed.opensValue {part : Text} {parts : List Text} (h : Listed body (part :: parts))
    (hpart : OpensValue part) (rest : Text) : OpensValue (skipGap (body ++ rest)) := by
  cases h with
  | last hbefore hbehind =>
    rw [List.append_assoc, List.append_assoc, hbefore.skipGap_eq_of_opens hpart]
    exact hpart.append _
  | more hbefore hbehind h =>
    rw [List.append_assoc, List.append_assoc, hbefore.skipGap_eq_of_opens hpart]
    exact hpart.append _

/-- The items of an array are read one after the other. -/
theorem reaches_items {items : List (Text × Value)} (hbody : Listed body (items.map (·.1)))
    (hne : items ≠ []) (h : ∀ i ∈ items, ReadsAs room i.1 i.2) (hfuel : body.length < fuel)
    (rest : Text) :
    Reaches (readItems fuel room (skipGap (body ++ .char ']' :: rest)))
      (outcomeItems room (items.map (·.2))) rest := by
  generalize hparts : items.map (·.1) = parts at hbody
  induction hbody generalizing items fuel with
  | none => exact absurd (List.map_eq_nil_iff.mp hparts) hne
  | @last before part behind hbefore hbehind =>
    obtain ⟨⟨t, v⟩, more, rfl, rfl, hmore⟩ := List.map_eq_cons_iff.mp hparts
    obtain rfl := List.map_eq_nil_iff.mp hmore
    obtain ⟨fuel, rfl⟩ : ∃ k, fuel = k + 1 := ⟨fuel - 1, by omega⟩
    have hitem : ReadsAs room t v := h _ List.mem_cons_self
    simp only [List.length_append] at hfuel
    have hend : skipGap (behind ++ .char ']' :: rest) = .char ']' :: rest :=
      hbehind.skipGap_eq_cons (by decide)
    have hread := hitem.reads fuel (behind ++ .char ']' :: rest) (by omega)
      (hbehind.endsValue (endsValue_cons (.inr (.inl rfl))))
    rw [List.append_assoc, List.append_assoc, hbefore.skipGap_eq_of_opens hitem.opens]
    rcases hread.cases with ⟨w, hw, hread⟩ | ⟨stop, hstop, hread⟩
    · rw [readItems_last hread hend, List.map_singleton, outcomeItems, hw]
      rfl
    · rw [List.map_singleton, outcomeItems, hstop]
      simp only [readItems, hread]
      rfl
  | @more before part behind body next parts hbefore hbehind hbody ih =>
    obtain ⟨⟨t, v⟩, more, rfl, rfl, hmore⟩ := List.map_eq_cons_iff.mp hparts
    obtain ⟨fuel, rfl⟩ : ∃ k, fuel = k + 1 := ⟨fuel - 1, by omega⟩
    obtain ⟨hfirst, hitems⟩ := List.forall_mem_cons.mp h
    have hitem : ReadsAs room t v := hfirst
    simp only [List.length_append, List.length_cons] at hfuel
    have hcomma : skipGap (behind ++ .char ',' :: (body ++ .char ']' :: rest))
        = .char ',' :: (body ++ .char ']' :: rest) := hbehind.skipGap_eq_cons (by decide)
    have hrest : Reaches (readItems fuel room (skipGap (body ++ .char ']' :: rest)))
        (outcomeItems room (more.map (·.2))) rest :=
      ih (fun hnil => by simp [hnil] at hmore) hitems (by omega) hmore
    have hread := hitem.reads fuel (behind ++ .char ',' :: (body ++ .char ']' :: rest)) (by omega)
      (hbehind.endsValue (endsValue_cons (.inl rfl)))
    simp only [List.append_assoc, List.cons_append]
    rw [hbefore.skipGap_eq_of_opens hitem.opens]
    rcases hread.cases with ⟨w, hw, hread⟩ | ⟨stop, hstop, hread⟩
    · rw [readItems_more hread hcomma, List.map_cons, outcomeItems, hw]
      exact hrest.map _
    · rw [List.map_cons, outcomeItems, hstop]
      simp only [readItems, hread]
      rfl

/-! ## Labels -/

theorem Quoted.append {t r : Text} {pieces : List Piece} (h : Quoted t pieces r) (rest : Text) :
    Quoted (t ++ rest) pieces (r ++ rest) := by
  induction h with
  | close r => exact .close _
  | plain hquote hslash hcontrol _ ih => exact .plain hquote hslash hcontrol ih
  | letter hletter _ ih => exact .letter hletter ih
  | unit hdigits _ ih => exact .unit hdigits ih

theorem Label.opensValue (l : Label) (value : Text) : OpensValue (l.field value) :=
  ⟨'"', _, rfl, by decide⟩

/-- What the reader finds of a field: its name, a colon and its value. -/
theorem Label.found (l : Label) {value : Text} (hvalue : OpensValue value) (rest : Text) :
    ∃ quoted colon behind, l.field value ++ rest = .char '"' :: quoted
      ∧ readText quoted = .ok (l.name, colon) ∧ skipGap colon = .char ':' :: behind
      ∧ skipGap behind = value ++ rest := by
  refine ⟨l.quoted ++ (l.before ++ .char ':' :: (l.behind ++ (value ++ rest))),
    l.before ++ .char ':' :: (l.behind ++ (value ++ rest)), l.behind ++ (value ++ rest), ?_,
    readText_eq_ok_iff.mpr ⟨l.pieces, l.isQuoted.append _, rfl⟩,
    l.whiteBefore.skipGap_eq_cons (by decide), l.whiteBehind.skipGap_eq_of_opens hvalue⟩
  simp only [Label.field, List.cons_append, List.append_assoc]

theorem Label.length_lt (l : Label) (value : Text) : value.length < (l.field value).length := by
  simp only [Label.field, List.length_cons, List.length_append]
  omega

/-- The fields of an object are read one after the other. -/
theorem reaches_fields {fields : List (Label × Text × Value)}
    (hbody : Listed body (fields.map fun f => f.1.field f.2.1)) (hne : fields ≠ [])
    (h : ∀ f ∈ fields, ReadsAs room f.2.1 f.2.2) (hfuel : body.length < fuel) (rest : Text) :
    Reaches (readFields fuel room (skipGap (body ++ .char '\x7d' :: rest)))
      (outcomeFields room (fields.map fun f => (.text f.1.name, f.2.2))) rest := by
  generalize hparts : fields.map (fun f => f.1.field f.2.1) = parts at hbody
  induction hbody generalizing fields fuel with
  | none => exact absurd (List.map_eq_nil_iff.mp hparts) hne
  | @last before part behind hbefore hbehind =>
    obtain ⟨⟨label, t, v⟩, more, rfl, rfl, hmore⟩ := List.map_eq_cons_iff.mp hparts
    obtain rfl := List.map_eq_nil_iff.mp hmore
    obtain ⟨fuel, rfl⟩ : ∃ k, fuel = k + 1 := ⟨fuel - 1, by omega⟩
    have hvalue : ReadsAs room t v := h _ List.mem_cons_self
    have hlabel := label.length_lt t
    simp only [List.length_append] at hfuel
    have hend : skipGap (behind ++ .char '\x7d' :: rest) = .char '\x7d' :: rest :=
      hbehind.skipGap_eq_cons (by decide)
    have hread := hvalue.reads fuel (behind ++ .char '\x7d' :: rest) (by omega)
      (hbehind.endsValue (endsValue_cons (.inr (.inr rfl))))
    obtain ⟨quoted, colon, tail, heq, hname, hcolon, htail⟩ :=
      label.found hvalue.opens (behind ++ .char '\x7d' :: rest)
    rw [List.append_assoc, List.append_assoc, hbefore.skipGap_eq_of_opens (label.opensValue t), heq,
      List.map_singleton, outcomeFields]
    rcases hread.cases with ⟨w, hw, hread⟩ | ⟨stop, hstop, hread⟩
    · simp only [readFields, hname, hcolon, htail, hread, hend, hw]
      rfl
    · simp only [readFields, hname, hcolon, htail, hread, hstop]
      rfl
  | @more before part behind body next parts hbefore hbehind hbody ih =>
    obtain ⟨⟨label, t, v⟩, more, rfl, rfl, hmore⟩ := List.map_eq_cons_iff.mp hparts
    obtain ⟨fuel, rfl⟩ : ∃ k, fuel = k + 1 := ⟨fuel - 1, by omega⟩
    obtain ⟨hfirst, hvalues⟩ := List.forall_mem_cons.mp h
    have hvalue : ReadsAs room t v := hfirst
    have hlabel := label.length_lt t
    simp only [List.length_append, List.length_cons] at hfuel
    have hcomma : skipGap (behind ++ .char ',' :: (body ++ .char '\x7d' :: rest))
        = .char ',' :: (body ++ .char '\x7d' :: rest) := hbehind.skipGap_eq_cons (by decide)
    have hrest : Reaches (readFields fuel room (skipGap (body ++ .char '\x7d' :: rest)))
        (outcomeFields room (more.map fun f => (.text f.1.name, f.2.2))) rest :=
      ih (fun hnil => by simp [hnil] at hmore) hvalues (by omega) hmore
    have hread := hvalue.reads fuel (behind ++ .char ',' :: (body ++ .char '\x7d' :: rest))
      (by omega) (hbehind.endsValue (endsValue_cons (.inl rfl)))
    obtain ⟨quoted, colon, tail, heq, hname, hcolon, htail⟩ :=
      label.found hvalue.opens (behind ++ .char ',' :: (body ++ .char '\x7d' :: rest))
    simp only [List.append_assoc, List.cons_append]
    rw [hbefore.skipGap_eq_of_opens (label.opensValue t), heq, List.map_cons, outcomeFields]
    rcases hread.cases with ⟨w, hw, hread⟩ | ⟨stop, hstop, hread⟩
    · simp only [readFields, hname, hcolon, htail, hread, hcomma, hw]
      exact hrest.map _
    · simp only [readFields, hname, hcolon, htail, hread, hstop]
      rfl

end Parts

/-! ## Numbers -/

/-- A digit is that of the number that it stands for. -/
theorem digit_of_isDigit {c : Char} (h : isDigit c = true) :
    c.toNat - 48 < 10 ∧ (c.toNat - 48).digitChar = c ∧ (c ≠ '0' → 0 < c.toNat - 48) := by
  simp only [isDigit, Bool.and_eq_true, decide_eq_true_eq] at h
  have hlow : 48 ≤ c.toNat := h.1
  have hhigh : c.toNat ≤ 57 := h.2
  have hdigit : ∀ d < 10, d.digitChar.toNat = d + 48 := by decide
  refine ⟨by omega, ?_, fun hc => ?_⟩
  · refine Char.toNat_inj.mp ?_
    rw [hdigit _ (by omega)]
    omega
  · have hne : c.toNat ≠ '0'.toNat := fun heq => hc (Char.toNat_inj.mp heq)
    have hzero : '0'.toNat = 48 := rfl
    omega

/-- Digits that do not start with a zero are those of the number that they
spell, which is not zero. -/
theorem Digits.toDigits_digitsValue {ds : List Char} (h : Digits ds)
    (hzero : ds.head? ≠ some '0') :
    Nat.toDigits 10 (digitsValue ds) = ds ∧ 0 < digitsValue ds := by
  induction ds using List.reverseRecOn with
  | nil => exact absurd rfl h.ne_nil
  | append_singleton ds c ih =>
    obtain ⟨hlt, hchar, hpos⟩ := digit_of_isDigit (h.digit c (by simp))
    have hvalue : digitsValue (ds ++ [c]) = digitsValue ds * 10 + (c.toNat - 48) := by
      simp [digitsValue]
    cases ds with
    | nil =>
      have hc : c ≠ '0' := fun hc => hzero (congrArg some hc)
      rw [hvalue, digitsValue, List.foldl_nil, Nat.zero_mul, Nat.zero_add,
        Nat.toDigits_of_lt_base hlt, hchar]
      exact ⟨rfl, hpos hc⟩
    | cons d ds =>
      have hdigits : Digits (d :: ds) :=
        ⟨List.cons_ne_nil d ds, fun e he => h.digit e (List.mem_append_left [c] he)⟩
      obtain ⟨hsame, hmore⟩ := ih hdigits hzero
      have hdiv : (digitsValue (d :: ds) * 10 + (c.toNat - 48)) / 10 = digitsValue (d :: ds) := by
        omega
      have hmod : (digitsValue (d :: ds) * 10 + (c.toNat - 48)) % 10 = c.toNat - 48 := by omega
      refine ⟨?_, by omega⟩
      rw [hvalue, Nat.toDigits_of_base_le (by decide) (by omega), hdiv, hmod, hsame, hchar]

/-- The digits of a whole number are those that spell it. -/
theorem Whole.toDigits_digitsValue {ds : List Char} (h : Whole ds) :
    Nat.toDigits 10 (digitsValue ds) = ds := by
  by_cases hzero : ds.head? = some '0'
  · rw [h.zero hzero]
    rfl
  · exact (h.toDigits.toDigits_digitsValue hzero).1

theorem Numeral.reaches {number rest : Text} {v : Value} (h : Numeral number v)
    (hrest : EndsValue rest) (room : Nat) :
    Reaches (readNumber (number ++ rest)) (outcome room v) rest := by
  cases h with
  | @integer negative whole hwhole =>
    have habs : (if negative then -(digitsValue whole : Int) else digitsValue whole).natAbs
        = digitsValue whole := by
      cases negative <;> simp
    rw [List.append_assoc, readNumber_integer negative hwhole hrest]
    simp only [Value.int, outcome, scalarOutcome, habs, hwhole.toDigits_digitsValue]
    split <;> rfl
  | decimal negative hwhole hfraction =>
    rw [List.append_assoc, List.append_assoc, readNumber_fraction negative hwhole hfraction hrest]
    rfl
  | power negative hwhole hfraction hexponent =>
    rw [List.append_assoc, List.append_assoc, List.append_assoc,
      readNumber_power negative hwhole hfraction hexponent hrest]
    rfl

/-! ## Values -/

theorem outcome_word {name : String} {v : Value} (h : (name, v) ∈ words) (room : Nat) :
    outcome room v = .ok v := by
  simp only [words, List.mem_cons, List.not_mem_nil, or_false, Prod.mk.injEq] at h
  rcases h with ⟨-, rfl⟩ | ⟨-, rfl⟩ | ⟨-, rfl⟩ | ⟨-, rfl⟩ | ⟨-, rfl⟩ | ⟨-, rfl⟩ <;> rfl

/-- Nothing is read without fuel, but a value is never empty. -/
theorem readsAs_of_succ {room : Nat} {t : Text} {v : Value} (hopens : OpensValue t)
    (h : ∀ fuel rest, t.length ≤ fuel + 1 → EndsValue rest →
      Reaches (readValue (fuel + 1) room (t ++ rest)) (outcome room v) rest) :
    ReadsAs room t v := by
  refine ⟨hopens, fun fuel rest hfuel hrest => ?_⟩
  cases fuel with
  | zero =>
    obtain ⟨c, r, rfl, -⟩ := hopens
    cases hfuel
  | succ fuel => exact h fuel rest hfuel hrest

/-- A rendering is read as its value is. -/
theorem Renders.readsAs {t : Text} {v : Value} (h : Renders t v) (room : Nat) :
    ReadsAs room t v := by
  induction h generalizing room with
  | word hword =>
    have hopens := opensValue_word hword []
    rw [List.append_nil] at hopens
    refine readsAs_of_succ hopens fun fuel rest _ _ => ?_
    rw [readValue_word hword, outcome_word hword]
    rfl
  | number hnumber =>
    refine readsAs_of_succ hnumber.opensNumber.opensValue fun fuel rest _ hrest => ?_
    rw [readValue_of_opensNumber (hnumber.opensNumber.append rest)]
    exact hnumber.reaches hrest room
  | text hquoted =>
    refine readsAs_of_succ ⟨_, _, rfl, by decide⟩ fun fuel rest _ _ => ?_
    rw [List.cons_append, readValue, readText_eq_ok_iff.mpr ⟨_, hquoted.append rest, rfl⟩]
    rfl
  | @array body items hbody _ ih =>
    refine readsAs_of_succ ⟨_, _, rfl, by decide⟩ fun fuel rest hfuel _ => ?_
    cases room with
    | zero => rfl
    | succ room =>
      rw [List.length_cons, List.length_append] at hfuel
      rw [List.cons_append, List.append_assoc, List.singleton_append]
      cases items with
      | nil =>
        cases hbody with
        | none hgap =>
          rw [readValue, hgap.skipGap_eq_cons (by decide)]
          rfl
      | cons item more =>
        have hshort : body.length < fuel := by
          rw [List.length_singleton] at hfuel
          omega
        have hitems := reaches_items hbody (List.cons_ne_nil _ _) (fun i hi => ih i hi room)
          hshort rest
        rw [readValue_array rfl (hbody.opensValue (ih item List.mem_cons_self room).opens _)]
        exact hitems.map _
  | @object body fields hbody _ ih =>
    refine readsAs_of_succ ⟨_, _, rfl, by decide⟩ fun fuel rest hfuel _ => ?_
    cases room with
    | zero => rfl
    | succ room =>
      rw [List.length_cons, List.length_append] at hfuel
      rw [List.cons_append, List.append_assoc, List.singleton_append]
      cases fields with
      | nil =>
        cases hbody with
        | none hgap =>
          rw [readValue, hgap.skipGap_eq_cons (by decide)]
          rfl
      | cons field more =>
        have hshort : body.length < fuel := by
          rw [List.length_singleton] at hfuel
          omega
        have hfields := reaches_fields hbody (List.cons_ne_nil _ _) (fun f hf => ih f hf room)
          hshort rest
        rw [readValue_object rfl (hbody.opensValue (field.1.opensValue field.2.1) _)]
        exact hfields.map fun fields => Value.object (Keyed.ofPairs fields)

/-! ## Documents -/

/-- However a value is laid out, reading comes to the same. -/
theorem Layout.readWithin {t : Text} {v : Value} (h : Layout t v) (room : Nat) :
    (readWithin room t).mapError Fault.cause = outcome room v := by
  obtain ⟨before, body, behind, hbefore, hbehind, hbody, rfl⟩ := h
  have hreads := hbody.readsAs room
  have hend : EndsValue (behind ++ []) := hbehind.endsValue fun p hp => by cases hp
  have hnil : skipGap (behind ++ []) = [] := (hbehind.gap_append []).skipGap_eq
  rw [List.append_nil] at hend hnil
  have hread := hreads.reads (2 * (before ++ (body ++ behind)).length + 2) behind
    (by simp only [List.length_append]; omega) hend
  rw [Json.readWithin, readDocument_eq (hbefore.gap_append _) (hreads.opens.append behind)]
  rcases hread.cases with ⟨w, hw, hread⟩ | ⟨stop, hstop, hread⟩
  · rw [hread, hw]
    simp only [Except.bind, hnil, if_true]
    rfl
  · rw [hread, hstop]
    rfl

end Lineage.Json
