/-
Lineage.Proofs.Json.RoundTrip — written documents are read back.

What a style writes of a value is the value with the fields of its
objects in the order of the style (`Style.arranged`), and that is what is
read of it (`readWithin_print`), if the value is legible: its texts are
unpaired, its integers have no more digits than can be read, its objects
are named by different texts, and it is not nested deeper than there is
room for.  The induction is on the value; that a part is read as it was
written holds whatever ends it (`EndsValue`), and the room goes down by
one at every bracket.
-/
import Lineage.Proofs.Json.Decimal
import Lineage.Proofs.Json.Quoted
import Lineage.Proofs.Value.Proper

namespace Lineage.Json

/-! ## The order of fields -/

namespace Style

variable {style : Style}

/-- Fields in the order in which a style writes them. -/
def order (style : Style) (fields : Fields) : Fields :=
  if style.sorted then fields.mergeSort fun f g => (nameText f.1).atMost (nameText g.1)
  else fields

mutual

/-- A value with the fields of its objects in the order in which a style
writes them. -/
def arranged (style : Style) : Value → Value
  | .scalar s => .scalar s
  | .array items => .array (arrangedItems style items)
  | .object fields => .object (style.order (arrangedFields style fields))

/-- The items of an array, arranged. -/
def arrangedItems (style : Style) : List Value → List Value
  | [] => []
  | item :: rest => arranged style item :: arrangedItems style rest

/-- The values of fields, arranged. -/
def arrangedFields (style : Style) : Fields → Fields
  | [] => []
  | (name, value) :: rest => (name, arranged style value) :: arrangedFields style rest

end

theorem arrangedItems_eq_map (items : List Value) :
    arrangedItems style items = items.map style.arranged := by
  induction items with
  | nil => rfl
  | cons item rest ih => rw [arrangedItems, ih, List.map_cons]

theorem arrangedFields_eq_map (fields : Fields) :
    arrangedFields style fields = fields.map fun f => (f.1, style.arranged f.2) := by
  induction fields with
  | nil => rfl
  | cons f rest ih => rw [arrangedFields, ih, List.map_cons]

/-- The order of fields depends on their names alone. -/
theorem order_map (fields : Fields) (g : Value → Value) :
    style.order (fields.map fun f => (f.1, g f.2))
      = (style.order fields).map fun f => (f.1, g f.2) := by
  unfold order
  split
  · exact (List.map_mergeSort (f := fun f : Scalar × Value => (f.1, g f.2))
      (s := fun f g => (nameText f.1).atMost (nameText g.1)) fun _ _ _ _ => rfl).symm
  · rfl

theorem order_perm (fields : Fields) : (style.order fields).Perm fields := by
  unfold order
  split
  · exact List.mergeSort_perm _ _
  · exact List.Perm.refl _

theorem printItems_eq_map (level : Nat) (items : List Value) :
    printItems style level items = items.map (printAt style level) := by
  induction items with
  | nil => rfl
  | cons item rest ih => rw [printItems, ih, List.map_cons]

theorem printFields_eq_map (level : Nat) (fields : Fields) :
    printFields style level fields
      = fields.map fun f => (nameText f.1, printAt style level f.2) := by
  induction fields with
  | nil => rfl
  | cons f rest ih => rw [printFields, ih, List.map_cons]

/-- Written fields stand in the order of the style. -/
theorem arrange_printFields (level : Nat) (fields : Fields) :
    style.arrange (printFields style level fields)
      = (style.order fields).map fun f => (nameText f.1, printAt style level f.2) := by
  rw [printFields_eq_map]
  unfold arrange order
  split
  · exact (List.map_mergeSort (f := fun f : Scalar × Value =>
      (nameText f.1, printAt style level f.2)) (s := fun a b => a.1.atMost b.1)
        fun _ _ _ _ => rfl).symm
  · rfl

/-! ## White space -/

/-- The style indents with spaces, if it does. -/
def Spaced (style : Style) : Prop :=
  ∀ indent ∈ style.indent, ∀ p ∈ indent, p = .char ' '

end Style

theorem isGap_of_isDigit {c : Char} (h : isDigit c = true) : isGap c = false := by
  rw [Bool.eq_false_iff]
  intro hgap
  simp only [isGap, Bool.or_eq_true, decide_eq_true_eq] at hgap
  rcases hgap with ((rfl | rfl) | rfl) | rfl <;> exact absurd h (by decide)

namespace Style

variable {style : Style}

theorem Spaced.newLine (h : style.Spaced) {indent : Text} (hi : indent ∈ style.indent)
    (level : Nat) : ∀ p ∈ Json.newLine indent level, p.isIn isGap = true := by
  intro p hp
  rcases List.mem_cons.mp hp with rfl | hp
  · rfl
  · obtain ⟨part, hpart, hmem⟩ := List.mem_flatten.mp hp
    rw [List.eq_of_mem_replicate hpart] at hmem
    rw [h indent hi p hmem]
    rfl

theorem Spaced.edge (h : style.Spaced) (level : Nat) :
    ∀ p ∈ style.edge level, p.isIn isGap = true := by
  unfold Style.edge
  split
  · exact fun p hp => absurd hp List.not_mem_nil
  · rename_i indent hi
    exact h.newLine hi level

/-- Items are separated by a comma and white space. -/
theorem Spaced.separator (h : style.Spaced) (level : Nat) :
    ∃ gap, style.separator level = .char ',' :: gap ∧ ∀ p ∈ gap, p.isIn isGap = true := by
  unfold Style.separator
  split
  · refine ⟨[.char ' '], by decide, ?_⟩
    simp [CodePoint.isIn, isGap]
  · rename_i indent hi
    exact ⟨_, rfl, h.newLine hi level⟩

end Style

/-! ## Parts between brackets -/

/-- The text starts with a character that starts a value. -/
def OpensValue (t : Text) : Prop :=
  ∃ c r, t = .char c :: r ∧ isGap c = false ∧ c ≠ ']' ∧ c ≠ '\x7d' ∧ c ≠ '\uFEFF'

theorem OpensNumber.opensValue {t : Text} (h : OpensNumber t) : OpensValue t := by
  obtain ⟨c, r, hc, rfl | rfl⟩ := h
  · refine ⟨c, r, rfl, isGap_of_isDigit hc, ?_, ?_, ?_⟩
    all_goals
      rintro rfl
      exact absurd hc (by decide)
  · exact ⟨'-', _, rfl, by decide⟩

theorem OpensValue.append {t : Text} (h : OpensValue t) (r : Text) : OpensValue (t ++ r) := by
  obtain ⟨c, t, rfl, hc⟩ := h
  exact ⟨c, t ++ r, rfl, hc⟩

theorem OpensValue.skipGap_eq {t : Text} (h : OpensValue t) : skipGap t = t := by
  obtain ⟨c, t, rfl, hc, -⟩ := h
  exact skipGap_cons hc t

theorem skipGap_of_opensValue {t : Text} (h : OpensValue t) (r : Text) :
    skipGap (t ++ r) = t ++ r :=
  (h.append r).skipGap_eq

/-- What stands behind the first part between brackets: the other parts
with what separates them, the closing bracket and what follows it. -/
def afterFirst (style : Style) (level : Nat) (closing : Char) (more : List Text)
    (rest : Text) : Text :=
  more.flatMap (fun part => style.separator (level + 1) ++ part) ++ style.edge level
    ++ .char closing :: rest

theorem enclose_cons (style : Style) (level : Nat) (opening closing : Char) (first : Text)
    (more : List Text) (rest : Text) :
    style.enclose level opening closing (first :: more) ++ rest
      = .char opening :: (style.edge (level + 1)
        ++ (first ++ afterFirst style level closing more rest)) := by
  simp [Style.enclose, afterFirst, List.append_assoc]

section AfterFirst

variable {style : Style} {level : Nat} {closing : Char} {rest : Text}

theorem afterFirst_cons (part : Text) (more : List Text) :
    afterFirst style level closing (part :: more) rest
      = style.separator (level + 1) ++ (part ++ afterFirst style level closing more rest) := by
  simp [afterFirst, List.append_assoc]

/-- Behind the last part comes the closing bracket. -/
theorem skipGap_afterFirst_nil (hs : style.Spaced) (hc : isGap closing = false) :
    skipGap (afterFirst style level closing [] rest) = .char closing :: rest := by
  rw [afterFirst, List.flatMap_nil, List.nil_append, skipGap_append (hs.edge level),
    skipGap_cons hc]

/-- Behind another part comes a comma, and behind that the next part. -/
theorem skipGap_afterFirst_cons (hs : style.Spaced) (level : Nat) (closing : Char) {part : Text}
    (hpart : OpensValue part) (more : List Text) (rest : Text) :
    ∃ r, skipGap (afterFirst style level closing (part :: more) rest) = .char ',' :: r
      ∧ skipGap r = part ++ afterFirst style level closing more rest := by
  obtain ⟨gap, hsep, hgap⟩ := hs.separator (level + 1)
  refine ⟨gap ++ (part ++ afterFirst style level closing more rest), ?_, ?_⟩
  · rw [afterFirst_cons, hsep, List.cons_append, skipGap_cons (by decide)]
  · rw [skipGap_append hgap, skipGap_of_opensValue hpart]

/-- What follows a part ends it. -/
theorem endsValue_afterFirst (hs : style.Spaced) (hc : closing = ']' ∨ closing = '\x7d')
    (more : List Text) : EndsValue (afterFirst style level closing more rest) := by
  intro p hp
  cases more with
  | cons part more =>
    obtain ⟨gap, hsep, -⟩ := hs.separator (level + 1)
    rw [afterFirst_cons, hsep] at hp
    obtain rfl := Option.some.inj hp
    exact .inl (by simp)
  | nil =>
    rw [afterFirst, List.flatMap_nil, List.nil_append] at hp
    cases hedge : style.edge level with
    | nil =>
      rw [hedge] at hp
      obtain rfl := Option.some.inj hp
      rcases hc with rfl | rfl <;> exact .inl (by simp)
    | cons q edge =>
      rw [hedge] at hp
      obtain rfl := Option.some.inj hp
      exact .inr (hs.edge level q (hedge ▸ List.mem_cons_self))

theorem length_afterFirst (style : Style) (level : Nat) (closing : Char) (more : List Text)
    (rest : Text) :
    rest.length < (afterFirst style level closing more rest).length := by
  rw [afterFirst, List.length_append, List.length_cons]
  omega

theorem length_lt_afterFirst_cons (hs : style.Spaced) (level : Nat) (closing : Char) (part : Text)
    (more : List Text) (rest : Text) :
    (part ++ afterFirst style level closing more rest).length
      < (afterFirst style level closing (part :: more) rest).length := by
  obtain ⟨gap, hsep, -⟩ := hs.separator (level + 1)
  rw [afterFirst_cons, hsep, List.cons_append, List.length_cons, @List.length_append _ gap]
  omega

end AfterFirst

/-! ## Legible values -/

/-- A value of good texts, short enough integers and objects that repeat
no name, with no more than so many arrays and objects within one
another. -/
inductive Legible (good : Text → Prop) : Nat → Value → Prop
  | null (room : Nat) : Legible good room .null
  | bool (room : Nat) (b : Bool) : Legible good room (.bool b)
  | int (room : Nat) {i : Int}
      (h : (Nat.toDigits 10 i.natAbs).length ≤ maxIntegerDigits) : Legible good room (.int i)
  | text (room : Nat) {t : Text} (h : good t) : Legible good room (.text t)
  | array {room : Nat} {items : List Value} (h : ∀ v ∈ items, Legible good room v) :
      Legible good (room + 1) (.array items)
  | object {room : Nat} {fields : Fields} (hnames : ∀ f ∈ fields, ∃ t, f.1 = .text t ∧ good t)
      (honce : fields.Unrepeated) (h : ∀ f ∈ fields, Legible good room f.2) :
      Legible good (room + 1) (.object fields)

/-- More room and other texts that are good do no harm. -/
theorem Legible.mono {good fine : Text → Prop} {room more : Nat} {v : Value}
    (h : Legible good room v) (hgood : ∀ t, good t → fine t) (hle : room ≤ more) :
    Legible fine more v := by
  induction h generalizing more with
  | null room => exact .null more
  | bool room b => exact .bool more b
  | int room hi => exact .int more hi
  | text room ht => exact .text more (hgood _ ht)
  | array _ ih =>
    obtain ⟨more, rfl⟩ := Nat.exists_eq_add_of_lt hle
    exact .array fun v hv => ih v hv (by omega)
  | object hnames honce _ ih =>
    obtain ⟨more, rfl⟩ := Nat.exists_eq_add_of_lt hle
    refine .object (fun f hf => ?_) honce fun f hf => ih f hf (by omega)
    obtain ⟨t, hname, ht⟩ := hnames f hf
    exact ⟨t, hname, hgood t ht⟩

/-- The text of a legible value starts as a value does. -/
theorem Legible.opensValue {good : Text → Prop} {room : Nat} {v : Value}
    (h : Legible good room v) (style : Style) (level : Nat) :
    OpensValue (printAt style level v) := by
  have henclose (opening closing : Char) (parts : List Text) (hgap : isGap opening = false)
      (hopening : opening ≠ ']' ∧ opening ≠ '\x7d' ∧ opening ≠ '\uFEFF') :
      OpensValue (style.enclose level opening closing parts) := by
    cases parts with
    | nil => exact ⟨opening, _, rfl, hgap, hopening⟩
    | cons first more =>
      have hcons := enclose_cons style level opening closing first more []
      rw [List.append_nil] at hcons
      exact ⟨opening, _, hcons, hgap, hopening⟩
  cases h with
  | null room => exact ⟨'n', _, rfl, by decide⟩
  | bool room b =>
    cases b with
    | true => exact ⟨'t', _, rfl, by decide⟩
    | false => exact ⟨'f', _, rfl, by decide⟩
  | int room hi =>
    rename_i i
    exact (opensNumber_decimal i).opensValue
  | text room _ => exact ⟨'"', _, rfl, by decide⟩
  | array _ => exact henclose _ _ _ (by decide) (by decide)
  | object _ _ _ => exact henclose _ _ _ (by decide) (by decide)

/-! ## Reading part after part -/

section Steps

variable {fuel room : Nat} {t after r rest : Text}

theorem readItems_last {item : Value} (hitem : readValue fuel room t = .ok (item, after))
    (hclosing : skipGap after = .char ']' :: rest) :
    readItems (fuel + 1) room t = .ok ([item], rest) := by
  simp only [readItems, hitem, hclosing]

theorem readItems_more {item : Value} (hitem : readValue fuel room t = .ok (item, after))
    (hcomma : skipGap after = .char ',' :: r) :
    readItems (fuel + 1) room t
      = (readItems fuel room (skipGap r)).map fun (items, rest) => (item :: items, rest) := by
  simp only [readItems, hitem, hcomma]

/-- A name, a colon and a value. -/
def ReadsField (fuel room : Nat) (t name : Text) (value : Value) (after : Text) : Prop :=
  ∃ quoted colon, t = .char '"' :: quoted ∧ readText quoted = .ok (name, .char ':' :: colon)
    ∧ readValue fuel room (skipGap colon) = .ok (value, after)

theorem readFields_last {name : Text} {value : Value}
    (hfield : ReadsField fuel room t name value after)
    (hclosing : skipGap after = .char '\x7d' :: rest) :
    readFields (fuel + 1) room t = .ok ([(.text name, value)], rest) := by
  obtain ⟨quoted, colon, rfl, hname, hvalue⟩ := hfield
  simp only [readFields, hname, skipGap_cons (c := ':') (by decide), hvalue, hclosing]

theorem readFields_more {name : Text} {value : Value}
    (hfield : ReadsField fuel room t name value after)
    (hcomma : skipGap after = .char ',' :: r) :
    readFields (fuel + 1) room t = (readFields fuel room (skipGap r)).map
      fun (fields, rest) => ((.text name, value) :: fields, rest) := by
  obtain ⟨quoted, colon, rfl, hname, hvalue⟩ := hfield
  simp only [readFields, hname, skipGap_cons (c := ':') (by decide), hvalue, hcomma]

end Steps

/-- A value is read as it was written, whatever ends it. -/
structure ReadsBack (style : Style) (room level : Nat) (v : Value) : Prop where
  opens : OpensValue (printAt style level v)
  reads : ∀ {fuel : Nat} {rest : Text}, (printAt style level v).length ≤ fuel → EndsValue rest →
    readValue fuel room (printAt style level v ++ rest) = .ok (style.arranged v, rest)

section Parts

variable {style : Style} {room level : Nat} {rest : Text}

/-- Items that are read as they were written are so one after the
other. -/
theorem readItems_print (hs : style.Spaced) {item : Value} {more : List Value}
    (h : ∀ v ∈ item :: more, ReadsBack style room (level + 1) v) {fuel : Nat}
    (hfuel : (printAt style (level + 1) item ++ afterFirst style level ']'
      (more.map (printAt style (level + 1))) rest).length ≤ fuel + rest.length) :
    readItems fuel room (printAt style (level + 1) item ++ afterFirst style level ']'
        (more.map (printAt style (level + 1))) rest)
      = .ok ((item :: more).map style.arranged, rest) := by
  induction more generalizing item fuel with
  | nil =>
    have hlength := length_afterFirst style level ']' [] rest
    rw [List.map_nil, List.length_append] at hfuel
    obtain ⟨fuel, rfl⟩ : ∃ k, fuel = k + 1 := ⟨fuel - 1, by omega⟩
    exact readItems_last ((h item List.mem_cons_self).reads (by omega)
      (endsValue_afterFirst hs (.inl rfl) [])) (skipGap_afterFirst_nil hs (by decide))
  | cons next more ih =>
    have hnext := h next (List.mem_cons_of_mem _ List.mem_cons_self)
    have hlength := length_lt_afterFirst_cons hs level ']'
      (printAt style (level + 1) next) (more.map (printAt style (level + 1))) rest
    have hafter := length_afterFirst style level ']'
      (more.map (printAt style (level + 1))) rest
    rw [List.map_cons, List.length_append] at hfuel
    rw [List.length_append] at hlength
    obtain ⟨fuel, rfl⟩ : ∃ k, fuel = k + 1 := ⟨fuel - 1, by omega⟩
    obtain ⟨r, hcomma, hr⟩ := skipGap_afterFirst_cons hs level ']' hnext.opens
      (more.map (printAt style (level + 1))) rest
    refine (readItems_more ((h item List.mem_cons_self).reads (by omega)
      (endsValue_afterFirst hs (.inl rfl) _)) hcomma).trans ?_
    rw [hr, ih (fun v hv => h v (List.mem_cons_of_mem _ hv)) (by rw [List.length_append]; omega)]
    rfl

/-- A field as it is written. -/
def fieldText (style : Style) (level : Nat) (f : Scalar × Value) : Text :=
  quote style.ascii (nameText f.1) ++ ": " ++ printAt style level f.2

theorem opensValue_fieldText (f : Scalar × Value) : OpensValue (fieldText style level f) :=
  ⟨'"', _, rfl, by decide⟩

/-- A field is read as it was written. -/
theorem readsField_fieldText {f : Scalar × Value} {name : Text} (hname : f.1 = .text name)
    (hunpaired : Unpaired name) (hvalue : ReadsBack style room level f.2) {fuel : Nat}
    (hfuel : (fieldText style level f).length ≤ fuel) (hrest : EndsValue rest) :
    ReadsField fuel room (fieldText style level f ++ rest) name (style.arranged f.2) rest := by
  refine ⟨name.flatMap (quotePoint style.ascii)
      ++ .char '"' :: .char ':' :: .char ' ' :: (printAt style level f.2 ++ rest),
    .char ' ' :: (printAt style level f.2 ++ rest), ?_, readText_quoted _ hunpaired _, ?_⟩
  · have hcolon : Text.ofString ": " = [.char ':', .char ' '] := by decide
    rw [fieldText, hname, hcolon]
    simp [nameText, quote, List.append_assoc]
  · have hgap : skipGap (.char ' ' :: (printAt style level f.2 ++ rest))
        = printAt style level f.2 ++ rest := by
      rw [← List.singleton_append, skipGap_append (by simp [CodePoint.isIn, isGap]),
        skipGap_of_opensValue hvalue.opens rest]
    rw [fieldText, List.length_append] at hfuel
    rw [hgap]
    exact hvalue.reads (by omega) hrest

/-- Fields that are read as they were written are so one after the
other. -/
theorem readFields_print (hs : style.Spaced) {f : Scalar × Value} {more : Fields}
    (hnames : ∀ g ∈ f :: more, ∃ t, g.1 = .text t ∧ Unpaired t)
    (h : ∀ g ∈ f :: more, ReadsBack style room (level + 1) g.2) {fuel : Nat}
    (hfuel : (fieldText style (level + 1) f ++ afterFirst style level '\x7d'
      (more.map (fieldText style (level + 1))) rest).length ≤ fuel + rest.length) :
    readFields fuel room (fieldText style (level + 1) f ++ afterFirst style level '\x7d'
        (more.map (fieldText style (level + 1))) rest)
      = .ok ((f :: more).map fun g => (g.1, style.arranged g.2), rest) := by
  obtain ⟨name, hname, hunpaired⟩ := hnames f List.mem_cons_self
  have hvalue := h f List.mem_cons_self
  induction more generalizing f name fuel with
  | nil =>
    have hlength := length_afterFirst style level '\x7d' [] rest
    rw [List.map_nil, List.length_append] at hfuel
    obtain ⟨fuel, rfl⟩ : ∃ k, fuel = k + 1 := ⟨fuel - 1, by omega⟩
    change _ = Except.ok ([(f.1, style.arranged f.2)], rest)
    rw [hname]
    exact readFields_last (readsField_fieldText hname hunpaired hvalue (by omega)
      (endsValue_afterFirst hs (.inr rfl) [])) (skipGap_afterFirst_nil hs (by decide))
  | cons next more ih =>
    have hlength := length_lt_afterFirst_cons hs level '\x7d'
      (fieldText style (level + 1) next) (more.map (fieldText style (level + 1))) rest
    have hafter := length_afterFirst style level '\x7d'
      (more.map (fieldText style (level + 1))) rest
    rw [List.map_cons, List.length_append] at hfuel
    rw [List.length_append] at hlength
    obtain ⟨fuel, rfl⟩ : ∃ k, fuel = k + 1 := ⟨fuel - 1, by omega⟩
    obtain ⟨r, hcomma, hr⟩ := skipGap_afterFirst_cons hs level '\x7d' (opensValue_fieldText next)
      (more.map (fieldText style (level + 1))) rest
    obtain ⟨other, hother, hapart⟩ := hnames next (List.mem_cons_of_mem _ List.mem_cons_self)
    change _ = Except.ok ((f.1, style.arranged f.2)
      :: (next :: more).map fun g => (g.1, style.arranged g.2), rest)
    rw [hname]
    refine (readFields_more (readsField_fieldText hname hunpaired hvalue (by omega)
      (endsValue_afterFirst hs (.inr rfl) _)) hcomma).trans ?_
    rw [hr, ih (fun g hg => hnames g (List.mem_cons_of_mem _ hg))
      (fun g hg => h g (List.mem_cons_of_mem _ hg)) (by rw [List.length_append]; omega) other
      hother hapart (h next (List.mem_cons_of_mem _ List.mem_cons_self))]
    rfl

end Parts

/-! ## Values -/

section Values

variable {fuel room : Nat} {t body : Text}

theorem readValue_plain {c : Char} (hc : c ≠ '"' ∧ c ≠ '[' ∧ c ≠ '\x7b') (t : Text) :
    readValue (fuel + 1) room (.char c :: t)
      = match word? (.char c :: t) with
        | some found => .ok found
        | none => readNumber (.char c :: t) := by
  rw [readValue] <;> first | rfl | simp [hc]

theorem readValue_array (hbody : skipGap body = t) (hopens : OpensValue t) :
    readValue (fuel + 1) (room + 1) (.char '[' :: body)
      = (readItems fuel room t).map fun (items, rest) => (.array items, rest) := by
  obtain ⟨c, r, rfl, -, hc, -⟩ := hopens
  simp only [readValue, hbody]
  split
  · rename_i heq
    exact absurd (CodePoint.char.inj (List.cons.inj heq).1) hc
  · rfl

theorem readValue_object (hbody : skipGap body = t) (hopens : OpensValue t) :
    readValue (fuel + 1) (room + 1) (.char '\x7b' :: body)
      = (readFields fuel room t).map fun (fields, rest) =>
        (.object (Keyed.ofPairs fields), rest) := by
  obtain ⟨c, r, rfl, -, -, hc, -⟩ := hopens
  simp only [readValue, hbody]
  split
  · rename_i heq
    exact absurd (CodePoint.char.inj (List.cons.inj heq).1) hc
  · rfl

end Values

section RoundTrip

variable {style : Style} {room level : Nat} {v : Value}

/-- Nothing is read without fuel, but a value is never empty. -/
theorem readsBack_of_succ (hopens : OpensValue (printAt style level v))
    (h : ∀ {fuel : Nat} {rest : Text}, (printAt style level v).length ≤ fuel + 1 →
      EndsValue rest → readValue (fuel + 1) room (printAt style level v ++ rest)
        = .ok (style.arranged v, rest)) :
    ReadsBack style room level v := by
  refine ⟨hopens, fun {fuel rest} hfuel hrest => ?_⟩
  cases fuel with
  | zero =>
    obtain ⟨c, r, heq, -⟩ := hopens
    rw [heq] at hfuel
    cases hfuel
  | succ fuel => exact h hfuel hrest

/-- The items of an array are read as they were written. -/
theorem readsBack_array (hs : style.Spaced) {items : List Value}
    (h : ∀ v ∈ items, ReadsBack style room (level + 1) v)
    (hopens : OpensValue (printAt style level (.array items))) :
    ReadsBack style (room + 1) level (.array items) := by
  refine readsBack_of_succ hopens fun {fuel rest} hfuel _ => ?_
  have hprint : printAt style level (.array items)
      = style.enclose level '[' ']' (items.map (printAt style (level + 1))) := by
    rw [printAt, Style.printItems_eq_map]
  have harranged : style.arranged (.array items) = .array (items.map style.arranged) := by
    rw [Style.arranged, Style.arrangedItems_eq_map]
  cases items with
  | nil => rfl
  | cons item more =>
    have hitem := h item List.mem_cons_self
    have hcons := enclose_cons style level '[' ']' (printAt style (level + 1) item)
      (more.map (printAt style (level + 1))) rest
    have hlength := congrArg List.length hcons
    rw [hprint, List.map_cons] at hfuel ⊢
    rw [List.length_append, List.length_cons, @List.length_append _ (style.edge _)] at hlength
    rw [hcons, harranged]
    have hitems := @readItems_print style room level rest hs item more h fuel (by omega)
    rw [readValue_array _ (hitem.opens.append _), hitems]
    · rfl
    · rw [skipGap_append (hs.edge _), skipGap_of_opensValue hitem.opens]

/-- The fields of an object are read as they were written, in the order
of the style. -/
theorem readsBack_object (hs : style.Spaced) {fields : Fields}
    (hnames : ∀ f ∈ fields, ∃ t, f.1 = .text t ∧ Unpaired t) (honce : fields.Unrepeated)
    (h : ∀ f ∈ fields, ReadsBack style room (level + 1) f.2)
    (hopens : OpensValue (printAt style level (.object fields))) :
    ReadsBack style (room + 1) level (.object fields) := by
  refine readsBack_of_succ hopens fun {fuel rest} hfuel _ => ?_
  have hprint : printAt style level (.object fields) = style.enclose level '\x7b' '\x7d'
      ((style.order fields).map (fieldText style (level + 1))) := by
    rw [printAt, Style.arrange_printFields, List.map_map]
    rfl
  have harranged : style.arranged (.object fields)
      = .object ((style.order fields).map fun f => (f.1, style.arranged f.2)) := by
    rw [Style.arranged, Style.arrangedFields_eq_map, Style.order_map]
  have hperm : (style.order fields).Perm fields := Style.order_perm fields
  have honce : Keyed.Unrepeated ((style.order fields).map fun f => (f.1, style.arranged f.2)) :=
    (honce.perm hperm.symm).of_keys_eq (by simp [Keyed.keys])
  rw [hprint] at hfuel
  rw [hprint, harranged]
  cases horder : style.order fields with
  | nil => rfl
  | cons f more =>
    rw [horder] at hfuel honce hperm
    have hcons := enclose_cons style level '\x7b' '\x7d' (fieldText style (level + 1) f)
      (more.map (fieldText style (level + 1))) rest
    have hlength := congrArg List.length hcons
    rw [List.map_cons] at hfuel
    rw [List.length_append, List.length_cons, @List.length_append _ (style.edge _)] at hlength
    rw [List.map_cons, hcons, ← Keyed.ofPairs_of_unrepeated honce]
    have hfields := @readFields_print style room level rest hs f more
      (fun g hg => hnames g (hperm.subset hg)) (fun g hg => h g (hperm.subset hg)) fuel (by omega)
    rw [readValue_object _ ((opensValue_fieldText f).append _), hfields]
    · rfl
    · rw [skipGap_append (hs.edge _), skipGap_of_opensValue (opensValue_fieldText f)]

/-- A legible value is read as it was written. -/
theorem Legible.readsBack (hs : style.Spaced) (h : Legible Unpaired room v) (level : Nat) :
    ReadsBack style room level v := by
  induction h generalizing level with
  | null room =>
    exact readsBack_of_succ ((@Legible.null Unpaired room).opensValue style level) fun _ _ =>
      readValue_plain (c := 'n') (by decide) _
  | bool room b =>
    refine readsBack_of_succ ((@Legible.bool Unpaired room b).opensValue style level) fun _ _ => ?_
    cases b with
    | true => exact readValue_plain (c := 't') (by decide) _
    | false => exact readValue_plain (c := 'f') (by decide) _
  | int room hi =>
    rename_i i
    refine readsBack_of_succ ((@Legible.int Unpaired room _ hi).opensValue style level)
      fun {_ rest} _ hrest => ?_
    change readValue _ room (Text.decimal i ++ rest) = .ok (.int i, rest)
    rw [readValue_of_opensNumber ((opensNumber_decimal i).append rest)]
    exact readNumber_decimal hi hrest
  | @text room t ht =>
    refine readsBack_of_succ ((Legible.text room ht).opensValue style level)
      fun {_ rest} _ _ => ?_
    have hquote : printAt style level (.text t) ++ rest
        = .char '"' :: (t.flatMap (quotePoint style.ascii) ++ .char '"' :: rest) := by
      simp [printAt, scalarText, Scalar.plainText, quote]
    rw [hquote, readValue, readText_quoted _ ht]
    rfl
  | array h ih =>
    exact readsBack_array hs (fun v hv => ih v hv (level + 1))
      ((Legible.array h).opensValue style level)
  | object hnames honce h ih =>
    exact readsBack_object hs hnames honce (fun f hf => ih f hf (level + 1))
      ((Legible.object hnames honce h).opensValue style level)

/-- A legible document is read as it was written, white space around it
apart. -/
theorem readWithin_print (hs : style.Spaced) (h : Legible Unpaired room v) {gap : Text}
    (hgap : ∀ p ∈ gap, p.isIn isGap = true) :
    readWithin room (print style v ++ gap) = .ok (style.arranged v) := by
  have hback := h.readsBack hs 0
  have hends : EndsValue gap := fun p hp => .inr (hgap p (List.mem_of_mem_head? hp))
  have hskip : skipGap gap = [] := by
    have hnil := skipGap_append hgap []
    rw [List.append_nil] at hnil
    exact hnil
  have hread : readValue (2 * (print style v ++ gap).length + 2) room (printAt style 0 v ++ gap)
      = .ok (style.arranged v, gap) :=
    hback.reads (by rw [List.length_append, print]; omega) hends
  have hopen := skipGap_of_opensValue hback.opens gap
  obtain ⟨c, r, heq, -, -, -, hmark⟩ := hback.opens
  have hdocument : readDocument room (print style v ++ gap) = .ok (style.arranged v) := by
    rw [print] at hread ⊢
    rw [readDocument, hopen, hread]
    · dsimp only
      rw [hskip]
    · intro tail htail
      rw [heq] at htail
      exact hmark (CodePoint.char.inj (List.cons.inj htail).1)
  rw [readWithin, hdocument]

end RoundTrip

end Lineage.Json
