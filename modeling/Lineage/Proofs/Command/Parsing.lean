/-
Lineage.Proofs.Command.Parsing — what an argument spells as an override.

An argument is split at its first equals sign (`splitAtEquals_eq_some_iff`),
and what stands before it at every point (`Override.spellsNames_iff`).  An
argument without an equals sign is refused, and so is one without a name
before it; from any other an override is read, whose value is what the text
behind the sign stands for, unless that text meets a limit of the reader.
That is all that can come of it (`Override.Outcome`,
`Override.parse_argument`).
-/
import Lineage.Proofs.Command.Overrides
import Lineage.Proofs.Config.Variables
import Mathlib.Data.List.DropRight

namespace Lineage

/-! ## The first equals sign -/

theorem splitAtEquals_eq_none_iff {t : Text} : splitAtEquals t = none ↔ .char '=' ∉ t := by
  induction t with
  | nil => simp [splitAtEquals]
  | cons p t ih =>
    rw [splitAtEquals]
    by_cases hp : p = .char '='
    · simp [hp]
    · simp [hp, ih, Ne.symm hp]

theorem splitAtEquals_eq_some_iff {t before after : Text} :
    splitAtEquals t = some (before, after)
      ↔ t = before ++ .char '=' :: after ∧ .char '=' ∉ before := by
  induction t generalizing before with
  | nil => simp [splitAtEquals]
  | cons p t ih =>
    rw [splitAtEquals]
    by_cases hp : p = .char '='
    · rw [if_pos hp]
      constructor
      · intro h
        cases h
        exact ⟨by rw [hp]; rfl, List.not_mem_nil⟩
      · rintro ⟨heq, hfirst⟩
        cases before with
        | nil =>
          cases heq
          rfl
        | cons q before =>
          cases heq
          exact absurd hp (List.ne_of_not_mem_cons hfirst).symm
    · rw [if_neg hp, Option.map_eq_some_iff]
      constructor
      · rintro ⟨⟨earlier, rest⟩, hsplit, heq⟩
        cases heq
        obtain ⟨rfl, hearlier⟩ := ih.mp hsplit
        exact ⟨rfl, List.not_mem_cons_of_ne_of_not_mem (Ne.symm hp) hearlier⟩
      · rintro ⟨heq, hfirst⟩
        cases before with
        | nil =>
          cases heq
          exact absurd rfl hp
        | cons q before =>
          cases heq
          exact ⟨(before, after), ih.mpr ⟨rfl, List.not_mem_of_not_mem_cons hfirst⟩, rfl⟩

/-! ## Parts between points -/

namespace Text

section Parts

variable {α : Type} [DecidableEq α]

theorem partsAt_eq_splitOn (separator : α) (xs : List α) :
    partsAt separator xs = xs.splitOn separator := by
  induction xs with
  | nil => rfl
  | cons x xs ih =>
    rw [partsAt, List.splitOn_cons_eq_if_modifyHead, ← ih]
    by_cases hx : x = separator
    · simp [hx]
    · obtain ⟨part, more, hparts⟩ := List.exists_cons_of_ne_nil (partsAt_ne_nil separator xs)
      simp [hx, hparts]

theorem not_mem_of_mem_partsAt {separator : α} {xs part : List α}
    (h : part ∈ partsAt separator xs) : separator ∉ part := by
  induction xs generalizing part with
  | nil => simp_all [partsAt]
  | cons x xs ih =>
    rw [partsAt] at h
    by_cases hx : x = separator
    · rw [if_pos hx] at h
      rcases List.mem_cons.mp h with rfl | h
      · exact List.not_mem_nil
      · exact ih h
    · obtain ⟨first, more, hparts⟩ := List.exists_cons_of_ne_nil (partsAt_ne_nil separator xs)
      rw [if_neg hx, hparts] at h
      rw [hparts] at ih
      rcases List.mem_cons.mp h with rfl | h
      · exact List.not_mem_cons_of_ne_of_not_mem (Ne.symm hx) (ih List.mem_cons_self)
      · exact ih (List.mem_cons_of_mem _ h)

/-- Parts that do not hold the separator are those that it separates. -/
theorem partsAt_intercalate {separator : α} {parts : List (List α)} (hne : parts ≠ [])
    (h : ∀ part ∈ parts, separator ∉ part) :
    partsAt separator (List.intercalate [separator] parts) = parts := by
  rw [partsAt_eq_splitOn, List.splitOn_intercalate separator h hne]

end Parts

/-- Nothing is left of a blank text. -/
theorem strip_eq_nil_iff {t : Text} : t.strip = [] ↔ ∀ p ∈ t, p.isIn isBlank = true := by
  have hend : t.strip = (t.dropWhile (CodePoint.isIn isBlank)).rdropWhile
      (CodePoint.isIn isBlank) := rfl
  rw [hend, List.rdropWhile_eq_nil_iff, ← List.dropWhile_eq_nil_iff, List.dropWhile_idempotent,
    List.dropWhile_eq_nil_iff]

end Text

namespace Override

/-! ## The names of a path -/

/-- The text spells these names: they are its parts between points, but for
the blank ones, without the blanks around them. -/
def SpellsNames (dotted : Text) (path : List Text) : Prop :=
  ∃ parts : List Text, parts ≠ [] ∧ (∀ part ∈ parts, .char '.' ∉ part)
    ∧ Text.join [.char '.'] parts = dotted
    ∧ path = (parts.filter fun part => part.any fun p => !p.isIn Text.isBlank).map Text.strip

theorem names_eq (t : Text) :
    names t = ((Text.partsAt (.char '.') t).filter
      fun part => part.any fun p => !p.isIn Text.isBlank).map Text.strip := by
  have hblank (part : Text) : (!part.strip.isEmpty) = part.any fun p => !p.isIn Text.isBlank := by
    rw [Bool.eq_iff_iff]
    simp [Text.strip_eq_nil_iff]
  rw [names, List.filter_map]
  simp only [Function.comp_def, hblank]

theorem spellsNames_iff {dotted : Text} {path : List Text} :
    SpellsNames dotted path ↔ path = names dotted := by
  rw [names_eq]
  constructor
  · rintro ⟨parts, hne, hparts, rfl, rfl⟩
    rw [Text.join, Text.partsAt_intercalate hne hparts]
  · rintro rfl
    exact ⟨Text.partsAt (.char '.') dotted, Text.partsAt_ne_nil _ _,
      fun _ => Text.not_mem_of_mem_partsAt, Text.intercalate_partsAt _ _, rfl⟩

/-! ## Branches -/

/-- At the end of its path stands what was nested. -/
theorem at?_nest (path : List Text) (v : Value) :
    (nest path v).at? (Value.names path) = some v := by
  induction path with
  | nil => rfl
  | cons name path ih =>
    rw [Value.nest_cons, Value.at?_names_cons]
    simpa [Value.get?, Keyed.get?] using ih

/-- On the way there stand mappings of one field. -/
theorem at?_nest_take (path : List Text) (v : Value) {k : Nat} (hk : k < path.length) :
    ∃ w, (nest path v).at? (Value.names (path.take k)) = some (.object [(.text path[k], w)]) := by
  induction path generalizing k with
  | nil => cases hk
  | cons name path ih =>
    cases k with
    | zero => exact ⟨nest path v, rfl⟩
    | succ k =>
      obtain ⟨w, hw⟩ := ih (Nat.lt_of_succ_lt_succ hk)
      refine ⟨w, ?_⟩
      rw [Value.nest_cons, List.take_succ_cons, Value.at?_names_cons]
      simpa [Value.get?, Keyed.get?] using hw

/-! ## Reading an argument -/

/-- The argument is a dotted text, its first equals sign and a raw
value. -/
def SplitsInto (argument dotted raw : Text) : Prop :=
  argument = dotted ++ .char '=' :: raw ∧ .char '=' ∉ dotted

section Parse

variable [Stack] {argument dotted raw : Text}

/-- What may come of reading an argument: it has no equals sign, it names
nothing before its first one, it is an override whose value is what the text
behind the sign stands for, or that text meets a limit of the reader. -/
inductive Outcome (argument : Text) : Except Failure Override → Prop
  | withoutValue (h : .char '=' ∉ argument) :
      Outcome argument (.error (.overrideWithoutValue argument))
  | withoutKey {dotted raw : Text} (hsplit : SplitsInto argument dotted raw)
      (hnames : SpellsNames dotted []) : Outcome argument (.error .overrideWithoutKey)
  | override {dotted raw : Text} {path : List Text} {v : Value}
      (hsplit : SplitsInto argument dotted raw) (hnames : SpellsNames dotted path)
      (hne : path ≠ []) (hfits : Json.Fits (Stack.room .readOverride) raw)
      (hv : Variables.StandsFor raw v) :
      Outcome argument (.ok ⟨path, v⟩)
  | limit {dotted raw : Text} {path : List Text} {fault : Json.Fault}
      (hsplit : SplitsInto argument dotted raw) (hnames : SpellsNames dotted path)
      (hne : path ≠ []) (hlimit : Json.Limit (Stack.room .readOverride) raw fault) :
      Outcome argument (.error (.json fault))

theorem parse_of_not_mem (h : .char '=' ∉ argument) :
    parse argument = .error (.overrideWithoutValue argument) := by
  rw [parse, splitAtEquals_eq_none_iff.mpr h]

theorem parse_of_splitsInto (h : SplitsInto argument dotted raw) :
    parse argument
      = if names dotted = [] then .error .overrideWithoutKey
        else
          ((Variables.decode .readOverride raw).mapError .json).map fun v => ⟨names dotted, v⟩ := by
  rw [parse, splitAtEquals_eq_some_iff.mpr h]
  dsimp only
  cases names dotted with
  | nil => rfl
  | cons name path =>
    rw [if_neg (List.cons_ne_nil name path)]
    cases Variables.decode .readOverride raw <;> rfl

theorem parse_of_decode {path : List Text} {decoded : Except Json.Fault Value}
    (hsplit : SplitsInto argument dotted raw) (hnames : SpellsNames dotted path) (hne : path ≠ [])
    (hdecode : Variables.decode .readOverride raw = decoded) :
    parse argument = (decoded.mapError .json).map fun v => ⟨path, v⟩ := by
  obtain rfl := spellsNames_iff.mp hnames
  rw [parse_of_splitsInto hsplit, if_neg hne, hdecode]

/-- Something comes of reading any argument. -/
theorem outcome_parse (argument : Text) : Outcome argument (parse argument) := by
  cases hfound : splitAtEquals argument with
  | none =>
    have hsign := splitAtEquals_eq_none_iff.mp hfound
    rw [parse_of_not_mem hsign]
    exact .withoutValue hsign
  | some found =>
    obtain ⟨dotted, raw⟩ := found
    have hsplit : SplitsInto argument dotted raw := splitAtEquals_eq_some_iff.mp hfound
    have hnames : SpellsNames dotted (names dotted) := spellsNames_iff.mpr rfl
    by_cases hne : names dotted = []
    · rw [parse_of_splitsInto hsplit, if_pos hne]
      exact .withoutKey hsplit (hne ▸ hnames)
    · cases hdecode : Variables.decode .readOverride raw with
      | ok v =>
        obtain ⟨hv, hfits⟩ := Variables.decode_eq_ok_iff.mp hdecode
        rw [parse_of_decode hsplit hnames hne hdecode]
        exact .override hsplit hnames hne hfits hv
      | error fault =>
        rw [parse_of_decode hsplit hnames hne hdecode]
        exact .limit hsplit hnames hne (Variables.decode_eq_error_iff.mp hdecode)

/-- What may come of reading an argument is what comes of it. -/
theorem Outcome.parse_eq {result : Except Failure Override} (h : Outcome argument result) :
    parse argument = result := by
  cases h with
  | withoutValue h => exact parse_of_not_mem h
  | withoutKey hsplit hnames =>
    rw [parse_of_splitsInto hsplit, if_pos (spellsNames_iff.mp hnames).symm]
  | override hsplit hnames hne hfits hv =>
    rw [parse_of_decode hsplit hnames hne (Variables.decode_eq_ok_iff.mpr ⟨hv, hfits⟩)]
    rfl
  | limit hsplit hnames hne hlimit =>
    rw [parse_of_decode hsplit hnames hne (Variables.decode_eq_error_iff.mpr hlimit)]
    rfl

/-- An argument without an equals sign is refused, and so is one that names
nothing before its first one.  Any other is an override with the names
before the sign and what the text behind the sign stands for, or that text
meets a limit of the reader, which it then shows; nothing else can come of
it.  As a value, an override is the branch of mappings of one field along
its names that ends in its own value. -/
theorem parse_argument (argument : Text) :
    (∀ result, parse argument = result ↔ Outcome argument result)
      ∧ (∀ raw fault, Json.Limit (Stack.room .readOverride) raw fault →
        fault.cause.kind = .size ∧ Json.LongDigits raw
          ∨ fault.cause.kind = .depth ∧ Stack.room .readOverride < Json.openings raw)
      ∧ ∀ o : Override, o.toValue.at? (Value.names o.path) = some o.value
        ∧ ∀ k, (hk : k < o.path.length) → ∃ w,
          o.toValue.at? (Value.names (o.path.take k)) = some (.object [(.text o.path[k], w)]) := by
  refine ⟨fun result => ⟨?_, Outcome.parse_eq⟩, fun _ _ => Json.Limit.explained,
    fun o => ⟨at?_nest _ _, fun k hk => at?_nest_take _ _ hk⟩⟩
  rintro rfl
  exact outcome_parse argument

end Parse

example : (parse " a . .b==[1]").toOption.map (·.path) = some (["a", "b"] : List Text) := by
  decide +kernel

/-- The text behind the sign is no document, but it starts an array with an
integer of too many digits, so that no override is read. -/
theorem parse_argument_longDigits :
    ∃ raw : Text, raw = .char '[' :: Text.ofChars (List.replicate 4301 '9')
      ∧ SplitsInto (.char 'a' :: .char '=' :: raw) [.char 'a'] raw
      ∧ SpellsNames [.char 'a'] [[.char 'a']] ∧ Variables.StandsFor raw (.text raw)
      ∧ ∃ fault, parse (.char 'a' :: .char '=' :: raw) = .error (.json fault)
        ∧ fault.cause = .longInteger 4301 := by
  have hlong : Json.maxIntegerDigits < (List.replicate 4301 '9').length := by
    rw [List.length_replicate]
    decide
  obtain ⟨fault, hread, hcause⟩ :=
    Json.readWithin_longDigits (Json.whole_replicate (by decide)) hlong 979
  rw [List.length_replicate] at hcause
  have hunclosed (v : Value) :
      ¬ Json.Document (.char '[' :: Text.ofChars (List.replicate 4301 '9')) v := by
    refine Json.not_document_of_unclosed (fun hmem => ?_) v
    obtain ⟨c, hc, heq⟩ := List.mem_map.mp hmem
    obtain rfl := List.eq_of_mem_replicate hc
    exact absurd heq (by decide)
  generalize CodePoint.char '[' :: Text.ofChars (List.replicate 4301 '9') = raw at hread hunclosed ⊢
  have hsplit : SplitsInto (.char 'a' :: .char '=' :: raw) [.char 'a'] raw := ⟨rfl, by decide⟩
  have hnames : SpellsNames [.char 'a'] [[.char 'a']] := spellsNames_iff.mpr (by decide +kernel)
  have hlimit : fault.cause.kind ≠ .grammar := by
    rw [hcause]
    decide
  exact ⟨raw, rfl, hsplit, hnames, .inr ⟨hunclosed, rfl⟩, fault,
    (Outcome.limit hsplit hnames (List.cons_ne_nil _ _) ⟨hread, hlimit⟩).parse_eq, hcause⟩

end Override

end Lineage
