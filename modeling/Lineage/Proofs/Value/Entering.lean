/-
Lineage.Proofs.Value.Entering — values entered at paths, one after the
other.

`setPath` enters a value at a path if only objects stand on the way
(`setPath_eq_ok_iff`); what it makes is then `Value.enter`, which has no
way to fail.  Entering at a path changes what stands at the path and
beyond it, makes an object of what stands before its end, and leaves all
else alone.  So after a run of entries (`Entered`) there stands at a path
what the last entry for that path brought, or what stood there before, as
long as no entry replaced something on the way and what stands there is
no object (`Entered.at?_eq`).
-/
import Lineage.Proofs.Value.Overlay

namespace Lineage

namespace Value

/-! ## One entry -/

/-- The fields of an object; anything else counts as an empty one. -/
def fieldsOr (v : Value) : Fields :=
  v.fields?.getD []

/-- The value with another one entered at a path of names.  Whatever is
missing or in the way is replaced by an object. -/
def enter (v : Value) : List Text → Value → Value
  | [], w => w
  | name :: path, w =>
    .object (Keyed.put v.fieldsOr (.text name)
      (((v.get? (.text name)).getD (.object [])).enter path w))

/-- The way along a path of names. -/
abbrev names (path : List Text) : List Scalar :=
  path.map .text

theorem get?_eq (v : Value) (name : Scalar) : v.get? name = Keyed.get? v.fieldsOr name := by
  cases v <;> rfl

theorem at?_eq_bind (v : Value) (name : Scalar) (path : List Scalar) :
    v.at? (name :: path) = (v.get? name).bind fun w => w.at? path := by
  rw [at?]
  cases v.get? name <;> rfl

theorem at?_names_cons (v : Value) (name : Text) (path : List Text) :
    v.at? (names (name :: path)) = (v.get? (.text name)).bind fun w => w.at? (names path) :=
  at?_eq_bind v (.text name) (names path)

theorem at?_names_singleton (v : Value) (name : Text) :
    v.at? (names [name]) = v.get? (.text name) := by
  rw [at?_names_cons]
  cases v.get? (.text name) <;> rfl

theorem names_prefix_iff {p q : List Text} : names p <+: names q ↔ p <+: q := by
  induction p generalizing q with
  | nil => exact iff_of_true List.nil_prefix List.nil_prefix
  | cons name p ih =>
    cases q with
    | nil => simp
    | cons other q =>
      rw [names, names, List.map_cons, List.map_cons, List.cons_prefix_cons,
        List.cons_prefix_cons, ih, Scalar.text.injEq]

/-- The value under any name of what has been entered at a path. -/
theorem get?_enter (v w : Value) (name : Text) (other : Scalar) (path : List Text) :
    (v.enter (name :: path) w).get? other
      = if other = .text name then some (((v.get? (.text name)).getD (.object [])).enter path w)
        else v.get? other := by
  rw [enter, get?, Keyed.get?_put, get?_eq v other]
  simp only [Scalar.text_beq_iff]

/-- The value under a name of what has been entered at a path. -/
theorem get?_enter_cons (v w : Value) (name other : Text) (path : List Text) :
    (v.enter (name :: path) w).get? (.text other)
      = if name = other then some (((v.get? (.text name)).getD (.object [])).enter path w)
        else v.get? (.text other) := by
  rw [get?_enter]
  simp only [Scalar.text.injEq, eq_comm]

variable {v w : Value} {path entered : List Text}

/-- At the path of an entry and beyond it stands what was entered. -/
theorem at?_enter_self (v w : Value) (path : List Text) :
    (v.enter path w).at? (names path) = some w := by
  induction path generalizing v with
  | nil => rfl
  | cons name path ih =>
    rw [at?_names_cons, get?_enter_cons, if_pos rfl]
    exact ih _

/-- An entry leaves alone what stands at a path that neither leads to the
entry nor passes through it. -/
theorem at?_enter_of_apart (v w : Value) {path : List Scalar} (hentered : ¬ names entered <+: path)
    (hpath : ¬ path <+: names entered) : (v.enter entered w).at? path = v.at? path := by
  induction entered generalizing v path with
  | nil => exact absurd List.nil_prefix hentered
  | cons name entered ih =>
    cases path with
    | nil => exact absurd List.nil_prefix hpath
    | cons other path =>
      rw [at?_eq_bind, at?_eq_bind, get?_enter]
      by_cases hname : other = .text name
      · subst hname
        rw [names, List.map_cons, List.cons_prefix_cons] at hentered hpath
        have hentered' : ¬ names entered <+: path := fun h => hentered ⟨rfl, h⟩
        have hpath' : ¬ path <+: names entered := fun h => hpath ⟨rfl, h⟩
        rw [if_pos rfl]
        cases hget : v.get? (.text name) with
        | some u => exact ih u hentered' hpath'
        | none =>
          -- Below a name that was not there nothing stood, and nothing stands beside the entry.
          have hnothing : (object []).at? path = none := by
            cases path with
            | nil => exact absurd List.nil_prefix hpath'
            | cons other path => rfl
          exact (ih (object []) hentered' hpath').trans hnothing
      · rw [if_neg hname]

/-- On the way to an entry stands an object. -/
theorem at?_enter_of_passed (v w : Value) (hpath : path <+: entered) (hne : path ≠ entered) :
    ∃ fields, (v.enter entered w).at? (names path) = some (.object fields) := by
  induction entered generalizing v path with
  | nil => exact absurd (List.prefix_nil.mp hpath) hne
  | cons name entered ih =>
    cases path with
    | nil => exact ⟨_, rfl⟩
    | cons other path =>
      obtain ⟨rfl, hrest⟩ := List.cons_prefix_cons.mp hpath
      rw [at?_names_cons, get?_enter_cons, if_pos rfl]
      exact ih _ hrest fun heq => hne (heq ▸ rfl)

/-- An entry keeps clear every path that does not go on beyond it. -/
theorem Clear.enter (h : v.Clear (names path)) (hentered : entered <+: path → entered = path)
    (w : Value) : (v.enter entered w).Clear (names path) := by
  induction entered generalizing v path with
  | nil =>
    obtain rfl := hentered List.nil_prefix
    trivial
  | cons name entered ih =>
    cases path with
    | nil => trivial
    | cons other path =>
      obtain ⟨fields, rfl, hfields⟩ := h
      have hget : ∀ u, ((object fields).enter (name :: entered) w).get? (.text other) = some u →
          u.Clear (names path) := by
        intro u hu
        rw [get?_enter_cons] at hu
        by_cases hname : name = other
        · subst hname
          rw [if_pos rfl] at hu
          obtain rfl := Option.some.inj hu
          have hentered' : entered <+: path → entered = path := fun hpre =>
            (List.cons.inj (hentered (List.cons_prefix_cons.mpr ⟨rfl, hpre⟩))).2
          refine ih ?_ hentered'
          cases hget : (object fields).get? (.text name) with
          | none => exact clear_empty _
          | some x => exact hfields x hget
        · rw [if_neg hname] at hu
          exact hfields u hu
      exact clear_cons.mpr hget

theorem Proper.fieldsOr (h : v.Proper) : Proper (.object v.fieldsOr) := by
  cases v with
  | object fields => exact h
  | scalar s => exact .empty
  | array items => exact .empty

/-- A proper value entered into another one gives a proper one. -/
theorem Proper.enter (h : v.Proper) (path : List Text) (hw : w.Proper) :
    (v.enter path w).Proper := by
  induction path generalizing v with
  | nil => exact hw
  | cons name path ih =>
    have hbelow : ((v.get? (.text name)).getD (.object [])).Proper := by
      rw [get?_eq]
      cases hget : Keyed.get? v.fieldsOr (.text name) with
      | none => exact .empty
      | some u => exact h.fieldsOr.of_get? hget
    exact h.fieldsOr.put _ (ih hbelow)

end Value

open Value (names)

/-! ## Entries that can fail -/

section Entry

variable {ε : Type} {fields fields' : Fields} {name next : Text} {path : List Text} {w : Value}

/-- Entering goes on below a name where an object stands or nothing
does. -/
theorem clear_below_iff :
    (Value.object fields).Clear (names (name :: next :: path))
      ↔ ∃ inner, (Keyed.get? fields (.text name)).getD (.object []) = .object inner
        ∧ (Value.object inner).Clear (names (next :: path)) := by
  refine Value.clear_cons.trans ?_
  cases hget : Keyed.get? fields (.text name) with
  | none =>
    constructor
    · intro _
      exact ⟨[], rfl, Value.clear_empty _⟩
    · intro _ v hv
      cases hv
  | some v =>
    constructor
    · intro h
      obtain ⟨inner, rfl, hinner⟩ := h v rfl
      exact ⟨inner, rfl, inner, rfl, hinner⟩
    · rintro ⟨inner, hv, hinner⟩ _ heq
      obtain rfl := Option.some.inj heq
      rw [show v = .object inner from hv]
      exact hinner

/-- No entry goes on through a value that is no object. -/
theorem error_iff_of_blocked {reason : ε} {v : Value}
    (hget : Keyed.get? fields (.text name) = some v) (hv : v.fields? = none) :
    (Except.error reason : Except ε Fields) = .ok fields'
      ↔ (Value.object fields).Clear (names (name :: next :: path))
        ∧ Value.object fields' = (Value.object fields).enter (name :: next :: path) w := by
  constructor
  · intro h
    cases h
  · rintro ⟨hclear, -⟩
    rw [clear_below_iff, hget] at hclear
    obtain ⟨inner, heq, -⟩ := hclear
    rw [show v = .object inner from heq] at hv
    cases hv

/-- An entry under a single name always succeeds. -/
theorem ok_put_iff :
    (Except.ok (Keyed.put fields (.text name) w) : Except ε Fields) = .ok fields'
      ↔ (Value.object fields).Clear (names [name])
        ∧ Value.object fields' = (Value.object fields).enter [name] w := by
  constructor
  · intro h
    cases h
    exact ⟨Value.clear_cons.mpr fun _ _ => trivial, rfl⟩
  · rintro ⟨-, h⟩
    cases h
    rfl

/-- An entry below a name succeeds with what is made there put under the
name. -/
theorem map_put_eq_ok_iff {inner : Fields} {made : Except ε Fields}
    (hget : (Keyed.get? fields (.text name)).getD (.object []) = .object inner)
    (hmade : ∀ {fields'}, made = .ok fields'
      ↔ (Value.object inner).Clear (names (next :: path))
        ∧ Value.object fields' = (Value.object inner).enter (next :: path) w) :
    made.map (fun inner => Keyed.put fields (.text name) (.object inner)) = .ok fields'
      ↔ (Value.object fields).Clear (names (name :: next :: path))
        ∧ Value.object fields' = (Value.object fields).enter (name :: next :: path) w := by
  have henter : (Value.object fields).enter (name :: next :: path) w
      = .object (Keyed.put fields (.text name) ((Value.object inner).enter (next :: path) w)) := by
    rw [← hget]
    rfl
  have hclear : (Value.object fields).Clear (names (name :: next :: path))
      ↔ (Value.object inner).Clear (names (next :: path)) := by
    rw [clear_below_iff, hget]
    simp
  rw [map_eq_ok_iff, hclear, henter]
  constructor
  · rintro ⟨below, hbelow, rfl⟩
    obtain ⟨hclear, hobject⟩ := hmade.mp hbelow
    rw [hobject]
    exact ⟨hclear, rfl⟩
  · rintro ⟨hclear, hobject⟩
    refine ⟨_, hmade.mpr ⟨hclear, rfl⟩, ?_⟩
    cases hobject
    rfl

end Entry

/-- Entering at a path succeeds where only objects stand on the way. -/
theorem setPathFrom_eq_ok_iff {whole path : List Text} {depth : Nat} {fields fields' : Fields}
    {w : Value} (hne : path ≠ []) :
    setPathFrom whole depth fields path w = .ok fields'
      ↔ (Value.object fields).Clear (names path)
        ∧ Value.object fields' = (Value.object fields).enter path w := by
  induction path generalizing depth fields fields' with
  | nil => exact absurd rfl hne
  | cons name path ih =>
    cases path with
    | nil =>
      rw [setPathFrom]
      exact ok_put_iff
    | cons next path =>
      have hrest : next :: path ≠ [] := List.cons_ne_nil _ _
      rw [setPathFrom]
      · cases hget : Keyed.get? fields (.text name) with
        | none => exact map_put_eq_ok_iff (by rw [hget]; rfl) (ih hrest)
        | some v =>
          cases v with
          | object inner => exact map_put_eq_ok_iff (by rw [hget]; rfl) (ih hrest)
          | scalar s => exact error_iff_of_blocked hget rfl
          | array items => exact error_iff_of_blocked hget rfl
      · exact hrest

theorem setPath_eq_ok_iff {path : List Text} {fields fields' : Fields} {w : Value}
    (hne : path ≠ []) :
    setPath fields path w = .ok fields'
      ↔ (Value.object fields).Clear (names path)
        ∧ Value.object fields' = (Value.object fields).enter path w :=
  setPathFrom_eq_ok_iff hne

/-! ## Runs of entries -/

/-- A value turns into another as values are entered at paths one after
the other, each where only objects stand on the way. -/
inductive Entered : Value → List (List Text × Value) → Value → Prop where
  | nil (v : Value) : Entered v [] v
  | cons {v v' w : Value} {path : List Text} {rest : List (List Text × Value)}
    (hclear : v.Clear (names path)) (hrest : Entered (v.enter path w) rest v') :
    Entered v ((path, w) :: rest) v'

/-- What the last of some entries for a path says. -/
def lastAt {α : Type} (path : List Text) : List (List Text × α) → Option α
  | [] => none
  | (entered, a) :: rest => (lastAt path rest).or (if entered = path then some a else none)

namespace Entered

variable {v v' : Value} {entries : List (List Text × Value)} {path : List Text}

theorem proper (h : Entered v entries v') (hv : v.Proper) (hentries : ∀ e ∈ entries, e.2.Proper) :
    v'.Proper := by
  induction h with
  | nil v => exact hv
  | @cons v v' w entered rest _ _ ih =>
    exact ih (hv.enter entered (hentries _ List.mem_cons_self)) fun e he =>
      hentries e (List.mem_cons_of_mem _ he)

/-- Entries keep a path clear if none of them ends on the way. -/
theorem clear (h : Entered v entries v') (hv : v.Clear (names path))
    (hentries : ∀ e ∈ entries, e.1 <+: path → e.1 = path) : v'.Clear (names path) := by
  induction h with
  | nil v => exact hv
  | @cons v v' w entered rest _ _ ih =>
    exact ih (hv.enter (hentries _ List.mem_cons_self) w) fun e he =>
      hentries e (List.mem_cons_of_mem _ he)

/-- If something else than an object stands at a path after a run of
entries of which none ended on the way, then the last entry for the path
brought it, or it stood there before. -/
theorem at?_eq (h : Entered v entries v')
    (hentries : ∀ e ∈ entries, e.1 <+: path → e.1 = path) (hplain : Plain (v'.at? (names path))) :
    v'.at? (names path) = (lastAt path entries).or (v.at? (names path)) := by
  induction h with
  | nil v => rfl
  | @cons v v' w entered rest _ _ ih =>
    have hrest := ih (fun e he => hentries e (List.mem_cons_of_mem _ he)) hplain
    rw [hrest, lastAt]
    by_cases heq : entered = path
    · subst heq
      rw [Value.at?_enter_self, if_pos rfl]
      cases lastAt entered rest <;> rfl
    · have hbeyond : ¬ entered <+: path := fun hpre => heq (hentries _ List.mem_cons_self hpre)
      rw [if_neg heq, Option.or_none]
      by_cases hpassed : path <+: entered
      · -- Here an object stands unless a later entry for the path replaced it.
        obtain ⟨fields, hfields⟩ := Value.at?_enter_of_passed v w hpassed (Ne.symm heq)
        cases hlast : lastAt path rest with
        | none =>
          rw [hlast, hfields, Option.none_or] at hrest
          exact absurd hrest (hplain fields)
        | some u => rfl
      · rw [Value.at?_enter_of_apart v w (mt Value.names_prefix_iff.mp hbeyond)
          (mt Value.names_prefix_iff.mp hpassed)]

end Entered

end Lineage
