/-
Lineage.Proofs.Config.Unshared — policies from a mapping that shares
nothing.

A mapping that shares nothing is copied and entered into as a heap, or
else it is entered into as it stands.  Both come to the same
(`loadPoliciesFrom_ofValue`): the copy mirrors the mapping, every variable
is refused by both or makes mirrors of them again
(`enterPlanted_cases`), and the checks of policies look at nothing but
what mirrors have in common (`checkFields_congr`).
-/
import Lineage.Config.Layers
import Lineage.Proofs.Config.Variables
import Lineage.Proofs.Value.Mirroring

namespace Lineage

open Value (names)

/-! ## Checks -/

section Checks

variable {α : Type} {fields others : Fields}

/-- Of arrays and objects a check does not look at the parts. -/
def Shallow (check : Value → α) : Prop :=
  ∀ v : Value, check (v.cut 0) = check v

theorem Shallow.eq {check : Value → α} (h : Shallow check) {v w : Value}
    (hcut : v.cut 0 = w.cut 0) : check v = check w := by
  rw [← h v, hcut, h w]

theorem Shallow.orBytes {check : Value → Except Schema.Complaint α} (h : Shallow check)
    (broken : Schema.Complaint) : Shallow (Schema.orBytes broken check) := by
  intro v
  cases v with
  | scalar s => rw [Value.cut_zero_scalar]
  | array items => exact h (.array items)
  | object fields => exact h (.object fields)

theorem shallow_checkText (least : Nat) : Shallow (Schema.checkText least) := by
  intro v
  cases v with
  | scalar s => rw [Value.cut_zero_scalar]
  | array items => rfl
  | object fields => rfl

theorem shallow_checkInteger (least : Int) : Shallow (Schema.checkInteger least) := by
  intro v
  cases v with
  | scalar s => rw [Value.cut_zero_scalar]
  | array items => rfl
  | object fields => rfl

/-- Under all names stands the same, arrays and objects without their
parts. -/
def Fields.Level (fields others : Fields) : Prop :=
  ∀ name : Text, (Keyed.get? fields (.text name)).map (Value.cut 0)
    = (Keyed.get? others (.text name)).map (Value.cut 0)

/-- What is found under a name in both. -/
theorem Fields.Level.cases (h : Fields.Level fields others) (name : Text) :
    (Keyed.get? fields (.text name) = none ∧ Keyed.get? others (.text name) = none)
      ∨ ∃ v w, Keyed.get? fields (.text name) = some v ∧ Keyed.get? others (.text name) = some w
        ∧ v.cut 0 = w.cut 0 := by
  have hname := h name
  cases hv : Keyed.get? fields (.text name) with
  | none =>
    rw [hv] at hname
    exact .inl ⟨rfl, Option.map_eq_none_iff.mp hname.symm⟩
  | some v =>
    rw [hv] at hname
    obtain ⟨w, hw, hcut⟩ := Option.map_eq_some_iff.mp hname.symm
    exact .inr ⟨v, w, rfl, hw, hcut.symm⟩

theorem Fields.Level.optional_eq (h : Fields.Level fields others) (name : Schema.FieldName)
    (default : α) {check : Value → Except Schema.Complaint α} (hcheck : Shallow check) :
    Schema.optional fields name default check = Schema.optional others name default check := by
  unfold Schema.optional Schema.FieldName.find
  rcases h.cases name.camel with ⟨hv, hw⟩ | ⟨v, w, hv, hw, hcut⟩
  · rcases h.cases name.snake with ⟨hv', hw'⟩ | ⟨v, w, hv', hw', hcut⟩
    · simp [hv, hw, hv', hw']
    · simp [hv, hw, hv', hw', hcheck.eq hcut]
  · simp [hv, hw, hcheck.eq hcut]

/-- Limits are checked alike where their fields are level. -/
theorem GroupPolicy.checkValue_congr {v w : Value} (hcut : v.cut 0 = w.cut 0)
    (hfields : Fields.Level v.fieldsOr w.fieldsOr) :
    GroupPolicy.checkValue v = GroupPolicy.checkValue w := by
  have hwhole (least : Int) : Shallow
      (Schema.orBytes .integerUnreadable (Schema.checkInteger least)) :=
    (shallow_checkInteger least).orBytes _
  cases v with
  | object fields =>
    cases w with
    | object others =>
      have hfields : Fields.Level fields others := hfields
      simp only [GroupPolicy.checkValue, hfields.optional_eq _ _ (hwhole _)]
    | scalar s => simp at hcut
    | array items => simp at hcut
  | scalar s =>
    cases w with
    | scalar t => rw [show s = t by simpa using hcut]
    | object others => simp at hcut
    | array items => simp at hcut
  | array items =>
    cases w with
    | array others => rfl
    | scalar t => simp at hcut
    | object others => simp at hcut

/-- Policies are checked alike where the same stands at all paths of two
names at most. -/
theorem Policies.checkFields_congr
    (h : ∀ path : List Text, path.length ≤ 2 →
      ((Value.object fields).at? (names path)).map (Value.cut 0)
        = ((Value.object others).at? (names path)).map (Value.cut 0)) :
    Policies.checkFields fields = Policies.checkFields others := by
  have hlevel : Fields.Level fields others := by
    intro name
    have hname := h [name] (by simp)
    rwa [Value.at?_names_singleton, Value.at?_names_singleton] at hname
  have hgroups : Schema.optionalChecked fields ⟨"groups", "groups"⟩ {} GroupPolicy.checkValue
      = Schema.optionalChecked others ⟨"groups", "groups"⟩ {} GroupPolicy.checkValue := by
    unfold Schema.optionalChecked Schema.FieldName.find
    rcases hlevel.cases "groups" with ⟨hv, hw⟩ | ⟨v, w, hv, hw, hcut⟩
    · simp only [hv, hw, Option.map_none]
    · have hbelow : Fields.Level v.fieldsOr w.fieldsOr := by
        intro name
        have hname := h ["groups", name] (by simp)
        rw [Value.at?_names_cons, Value.at?_names_cons,
          show (Value.object fields).get? (.text "groups") = some v from hv,
          show (Value.object others).get? (.text "groups") = some w from hw, Option.bind_some,
          Option.bind_some, Value.at?_names_singleton, Value.at?_names_singleton] at hname
        rwa [Value.get?_eq, Value.get?_eq] at hname
      simp only [hv, hw, GroupPolicy.checkValue_congr hcut hbelow]
  rw [Policies.checkFields, Policies.checkFields, hgroups,
    hlevel.optional_eq _ _ ((shallow_checkText 1).orBytes _)]

end Checks

/-! ## Copies -/

namespace Heap

variable {h h' : Heap}

theorem visitAll_congr {visit visit' : List Nat → Ref → Option (List Nat)} {refs : List Ref}
    (hvisit : ∀ r ∈ refs, ∀ seen, visit seen r = visit' seen r) (seen : List Nat) :
    visitAll visit seen refs = visitAll visit' seen refs := by
  induction refs generalizing seen with
  | nil => rfl
  | cons r rest ih =>
    obtain ⟨hr, hrest⟩ := List.forall_mem_cons.mp hvisit
    rw [visitAll, visitAll, hr]
    cases visit' seen r with
    | none => rfl
    | some seen => exact ih hrest seen

/-- What is there is visited as before when the heap goes on behind it. -/
theorem visit_of_kept (hs : h.Sound) (hkept : h <+: h') (room : Nat) (seen : List Nat) {r : Ref}
    (hr : r.Within h.length) : h'.visit room seen r = h.visit room seen r := by
  induction room generalizing seen r with
  | zero =>
    cases r with
    | scalar s => rfl
    | place n => rw [visit, visit]
  | succ room ih =>
    cases r with
    | scalar s => rw [visit, visit]
    | place n =>
      obtain ⟨b, hb, hwithin⟩ := hs.exists_body hr
      unfold visit
      rw [getElem?_of_kept hkept hr, hb]
      split
      · rfl
      · cases b with
        | items kind parts => exact visitAll_congr (fun q hq seen => ih seen (hwithin q hq)) _
        | fields links =>
          refine visitAll_congr (fun q hq seen => ih seen ?_) _
          obtain ⟨l, hl, rfl⟩ := List.mem_map.mp hq
          exact Links.Within.refs hwithin l hl

theorem copies_of_kept (hs : h.Sound) (hkept : h <+: h') (room : Nat) {links : Links}
    (hlinks : Links.Within h.length links) : h'.copies room links = h.copies room links := by
  cases room with
  | zero => rfl
  | succ room =>
    rw [copies, copies, visitAll_congr fun q hq seen => visit_of_kept hs hkept room seen ?_]
    obtain ⟨l, hl, rfl⟩ := List.mem_map.mp hq
    exact hlinks.refs l hl

end Heap

/-! ## Entering -/

namespace Variables

variable [Stack] {h₀ h : Heap} {root : Nat} {fields : Fields}

open Heap (Bears)

theorem plantVariable_cases {e : List Text × Text} (hne : e.1 ≠ [])
    (hm : h.Mirrors (.place root) (.object fields)) (hb : Bears h₀ root h)
    (hunmixed : ∀ p q, h₀.Unmixed (.place root) p q) :
    (∃ failure, plantVariable h root e = .error failure ∧ enterVariable fields e = .error failure)
      ∨ ∃ h' fields', plantVariable h root e = .ok h' ∧ enterVariable fields e = .ok fields'
        ∧ Bears h₀ root h' ∧ h'.Mirrors (.place root) (.object fields') := by
  rw [plantVariable, enterVariable]
  cases hdecode : decode .readPolicy e.2 with
  | error fault => exact .inl ⟨_, rfl, rfl⟩
  | ok v =>
    dsimp only [Except.mapError, bind, Except.bind]
    rcases hm.enter_cases hb hunmixed (proper_of_decode hdecode) hne with
      ⟨c, henter, hset⟩ | ⟨h', fields', henter, hset, hgrown, hmirrors⟩
    · rw [henter, hset]
      exact .inl ⟨_, rfl, rfl⟩
    · rw [henter, hset]
      exact .inr ⟨h', fields', rfl, rfl, hgrown, hmirrors⟩

/-- A run of variables is refused in the same way by a heap and by the
policies that it mirrors, or it makes mirrors of them again. -/
theorem enterPlanted_cases {entries : List (List Text × Text)} (hne : ∀ e ∈ entries, e.1 ≠ [])
    (hm : h.Mirrors (.place root) (.object fields)) (hb : Bears h₀ root h)
    (hunmixed : ∀ p q, h₀.Unmixed (.place root) p q) :
    (∃ failure, enterPlanted h root entries = .error failure
        ∧ enterDecoded fields entries = .error failure)
      ∨ ∃ h' fields', enterPlanted h root entries = .ok h'
        ∧ enterDecoded fields entries = .ok fields'
        ∧ h'.Mirrors (.place root) (.object fields') := by
  induction entries generalizing h fields with
  | nil => exact .inr ⟨h, fields, rfl, rfl, hm⟩
  | cons e rest ih =>
    obtain ⟨hfirst, hne⟩ := List.forall_mem_cons.mp hne
    rw [enterPlanted_cons, enterDecoded_cons]
    rcases plantVariable_cases hfirst hm hb hunmixed with
      ⟨failure, hplant, henter⟩ | ⟨h', fields', hplant, henter, hgrown, hmirrors⟩
    · rw [hplant, henter]
      exact .inl ⟨failure, rfl, rfl⟩
    · rw [hplant, henter]
      exact ih hne hmirrors hgrown

/-- The same of a copy of a mapping that shares nothing, and of the mapping
as it stands. -/
theorem policiesIn_copied_cases (vars : Variables) {n : Nat} {links : Links} (hs : h.Sound)
    (hplanted : Heap.Planted [] [.place n] h) (hbody : h[n]? = some (.fields links))
    (hm : h.Mirrors (.place n) (.object fields)) :
    (∃ failure, vars.policiesIn (h ++ [.fields links]) h.length = .error failure
        ∧ vars.policyVariables fields = .error failure)
      ∨ ∃ h' fields', vars.policiesIn (h ++ [.fields links]) h.length = .ok h'
        ∧ vars.policyVariables fields = .ok fields'
        ∧ h'.Mirrors (.place h.length) (.object fields') := by
  have hcopy : (h ++ [Body.fields links])[h.length]? = some (.fields links) :=
    List.getElem?_concat_length
  have hsound : Heap.Sound (h ++ [.fields links]) :=
    hs.concat (hs _ (List.mem_of_getElem? hbody))
  exact enterPlanted_cases (fun e he => ne_nil_of_mem_pathsOf he) (hm.copied hs hbody)
    (.refl hsound ⟨_, hcopy⟩) (Heap.unmixed_copied hplanted hs hbody)

end Variables

/-! ## Reading policies -/

theorem Heap.cut_zero_view (h : Heap) (depth : Nat) (r : Ref) :
    (h.view depth r).cut 0 = h.view 0 r := by
  cases r with
  | scalar s => rw [view, view, Value.cut_zero_scalar]
  | place n =>
    cases depth with
    | zero =>
      rw [view]
      rcases h[n]? with _ | _ | _ <;> rfl
    | succ depth =>
      rw [view, view]
      rcases h[n]? with _ | _ | _ <;> rfl

namespace Config

/-- The checks of policies find in a heap what they find in the policies
that it mirrors. -/
theorem checkFields_policyFields {h : Heap} {root : Nat} {fields : Fields}
    (hm : h.Mirrors (.place root) (.object fields)) :
    Policies.checkFields (policyFields h root) = Policies.checkFields fields := by
  obtain ⟨links, hlinks⟩ := hm.exists_links?
  have hview : Value.object (policyFields h root) = h.view 2 (.place root) := by
    rw [(Heap.view_of_links? hlinks).2, policyFields, hlinks, Option.getD_some]
  refine Policies.checkFields_congr fun path hpath => ?_
  rw [hview, Heap.at?_view h _ hpath, ← hm path, Option.map_map]
  exact Option.map_congr fun q _ => Heap.cut_zero_view h _ q

variable [Stack] [YamlReader]

/-- Policies are read from a value as from a heap that shares nothing. -/
theorem loadPoliciesFrom_ofValue (f : Files) (vars : Variables) (model : Schema.Model) {v : Value}
    (hv : v.Proper) : loadPoliciesFrom f vars model (.ofValue v) = loadPolicies f vars model v := by
  cases v with
  | scalar s => rfl
  | array items => rfl
  | object raw =>
    -- The mapping stands behind the heap of its fields.
    let whole := Mapping.ofFields raw
    let h : Heap := whole.heap ++ [.fields whole.links]
    have hsound : h.Sound := (Graph.ofValue (.object raw)).sound
    have hbody : h[whole.heap.length]? = some (.fields whole.links) := List.getElem?_concat_length
    obtain ⟨m, hmapping, hheap, hlinks⟩ :=
      Graph.exists_mapping (g := .ofValue (.object raw)) (Heap.links?_place_iff.mpr hbody)
    have hcopies (room : Nat) : h.copies room whole.links = whole.heap.copies room whole.links :=
      Heap.copies_of_kept whole.sound (List.prefix_append _ _) room whole.within
    have hheap : m.heap = h := hheap
    rw [loadPoliciesFrom, policySource, hmapping, loadPolicies]
    dsimp only
    rw [hheap, hlinks, hcopies]
    split_ifs
    · have hplanted : Heap.Planted [] [.place whole.heap.length] h :=
        Heap.planted_plant Heap.sound_nil (.object raw) hv
      have hmirrors : h.Mirrors (.place whole.heap.length) (.object raw) :=
        Heap.mirrors_plant Heap.sound_nil hv
      dsimp only
      rcases Variables.policiesIn_copied_cases vars hsound hplanted hbody hmirrors with
        ⟨failure, hplant, henter⟩ | ⟨h', fields', hplant, henter, hentered⟩
      · rw [hplant, henter]
      · rw [hplant, henter]
        dsimp only
        rw [checkFields_policyFields hentered]
    · rfl

end Config

end Lineage
