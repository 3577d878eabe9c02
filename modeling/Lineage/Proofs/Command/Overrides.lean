/-
Lineage.Proofs.Command.Overrides — overrides merged one after the other.

Entering an override goes down its path and lays its value over what is
at the end.  That is no other operation than merging in the mapping that
the override spells (`enterAt_eq_merge`), so the settings that overrides
come to are these mappings merged from the first to the last, or laid over
one another in place (`Memory.Ready.merges`).

Two overrides of which neither path is the beginning of the other part at
some name: down to it both go through the same mappings, and there each
goes its own way.  Which of them comes first decides about the order of
new fields and about nothing else (`alike_overlay_comm`).  What is merged
in later does not tell apart what differs in the order of fields alone
(`Alike.overlay`).
-/
import Lineage.Command.Override
import Lineage.Proofs.Config.Variables
import Lineage.Proofs.Json.Alike
import Lineage.Proofs.Outcome
import Lineage.Proofs.Value.Entering
import Lineage.Proofs.Value.InPlace
import Lineage.Usual

namespace Lineage

namespace Value

variable {below other upper v w : Value} {fields others : Fields}

/-! ## The same but for the order of fields -/

theorem Proper.alike_refl (h : v.Proper) : v.Alike v := by
  induction h with
  | scalar s => exact .scalar s
  | array _ ih =>
    refine .array rfl fun i v w hv hw => ?_
    obtain rfl := Option.some.inj (hv.symm.trans hw)
    exact ih v (List.mem_of_getElem? hv)
  | object _ _ ih =>
    refine .object (fun _ => rfl) fun name v w hv hw => ?_
    obtain rfl := Option.some.inj (hv.symm.trans hw)
    obtain ⟨k, hk, -⟩ := Keyed.exists_mem_of_get? hv
    exact ih _ hk

/-- Alike values stay alike when a value is laid over both. -/
theorem Alike.overlay (hupper : upper.Proper) (h : below.Alike other) :
    (below.overlay upper).Alike (other.overlay upper) := by
  induction hupper generalizing below other with
  | scalar s => simpa using Alike.scalar s
  | @array items hitems => simpa using (Proper.array hitems).alike_refl
  | @object fields hnames hvalues ih =>
    cases h with
    | scalar s => simpa using (Proper.object hnames hvalues).alike_refl
    | array _ _ => simpa using (Proper.object hnames hvalues).alike_refl
    | @object lower lower' hlower h =>
      rw [object_overlay_object, object_overlay_object, alike_object_iff]
      intro name
      have hrel := alike_object_iff.mp (.object hlower h) name
      rw [get?_merge hnames, get?_merge hnames]
      generalize Keyed.get? lower name = found at hrel ⊢
      generalize Keyed.get? lower' name = found' at hrel ⊢
      cases hget : Keyed.get? fields name with
      | none => simpa using hrel
      | some u =>
        obtain ⟨k, hk, -⟩ := Keyed.exists_mem_of_get? hget
        cases hrel with
        | none => exact .some (hvalues _ hk).alike_refl
        | some hvw => exact .some (ih _ hk hvw)

/-! ## Values at paths that part -/

theorem Proper.nest (h : v.Proper) (path : List Text) : (nest path v).Proper := by
  induction path with
  | nil => exact h
  | cons name path ih => exact .singleton _ ih

theorem nest_cons (name : Text) (path : List Text) (v : Value) :
    Lineage.nest (name :: path) v = .object [(.text name, Lineage.nest path v)] :=
  rfl

@[simp] theorem fieldsOr_object (fields : Fields) : (object fields).fieldsOr = fields :=
  rfl

/-- A single field is laid over anything as over the fields that it has. -/
theorem overlay_singleton (below : Value) (name : Scalar) (v : Value) :
    below.overlay (.object [(name, v)]) = .object (merge below.fieldsOr [(name, v)]) := by
  have hnil : merge [] [(name, v)] = [(name, v)] := nil_merge (List.pairwise_singleton _ _)
  cases below with
  | object lower => exact object_overlay_object lower _
  | scalar s => rw [scalar_overlay, show (scalar s).fieldsOr = [] from rfl, hnil]
  | array items => rw [array_overlay, show (array items).fieldsOr = [] from rfl, hnil]

/-- Two fields merged in come to the same in either order, if under one
name their values do. -/
theorem alike_merge_comm {name name' : Scalar} (hfields : Proper (.object fields)) (hv : v.Proper)
    (hw : w.Proper) (hsame : (name == name') = true → ∀ below : Value, below.Proper →
      ((below.overlay v).overlay w).Alike ((below.overlay w).overlay v)) :
    (object (merge (merge fields [(name, v)]) [(name', w)])).Alike
      (object (merge (merge fields [(name', w)]) [(name, v)])) := by
  have hpv := Proper.singleton name hv
  have hpw := Proper.singleton name' hw
  rw [alike_object_iff]
  intro key
  have hrefl := alike_object_iff.mp ((hfields.merge hpw).merge hpv).alike_refl key
  simp only [get?_merge hpv.unrepeated, get?_merge hpw.unrepeated, Keyed.get?] at hrefl ⊢
  by_cases hname : (name == key) = true
  · by_cases hname' : (name' == key) = true
    · have hnames : (name == name') = true := by rwa [BEq.congr_right hname']
      have hfound : ((Keyed.get? fields key).getD .null).Proper := by
        cases hget : Keyed.get? fields key with
        | none => exact .scalar _
        | some u => exact hfields.of_get? hget
      simp only [hname, hname', if_true, laid_some, Option.getD_some]
      exact .some (hsame hnames _ hfound)
    · simpa [hname, hname'] using hrefl
  · simpa [hname] using hrefl

/-- Two values laid over a third at paths that part come to the same in
either order. -/
theorem alike_overlay_comm {p q : List Text} (hbelow : below.Proper) (hv : v.Proper)
    (hw : w.Proper) (hpq : ¬ p <+: q) (hqp : ¬ q <+: p) :
    ((below.overlay (Lineage.nest p v)).overlay (Lineage.nest q w)).Alike
      ((below.overlay (Lineage.nest q w)).overlay (Lineage.nest p v)) := by
  induction p generalizing below q with
  | nil => exact absurd List.nil_prefix hpq
  | cons n p ih =>
    cases q with
    | nil => exact absurd List.nil_prefix hqp
    | cons m q =>
      have hpv := hv.nest p
      have hqw := hw.nest q
      simp only [nest_cons, overlay_singleton, fieldsOr_object]
      refine alike_merge_comm hbelow.fieldsOr hpv hqw fun hname u hu => ?_
      -- Under one name both paths go on, and there they still part.
      obtain rfl : n = m := by simpa using hname
      rw [List.cons_prefix_cons] at hpq hqp
      exact ih hu (fun h => hpq ⟨rfl, h⟩) fun h => hqp ⟨rfl, h⟩

end Value

/-! ## Overrides -/

open Value (Proper Alike)

/-- What an override has that was read from an argument. -/
structure Override.WellFormed (o : Override) : Prop where
  path_ne : o.path ≠ []
  proper : o.value.Proper

namespace Override

variable {o a b : Override} {os before after : List Override} {argument : Text}
  {arguments : List Text} {fields : Fields}

/-- The mapping that an override spells. -/
def layer (o : Override) : Fields :=
  o.toValue.fieldsOr

theorem wellFormed_of_parse [Stack] (h : parse argument = .ok o) : o.WellFormed := by
  unfold parse at h
  split at h
  · cases h
  · split at h
    · cases h
    · rename_i hne
      split at h
      · cases h
      · rename_i hvalue
        cases h
        exact ⟨fun heq => hne heq, Variables.proper_of_decode hvalue⟩

theorem wellFormed_of_parseAll [Stack] (h : parseAll arguments = .ok os) :
    ∀ o ∈ os, o.WellFormed := by
  induction arguments generalizing os with
  | nil =>
    cases h
    simp
  | cons argument rest ih =>
    rw [parseAll] at h
    split at h
    · cases h
    · rename_i first hfirst
      obtain ⟨others, hothers, rfl⟩ := map_eq_ok_iff.mp h
      intro o ho
      rcases List.mem_cons.mp ho with rfl | ho
      · exact wellFormed_of_parse hfirst
      · exact ih hothers o ho

theorem WellFormed.toValue_eq (h : o.WellFormed) : o.toValue = .object o.layer := by
  have hne := h.path_ne
  rw [layer, toValue]
  cases hpath : o.path with
  | nil => exact absurd hpath hne
  | cons name path => rfl

theorem WellFormed.proper_layer (h : o.WellFormed) : Proper (.object o.layer) := by
  rw [← h.toValue_eq]
  exact h.proper.nest o.path

theorem enterAt_cons {path : List Text} (hne : path ≠ []) (fields : Fields) (name : Text)
    (value : Value) :
    enterAt fields (name :: path) value = Keyed.put fields (.text name) (.object
      (enterAt ((Keyed.get? fields (.text name)).getD .null).fieldsOr path value)) := by
  rw [enterAt]
  · cases Keyed.get? fields (.text name) with
    | none => rfl
    | some v => cases v <;> rfl
  · exact hne

/-- Entering a value at a path is merging in the mapping that spells the
path. -/
theorem enterAt_eq_merge {path : List Text} (hne : path ≠ []) (fields : Fields) (value : Value) :
    enterAt fields path value = merge fields (nest path value).fieldsOr := by
  induction path generalizing fields with
  | nil => exact absurd rfl hne
  | cons name path ih =>
    rw [Value.nest_cons, Value.fieldsOr_object, merge, Value.mergeFields_cons, mergeFields]
    cases path with
    | nil =>
      rw [enterAt]
      cases Keyed.get? fields (.text name) <;> simp [nest]
    | cons next path =>
      have hrest : next :: path ≠ [] := List.cons_ne_nil _ _
      rw [enterAt_cons hrest, ih hrest, Value.nest_cons, Value.fieldsOr_object,
        Value.overlay_singleton]

theorem WellFormed.enter_eq (h : o.WellFormed) (fields : Fields) :
    enter fields o = merge fields o.layer :=
  enterAt_eq_merge h.path_ne fields o.value

/-- What overrides come to are their mappings, merged from the first to the
last. -/
theorem mergeAll_eq (h : ∀ o ∈ os, o.WellFormed) :
    mergeAll os = (os.map layer).foldl merge [] := by
  rw [mergeAll, List.foldl_map]
  exact List.foldl_ext _ _ _ fun fields o ho => (h o ho).enter_eq fields

theorem proper_foldl_merge {lower : Fields} {layers : List Fields} (hlower : Proper (.object lower))
    (hlayers : ∀ upper ∈ layers, Proper (.object upper)) :
    Proper (.object (layers.foldl merge lower)) := by
  induction layers generalizing lower with
  | nil => exact hlower
  | cons upper layers ih =>
    exact ih (hlower.merge (hlayers upper List.mem_cons_self)) fun layer hlayer =>
      hlayers layer (List.mem_cons_of_mem _ hlayer)

/-- Mappings merged into alike ones come to alike ones. -/
theorem alike_foldl_merge {lower other : Fields} {layers : List Fields}
    (h : Alike (.object lower) (.object other))
    (hlayers : ∀ upper ∈ layers, Proper (.object upper)) :
    Alike (.object (layers.foldl merge lower)) (.object (layers.foldl merge other)) := by
  induction layers generalizing lower other with
  | nil => exact h
  | cons upper layers ih =>
    refine ih ?_ fun layer hlayer => hlayers layer (List.mem_cons_of_mem _ hlayer)
    simpa using h.overlay (hlayers upper List.mem_cons_self)

/-- Two overrides in a row whose paths part may be exchanged. -/
theorem alike_mergeAll_swap (h : ∀ o ∈ before ++ a :: b :: after, o.WellFormed)
    (hab : ¬ a.path <+: b.path) (hba : ¬ b.path <+: a.path) :
    Alike (.object (mergeAll (before ++ a :: b :: after)))
      (.object (mergeAll (before ++ b :: a :: after))) := by
  have hswapped : ∀ o ∈ before ++ b :: a :: after, o.WellFormed := by
    intro o ho
    refine h o ?_
    simp only [List.mem_append, List.mem_cons] at ho ⊢
    tauto
  have ha : a.WellFormed := h a (by simp)
  have hb : b.WellFormed := h b (by simp)
  have hproper : Proper (.object ((before.map layer).foldl merge [])) := by
    refine proper_foldl_merge .empty fun upper hupper => ?_
    obtain ⟨o, ho, rfl⟩ := List.mem_map.mp hupper
    exact (h o (by simp [ho])).proper_layer
  rw [mergeAll_eq h, mergeAll_eq hswapped]
  simp only [List.map_append, List.map_cons, List.foldl_append, List.foldl_cons]
  refine alike_foldl_merge ?_ fun upper hupper => ?_
  · have hcomm := Value.alike_overlay_comm hproper ha.proper hb.proper hab hba
    rw [← toValue, ← toValue, ha.toValue_eq, hb.toValue_eq] at hcomm
    simpa using hcomm
  · obtain ⟨o, ho, rfl⟩ := List.mem_map.mp hupper
    exact (h o (by simp [ho])).proper_layer

/-- Overrides that were read come to the mappings that they spell, merged
from the first to the last, and to the same in a memory where the tables of
these mappings stand apart and are laid over an empty table in place.
Exchanging two in a row of which neither path is the beginning of the other
changes at most the order of fields. -/
theorem mergeAll_of_parseAll [Stack] (h : parseAll arguments = .ok os) :
    (∀ o ∈ os, o.toValue = .object o.layer)
      ∧ mergeAll os = (os.map layer).foldl merge []
      ∧ (∃ s t places, Memory.Ready s t places (os.map layer))
      ∧ (∀ s t places, Memory.Ready s t places (os.map layer) →
        (∃ s', Memory.LaysEach s t places s') ∧ ∀ s', Memory.LaysEach s t places s' →
          ∃ P, Memory.Reads s' (.table t) (.object (mergeAll os)) P)
      ∧ ∀ before a b after, os = before ++ a :: b :: after → ¬ a.path <+: b.path →
        ¬ b.path <+: a.path →
        Alike (.object (mergeAll os)) (.object (mergeAll (before ++ b :: a :: after))) := by
  have hos := wellFormed_of_parseAll h
  have hmerge := mergeAll_eq hos
  refine ⟨fun o ho => (hos o ho).toValue_eq, hmerge, Memory.exists_ready _,
    fun s t places hready => ?_, ?_⟩
  · rw [hmerge]
    exact hready.merges
  · rintro before a b after rfl hab hba
    exact alike_mergeAll_swap hos hab hba

/-- The second override goes into the mapping that the first one brought,
and the third one goes beside both. -/
theorem mergeAll_of_parseAll_shared :
    ∃ a b c : Override, parseAll ["a.b=\x7b\"x\": 1\x7d", "a.b.y=2", "c=3"] = .ok [a, b, c]
      ∧ ¬ b.path <+: c.path ∧ ¬ c.path <+: b.path
      ∧ Json.printAt .plain 0 (.object (mergeAll [a, b, c]))
        = "\x7b\"a\": \x7b\"b\": \x7b\"x\": 1, \"y\": 2\x7d\x7d, \"c\": 3\x7d"
      ∧ (∃ s t places s' P, Memory.Ready s t places [a.layer, b.layer, c.layer]
        ∧ Memory.LaysEach s t places s'
        ∧ Memory.Reads s' (.table t) (.object (mergeAll [a, b, c])) P)
      ∧ Value.Alike (.object (mergeAll [a, b, c])) (.object (mergeAll [a, c, b])) := by
  obtain ⟨os, hos, hread⟩ := map_toOption_eq_some_iff.mp
    (show (parseAll ["a.b=\x7b\"x\": 1\x7d", "a.b.y=2", "c=3"]).toOption.map (fun os =>
        (os.map path, Json.printAt .plain 0 (.object (mergeAll os))))
      = some (([["a", "b"], ["a", "b", "y"], ["c"]] : List (List Text)),
        ("\x7b\"a\": \x7b\"b\": \x7b\"x\": 1, \"y\": 2\x7d\x7d, \"c\": 3\x7d" : Text)) by
      decide +kernel)
  obtain ⟨hpaths, hprinted⟩ := Prod.mk.inj hread
  obtain ⟨a, _, rfl, -, hpaths⟩ := List.map_eq_cons_iff.mp hpaths
  obtain ⟨b, _, rfl, hb, hpaths⟩ := List.map_eq_cons_iff.mp hpaths
  obtain ⟨c, _, rfl, hc, hpaths⟩ := List.map_eq_cons_iff.mp hpaths
  obtain rfl := List.map_eq_nil_iff.mp hpaths
  have hbc : ¬ b.path <+: c.path := by rw [hb, hc]; decide
  have hcb : ¬ c.path <+: b.path := by rw [hb, hc]; decide
  obtain ⟨-, -, ⟨s, t, places, hready⟩, hruns, hswap⟩ := mergeAll_of_parseAll hos
  obtain ⟨⟨s', hrun⟩, hreads⟩ := hruns s t places hready
  obtain ⟨P, hP⟩ := hreads s' hrun
  exact ⟨a, b, c, hos, hbc, hcb, hprinted, ⟨s, t, places, s', P, hready, hrun, hP⟩,
    hswap [a] b c [] rfl hbc hcb⟩

end Override

end Lineage
