/-
Lineage.Proofs.Value.Merging — looking up paths in merged mappings.

A walk along a path of names ends in one of three ways: it meets a value
that is no object, on the way or at the end; it meets an object that lacks
the next name; or there is an object at the end (`walk_cases`).  How the
walk through the upper of two objects ends decides what their merge holds
at the path (`lookup_merge`).  Only a walk that meets a value in the way
breaks off before it has been compared with the lower object
(`at?_overlay_of_meetsLeaf`); in the other two the upper object is clear
along the path, and what stands at its end is laid over what the lower one
holds there.
-/
import Lineage.Proofs.Value.Overlay

namespace Lineage

/-! ## Tables that are merged -/

/-- Entering what is there already changes nothing. -/
theorem Keyed.put_of_get?_eq_some {κ α : Type} [BEq κ] {table : Keyed κ α} {key : κ} {value : α}
    (h : table.get? key = some value) : table.put key value = table := by
  induction table with
  | nil => cases h
  | cons p rest ih =>
    by_cases hp : (p.1 == key) = true
    · obtain rfl : p.2 = value := by simpa [get?, hp] using h
      simp [put, hp]
    · simp [put, hp, ih (by simpa [get?, hp] using h)]

/-- Fields that are new go last. -/
theorem merge_of_new {lower upper : Fields} (h : Keyed.Unrepeated (lower ++ upper)) :
    merge lower upper = lower ++ upper := by
  unfold merge
  induction upper generalizing lower with
  | nil => simp [mergeFields]
  | cons f rest ih =>
    have hnew : ∀ q ∈ lower, (q.1 == f.1) = false := by
      rw [Keyed.Unrepeated, Keyed.keys, List.map_append, List.pairwise_append] at h
      exact fun q hq => h.2.2 q.1 (List.mem_map_of_mem hq) f.1 List.mem_cons_self
    rw [mergeFields, Keyed.get?_eq_none hnew, Keyed.put_of_new hnew, ih (by simpa using h)]
    simp

theorem nil_merge {upper : Fields} (h : upper.Unrepeated) : merge [] upper = upper :=
  merge_of_new h

/-- Fields that change nothing one by one change nothing together. -/
theorem merge_eq_self {lower upper : Fields}
    (h : ∀ f ∈ upper, ∃ w, Keyed.get? lower f.1 = some w ∧ w.overlay f.2 = w) :
    merge lower upper = lower := by
  unfold merge
  induction upper with
  | nil => simp [mergeFields]
  | cons f rest ih =>
    obtain ⟨w, hget, hsame⟩ := h f List.mem_cons_self
    rw [mergeFields, hget]
    simp only [hsame]
    rw [Keyed.put_of_get?_eq_some hget]
    exact ih fun g hg => h g (List.mem_cons_of_mem _ hg)

namespace Value

variable {below upper v w : Value} {path : List Scalar} {name : Scalar} {fields : Fields}

@[simp] theorem scalar_overlay (s : Scalar) (upper : Value) : (scalar s).overlay upper = upper := by
  cases upper <;> simp

@[simp] theorem array_overlay (items : List Value) (upper : Value) :
    (array items).overlay upper = upper := by
  cases upper <;> simp

theorem overlay_object_of_fields?_eq_none (h : below.fields? = none) (fields : Fields) :
    below.overlay (.object fields) = .object fields := by
  cases below with
  | object lower => cases h
  | scalar s => simp
  | array items => simp

/-- A value that is missing counts as null: what is laid over null stays as
it is. -/
theorem laid_some (found : Option Value) (upper : Value) :
    laid found (some upper) = some ((found.getD .null).overlay upper) := by
  cases found <;> simp

theorem mergeFields_cons (lower : Fields) (name : Scalar) (v : Value) (rest : Fields) :
    mergeFields lower ((name, v) :: rest)
      = mergeFields (Keyed.put lower name (((Keyed.get? lower name).getD .null).overlay v))
        rest := by
  rw [mergeFields]
  cases Keyed.get? lower name <;> simp

/-- Laying a value over another a second time changes nothing. -/
theorem Proper.overlay_overlay (hupper : upper.Proper) (below : Value) :
    (below.overlay upper).overlay upper = below.overlay upper := by
  induction hupper generalizing below with
  | scalar s => simp
  | array hitems => simp
  | @object fields hnames hvalues ih =>
    have hmerge (lower : Fields) :
        Lineage.merge (Lineage.merge lower fields) fields = Lineage.merge lower fields := by
      refine merge_eq_self fun f hf => ?_
      rw [get?_merge hnames, hnames.get?_of_mem hf]
      cases Keyed.get? lower f.1 with
      | none =>
        -- Laid over null, a value stays as it is.
        have hself : f.2.overlay f.2 = f.2 := by simpa using ih f hf .null
        exact ⟨f.2, none_laid _, hself⟩
      | some b => exact ⟨b.overlay f.2, some_laid_some _ _, ih f hf b⟩
    cases below with
    | object lower => simp [hmerge]
    | scalar s => simpa [nil_merge hnames] using hmerge []
    | array items => simpa [nil_merge hnames] using hmerge []

/-! ## Walks -/

/-- On the way along the path, or at its end, stands something that is no
object. -/
def MeetsLeaf (v : Value) (path : List Scalar) : Prop :=
  ∃ way w, way <+: path ∧ v.at? way = some w ∧ w.fields? = none

/-- On the way along the path stands an object without the next name. -/
def MeetsGap (v : Value) (path : List Scalar) : Prop :=
  ∃ way name fields, way ++ [name] <+: path ∧ v.at? way = some (.object fields)
    ∧ Keyed.get? fields name = none

theorem meetsLeaf_of_fields? (h : v.fields? = none) (path : List Scalar) : v.MeetsLeaf path :=
  ⟨[], v, List.nil_prefix, rfl, h⟩

theorem meetsLeaf_nil : v.MeetsLeaf [] ↔ v.fields? = none := by
  constructor
  · rintro ⟨way, w, hway, hw, hnone⟩
    obtain rfl := List.prefix_nil.mp hway
    cases hw
    exact hnone
  · exact fun h => meetsLeaf_of_fields? h []

theorem meetsLeaf_cons : (object fields).MeetsLeaf (name :: path)
    ↔ ∃ w, Keyed.get? fields name = some w ∧ w.MeetsLeaf path := by
  constructor
  · rintro ⟨way, w, hway, hw, hnone⟩
    cases way with
    | nil =>
      cases hw
      cases hnone
    | cons first way =>
      obtain ⟨rfl, hrest⟩ := List.cons_prefix_cons.mp hway
      rw [at?_cons, Option.bind_eq_some_iff] at hw
      obtain ⟨u, hu, hw⟩ := hw
      exact ⟨u, hu, way, w, hrest, hw, hnone⟩
  · rintro ⟨u, hu, way, w, hway, hw, hnone⟩
    refine ⟨name :: way, w, List.cons_prefix_cons.mpr ⟨rfl, hway⟩, ?_, hnone⟩
    rw [at?_cons, hu, Option.bind_some, hw]

theorem not_meetsGap_nil : ¬ v.MeetsGap [] := by
  rintro ⟨way, name, fields, hway, -⟩
  simpa using List.prefix_nil.mp hway

theorem meetsGap_cons : (object fields).MeetsGap (name :: path)
    ↔ ∀ w, Keyed.get? fields name = some w → w.MeetsGap path := by
  constructor
  · rintro ⟨way, last, inner, hway, hinner, hnone⟩ w hw
    cases way with
    | nil =>
      cases hinner
      obtain ⟨rfl, -⟩ := List.cons_prefix_cons.mp hway
      rw [hnone] at hw
      cases hw
    | cons first way =>
      obtain ⟨rfl, hrest⟩ := List.cons_prefix_cons.mp hway
      rw [at?_cons, hw, Option.bind_some] at hinner
      exact ⟨way, last, inner, hrest, hinner, hnone⟩
  · intro h
    cases hget : Keyed.get? fields name with
    | none => exact ⟨[], name, fields, List.cons_prefix_cons.mpr ⟨rfl, List.nil_prefix⟩, rfl, hget⟩
    | some w =>
      obtain ⟨way, last, inner, hway, hinner, hnone⟩ := h w hget
      refine ⟨name :: way, last, inner, List.cons_prefix_cons.mpr ⟨rfl, hway⟩, ?_, hnone⟩
      rw [at?_cons, hget, Option.bind_some, hinner]

/-- Every walk meets a value that is no object, meets a gap, or ends at an
object. -/
theorem walk_cases (v : Value) (path : List Scalar) :
    v.MeetsLeaf path ∨ v.MeetsGap path ∨ ∃ fields, v.at? path = some (.object fields) := by
  induction path generalizing v with
  | nil =>
    cases v with
    | object fields => exact .inr (.inr ⟨fields, rfl⟩)
    | _ => exact .inl (meetsLeaf_of_fields? rfl _)
  | cons name path ih =>
    cases v with
    | object fields =>
      rw [meetsLeaf_cons, meetsGap_cons, at?_cons]
      cases Keyed.get? fields name with
      | none => simp
      | some w => simpa using ih w
    | _ => exact .inl (meetsLeaf_of_fields? rfl _)

theorem clear_of_at?_eq_some (h : v.at? path = some w) : v.Clear path := by
  induction path generalizing v with
  | nil => trivial
  | cons name path ih =>
    cases v with
    | object fields =>
      rw [at?_cons] at h
      exact clear_cons.mpr fun u hu => ih (by simpa [hu] using h)
    | _ => cases h

theorem MeetsGap.clear_and_at? (h : v.MeetsGap path) : v.Clear path ∧ v.at? path = none := by
  induction path generalizing v with
  | nil => exact absurd h not_meetsGap_nil
  | cons name path ih =>
    cases v with
    | object fields =>
      rw [meetsGap_cons] at h
      refine ⟨clear_cons.mpr fun u hu => (ih (h u hu)).1, ?_⟩
      rw [at?_cons]
      cases hget : Keyed.get? fields name with
      | none => rfl
      | some u => exact (ih (h u hget)).2
    | _ =>
      obtain ⟨way, last, inner, -, hinner, -⟩ := h
      cases way <;> cases hinner

/-- A value that is no object decides about all paths through it. -/
theorem at?_overlay_of_meetsLeaf (hupper : upper.Proper) (h : upper.MeetsLeaf path)
    (below : Value) : (below.overlay upper).at? path = upper.at? path := by
  induction path generalizing below upper with
  | nil =>
    rw [meetsLeaf_nil] at h
    cases upper with
    | object fields => cases h
    | _ => simp
  | cons name path ih =>
    cases upper with
    | object fields =>
      obtain ⟨u, hu, hleaf⟩ := meetsLeaf_cons.mp h
      cases below with
      | object lower =>
        rw [object_overlay_object, at?_cons, at?_cons, get?_merge hupper.unrepeated, hu]
        cases Keyed.get? lower name with
        | none => simp
        | some b => exact ih (hupper.of_get? hu) hleaf b
      | _ => simp
    | _ => simp

/-- What a merge holds at a path: what the upper object holds there, if
the walk through it meets a value that is no object; what the lower one
holds, if it meets a gap; and where it ends at an object, this object, laid
over the one of the lower object if there is one.  So merging the upper
object in once more changes nothing, and an empty object changes nothing
from either side. -/
theorem lookup_merge {upper : Fields} (hupper : Proper (.object upper)) (lower : Fields)
    (path : List Scalar) :
    ((object upper).MeetsLeaf path →
        (object (merge lower upper)).at? path = (object upper).at? path)
      ∧ ((object upper).MeetsGap path →
        (object (merge lower upper)).at? path = (object lower).at? path)
      ∧ (∀ fields, (object upper).at? path = some (.object fields) →
        (object (merge lower upper)).at? path = some (.object
          (match (object lower).at? path with
            | some (.object below) => merge below fields
            | _ => fields)))
      ∧ ((object upper).MeetsLeaf path ∨ (object upper).MeetsGap path
        ∨ ∃ fields, (object upper).at? path = some (.object fields))
      ∧ merge (merge lower upper) upper = merge lower upper
      ∧ merge [] upper = upper
      ∧ merge lower [] = lower := by
  rw [← object_overlay_object]
  have htwice : merge (merge lower upper) upper = merge lower upper := by
    simpa using hupper.overlay_overlay (.object lower)
  refine ⟨fun h => at?_overlay_of_meetsLeaf hupper h _, fun h => ?_, fun fields h => ?_,
    walk_cases _ _, htwice, nil_merge hupper.unrepeated, merge_nil lower⟩
  · obtain ⟨hclear, hnone⟩ := h.clear_and_at?
    rw [hclear.at?_overlay hupper, hnone, laid_none]
  · rw [(clear_of_at?_eq_some h).at?_overlay hupper, h]
    cases (object lower).at? path with
    | none => rfl
    | some b => cases b <;> simp

theorem Proper.pair {other : Scalar} (hname : (name == other) = false) (hv : v.Proper)
    (hw : w.Proper) : Proper (.object [(name, v), (other, w)]) :=
  .object (List.pairwise_pair.mpr hname) (by simp [hv, hw])

/-- Two numbers of the upper object stand in the way of objects, an object
of the lower one lies beside what the upper one says, and one lies below
it. -/
theorem lookup_merge_crossing :
    let upper : Fields := [("a", .object [("b", .int 1), ("c", .object [("d", .object
      [("u", .int 5)])])]), ("e", .int 7)]
    let lower : Fields := [("a", .object [("b", .object [("x", .int 2)]), ("c", .object [("d",
      .object [("y", .int 3)]), ("z", .int 4)])]), ("e", .object [("f", .int 6)])]
    Proper (.object upper)
      ∧ (object (merge lower upper)).at? [.text "a", .text "b", .text "x"] = none
      ∧ (object (merge lower upper)).at? [.text "a", .text "c", .text "z"] = some (.int 4)
      ∧ (object (merge lower upper)).at? [.text "a", .text "c", .text "d"]
        = some (.object [("y", .int 3), ("u", .int 5)])
      ∧ merge (merge lower upper) upper = merge lower upper := by
  intro upper lower
  have hproper : Proper (.object upper) :=
    .pair rfl (.pair rfl (.scalar _) (.singleton _ (.singleton _ (.scalar _)))) (.scalar _)
  obtain ⟨hleaf, -, -, -, htwice, -⟩ := lookup_merge hproper lower [.text "a", .text "b", .text "x"]
  obtain ⟨-, hgap, -⟩ := lookup_merge hproper lower [.text "a", .text "c", .text "z"]
  obtain ⟨-, -, hobject, -⟩ := lookup_merge hproper lower [.text "a", .text "c", .text "d"]
  refine ⟨hproper, (hleaf ?_).trans rfl, (hgap ?_).trans rfl, (hobject _ rfl).trans ?_, htwice⟩
  · exact ⟨[.text "a", .text "b"], .int 1, ⟨[.text "x"], rfl⟩, rfl, rfl⟩
  · exact ⟨[.text "a", .text "c"], .text "z", _, List.prefix_rfl, rfl, rfl⟩
  · rfl

end Value

end Lineage
