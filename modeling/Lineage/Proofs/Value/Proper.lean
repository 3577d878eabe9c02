/-
Lineage.Proofs.Value.Proper — document values whose objects hold every
name once.

The type of document values does not say that the names of an object are
different; that every reader enters a name once does.  A value is
`Proper` if this is so in all its objects.  The values of JSON documents
are proper (`Json.proper_of_readWithin`), and proper values stay so when
one is laid over another (`Value.Proper.overlay`).
-/
import Lineage.Proofs.Json.Reading
import Lineage.Value.Merge

namespace Lineage

/-! ## Laying values over one another -/

namespace Value

@[simp] theorem overlay_scalar (below : Value) (s : Scalar) :
    below.overlay (.scalar s) = .scalar s := by
  cases below <;> simp [overlay]

@[simp] theorem overlay_array (below : Value) (items : List Value) :
    below.overlay (.array items) = .array items := by
  cases below <;> simp [overlay]

@[simp] theorem object_overlay_object (lower upper : Fields) :
    (object lower).overlay (.object upper) = .object (merge lower upper) := by
  simp [overlay, merge]

@[simp] theorem scalar_overlay_object (s : Scalar) (upper : Fields) :
    (scalar s).overlay (.object upper) = .object upper := by
  simp [overlay]

@[simp] theorem array_overlay_object (items : List Value) (upper : Fields) :
    (array items).overlay (.object upper) = .object upper := by
  simp [overlay]

end Value

/-! ## Proper values -/

namespace Value

/-- In no object of the value is a name repeated. -/
inductive Proper : Value → Prop where
  | scalar (s : Scalar) : Proper (.scalar s)
  | array {items : List Value} (hitems : ∀ v ∈ items, Proper v) : Proper (.array items)
  | object {fields : Fields} (hnames : fields.Unrepeated) (hvalues : ∀ f ∈ fields, Proper f.2) :
    Proper (.object fields)

namespace Proper

theorem empty : Proper (.object []) :=
  .object Keyed.unrepeated_nil fun _ hf => absurd hf List.not_mem_nil

theorem unrepeated {fields : Fields} (h : Proper (.object fields)) : fields.Unrepeated := by
  cases h
  assumption

theorem of_mem {fields : Fields} (h : Proper (.object fields)) {f : Scalar × Value}
    (hf : f ∈ fields) : f.2.Proper := by
  cases h with
  | object _ hvalues => exact hvalues f hf

theorem of_get? {fields : Fields} (h : Proper (.object fields)) {name : Scalar} {v : Value}
    (hget : Keyed.get? fields name = some v) : v.Proper := by
  obtain ⟨k, hk, -⟩ := Keyed.exists_mem_of_get? hget
  exact h.of_mem hk

theorem put {fields : Fields} (h : Proper (.object fields)) (name : Scalar) {v : Value}
    (hv : v.Proper) : Proper (.object (Keyed.put fields name v)) := by
  refine .object (h.unrepeated.put name v) fun f hf => ?_
  rcases Keyed.mem_or_eq_of_mem_put hf with hf | heq
  · exact h.of_mem hf
  · rw [heq]
    exact hv

theorem singleton (name : Scalar) {v : Value} (hv : v.Proper) : Proper (.object [(name, v)]) :=
  empty.put name hv

theorem putAll {fields : Fields} (h : Proper (.object fields)) {pairs : List (Scalar × Value)}
    (hpairs : ∀ p ∈ pairs, p.2.Proper) : Proper (.object (Keyed.putAll fields pairs)) := by
  induction pairs generalizing fields with
  | nil => exact h
  | cons p rest ih =>
    exact ih (h.put p.1 (hpairs p List.mem_cons_self)) fun q hq =>
      hpairs q (List.mem_cons_of_mem _ hq)

theorem ofPairs {pairs : List (Scalar × Value)} (h : ∀ p ∈ pairs, p.2.Proper) :
    Proper (.object (Keyed.ofPairs pairs)) :=
  empty.putAll h

/-- Laying fields over fields, if laying any of them over a proper value
gives one. -/
theorem mergeFields {lower upper : Fields} (hlower : Proper (.object lower))
    (hupper : ∀ f ∈ upper, f.2.Proper ∧ ∀ below, Proper below → Proper (below.overlay f.2)) :
    Proper (.object (mergeFields lower upper)) := by
  induction upper generalizing lower with
  | nil =>
    rw [Lineage.mergeFields]
    exact hlower
  | cons f rest ih =>
    obtain ⟨hvalue, hoverlay⟩ := hupper f List.mem_cons_self
    rw [Lineage.mergeFields]
    refine ih (hlower.put f.1 ?_) fun g hg => hupper g (List.mem_cons_of_mem _ hg)
    split
    · rename_i below hbelow
      exact hoverlay below (hlower.of_get? hbelow)
    · exact hvalue

/-- A proper value laid over another gives a proper one. -/
theorem overlay {below upper : Value} (hbelow : below.Proper) (hupper : upper.Proper) :
    (below.overlay upper).Proper := by
  induction hupper generalizing below with
  | scalar s =>
    rw [overlay_scalar]
    exact .scalar s
  | @array items hitems =>
    rw [overlay_array]
    exact .array hitems
  | @object fields hnames hvalues ih =>
    cases hbelow with
    | scalar s =>
      rw [scalar_overlay_object]
      exact .object hnames hvalues
    | array hitems =>
      rw [array_overlay_object]
      exact .object hnames hvalues
    | @object lower hlower hlowers =>
      rw [object_overlay_object]
      exact mergeFields (.object hlower hlowers) fun f hf =>
        ⟨hvalues f hf, fun _ h => ih f hf h⟩

theorem merge {lower upper : Fields} (hlower : Proper (.object lower))
    (hupper : Proper (.object upper)) : Proper (.object (merge lower upper)) :=
  mergeFields hlower fun _ hf => ⟨hupper.of_mem hf, fun _ h => h.overlay (hupper.of_mem hf)⟩

end Proper

end Value

/-! ## Documents -/

open Value (Proper)

namespace Json

/-- The value of a JSON document is proper. -/
theorem proper_of_readWithin {room : Nat} {t : Text} {v : Value} (h : readWithin room t = .ok v) :
    v.Proper := by
  have laws : ReadingLaws (fun _ => True) (fun _ => True) Value.Proper :=
    { suffix := fun _ _ => trivial
      text := fun _ _ => ⟨trivial, trivial⟩
      scalar := fun s _ => .scalar s
      array := fun _ hitems => .array hitems
      object := fun _ hpairs => .ofPairs fun f hf => (hpairs f hf).2 }
  exact laws.of_readWithin trivial h

end Json

end Lineage
