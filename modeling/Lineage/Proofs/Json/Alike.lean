/-
Lineage.Proofs.Json.Alike — values that differ in the order of fields
alone.

An object says under every name what its field of that name holds, in
whatever order the fields stand.  Two values are `Alike` if they say the
same, at every depth.  Sorting the fields of a value leaves it alike
(`Json.Legible.alike_arranged`), so a written document, whatever its
style, is read as a value like the one that was written.
-/
import Lineage.Proofs.Json.RoundTrip

namespace Lineage

/-- The values are the same, but for the order of the fields of
objects. -/
inductive Value.Alike : Value → Value → Prop
  | scalar (s : Scalar) : Alike (.scalar s) (.scalar s)
  | array {items others : List Value} (hlength : items.length = others.length)
      (h : ∀ (i : Nat) v w, items[i]? = some v → others[i]? = some w → Alike v w) :
      Alike (.array items) (.array others)
  | object {fields others : Fields}
      (hnames : ∀ name, (fields.get? name).isSome = (others.get? name).isSome)
      (h : ∀ name v w, fields.get? name = some v → others.get? name = some w → Alike v w) :
      Alike (.object fields) (.object others)

namespace Value

variable {u v w : Value} {fields others : Fields}

/-- Objects are alike if they say alike under every name. -/
theorem alike_object_iff : (object fields).Alike (.object others)
    ↔ ∀ name, Option.Rel Alike (Keyed.get? fields name) (Keyed.get? others name) := by
  constructor
  · intro h name
    cases h with
    | object hnames h =>
      specialize hnames name
      specialize h name
      cases hf : Keyed.get? fields name with
      | none =>
        cases ho : Keyed.get? others name with
        | none => exact .none
        | some w => simp [hf, ho] at hnames
      | some v =>
        cases ho : Keyed.get? others name with
        | none => simp [hf, ho] at hnames
        | some w => exact .some (h v w hf ho)
  · intro h
    refine .object (fun name => ?_) fun name v w hv hw => ?_
    · have hrel := h name
      generalize Keyed.get? fields name = found at hrel
      generalize Keyed.get? others name = found' at hrel
      cases hrel <;> rfl
    · have hrel := h name
      rw [hv, hw] at hrel
      cases hrel with
      | some hvw => exact hvw

theorem Alike.symm (h : v.Alike w) : w.Alike v := by
  induction h with
  | scalar s => exact .scalar s
  | array hlength _ ih => exact .array hlength.symm fun i v w hv hw => ih i w v hw hv
  | object hnames _ ih =>
    exact .object (fun name => (hnames name).symm) fun name v w hv hw => ih name w v hw hv

theorem Alike.trans (huv : u.Alike v) (hvw : v.Alike w) : u.Alike w := by
  induction huv generalizing w with
  | scalar s => exact hvw
  | @array items others hlength _ ih =>
    cases hvw with
    | @array _ more hlength' h' =>
      refine .array (hlength.trans hlength') fun i a c ha hc => ?_
      have hi : i < others.length := hlength' ▸ (List.getElem?_eq_some_iff.mp hc).1
      exact ih i a others[i] ha (List.getElem?_eq_getElem hi)
        (h' i others[i] c (List.getElem?_eq_getElem hi) hc)
  | @object fields others hnames _ ih =>
    cases hvw with
    | @object _ more hnames' h' =>
      refine .object (fun name => (hnames name).trans (hnames' name)) fun name a c ha hc => ?_
      have hsome : (others.get? name).isSome = true := by rw [hnames' name, hc]; rfl
      obtain ⟨b, hb⟩ := Option.isSome_iff_exists.mp hsome
      exact ih name a b ha hb (h' name b c hb hc)

end Value

namespace Json

variable {style : Style} {room : Nat} {v : Value}

/-- The order of the fields does not change what a legible value says. -/
theorem Legible.alike_arranged {good : Text → Prop} (h : Legible good room v) :
    Value.Alike (style.arranged v) v := by
  induction h with
  | null _ => exact .scalar _
  | bool _ _ => exact .scalar _
  | int _ _ => exact .scalar _
  | text _ _ => exact .scalar _
  | array _ ih =>
    rw [Style.arranged, Style.arrangedItems_eq_map]
    refine .array (List.length_map _) fun i v w hv hw => ?_
    rw [List.getElem?_map, hw] at hv
    obtain rfl := Option.some.inj hv
    exact ih w (List.mem_of_getElem? hw)
  | @object _ fields _ honce _ ih =>
    have hget (name : Scalar) : Keyed.get? (style.order (Style.arrangedFields style fields)) name
        = (fields.get? name).map style.arranged := by
      rw [Style.arrangedFields_eq_map, Style.order_map, Keyed.get?_map,
        honce.get?_perm (Style.order_perm fields).symm]
    rw [Style.arranged]
    refine .object (fun name => ?_) fun name v w hv hw => ?_
    · rw [hget, Option.isSome_map]
    · rw [hget, hw] at hv
      obtain rfl := Option.some.inj hv
      obtain ⟨k, hk, -⟩ := Keyed.exists_mem_of_get? hw
      exact ih _ hk

end Json

end Lineage
