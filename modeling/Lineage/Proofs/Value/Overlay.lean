/-
Lineage.Proofs.Value.Overlay — what stands at a path when one value is
laid over another.

Laying an object over another lays what the second holds under each name
over what the first holds there (`get?_merge`).  Along a path on
which the second holds objects only (`Value.Clear`) this goes on to the
end of the path (`Clear.at?_overlay`), so a value that is no object comes
from the upper one of the two that holds anything (`laid_eq_or`).
-/
import Lineage.Proofs.Value.Proper

namespace Lineage

/-! ## Under one name -/

/-- What two values come to, the second laid over the first; either may
be missing. -/
def laid : Option Value → Option Value → Option Value
  | below, none => below
  | none, some upper => some upper
  | some below, some upper => some (below.overlay upper)

@[simp] theorem laid_none (below : Option Value) : laid below none = below := by
  cases below <;> rfl

@[simp] theorem none_laid (upper : Option Value) : laid none upper = upper := by
  cases upper <;> rfl

@[simp] theorem some_laid_some (below upper : Value) :
    laid (some below) (some upper) = some (below.overlay upper) :=
  rfl

/-- What is found is no object. -/
def Plain (found : Option Value) : Prop :=
  ∀ fields, found ≠ some (.object fields)

/-- What is found is a scalar, if anything is. -/
def Bare (found : Option Value) : Prop :=
  ∀ v, found = some v → ∃ s, v = .scalar s

theorem Bare.plain (h : Bare found) : Plain found := by
  rintro fields rfl
  obtain ⟨s, hs⟩ := h _ rfl
  cases hs

/-- Where the result is no object, the upper value stands, or the lower
one if there is no upper one. -/
theorem laid_eq_or {below upper : Option Value} (h : Plain (laid below upper)) :
    laid below upper = upper.or below := by
  cases upper with
  | none => simp
  | some u =>
    cases below with
    | none => simp
    | some b =>
      cases u with
      | scalar s => simp
      | array items => simp
      | object fields =>
        cases b with
        | object lower => exact absurd (by simp) (h (merge lower fields))
        | scalar s => simp
        | array items => simp

/-- Where the result is no object, each of the two values may be taken for
what it comes to where it is no object. -/
theorem laid_eq_or_of_plain {below upper lower higher : Option Value}
    (h : Plain (laid below upper)) (hlower : Plain below → below = lower)
    (hhigher : Plain upper → upper = higher) : laid below upper = higher.or lower := by
  have hor := laid_eq_or h
  rw [hor] at h ⊢
  cases upper with
  | none =>
    have hnone : Plain none := fun _ heq => by cases heq
    rw [← hhigher hnone, Option.none_or, Option.none_or]
    exact hlower h
  | some u =>
    rw [← hhigher h, Option.some_or, Option.some_or]

/-- The result of laying fields over fields, name by name. -/
theorem get?_merge {upper : Fields} (h : upper.Unrepeated) (lower : Fields) (name : Scalar) :
    Keyed.get? (merge lower upper) name
      = laid (Keyed.get? lower name) (Keyed.get? upper name) := by
  unfold merge
  induction upper generalizing lower with
  | nil => simp [mergeFields, Keyed.get?]
  | cons f rest ih =>
    obtain ⟨hf, hrest⟩ := Keyed.unrepeated_cons.mp h
    rw [mergeFields, ih hrest, Keyed.get?_put]
    by_cases hname : (f.1 == name) = true
    · have hnone : Keyed.get? rest name = none := by
        refine Keyed.get?_eq_none fun q hq => ?_
        rw [← hf q hq, BEq.comm, BEq.congr_left hname]
      rw [hnone, Keyed.get?_congr lower hname]
      cases Keyed.get? lower name with
      | none => simp [Keyed.get?, hname]
      | some below => simp [Keyed.get?, hname]
    · simp [Keyed.get?, hname]

namespace Value

/-! ## Along a path -/

/-- The value is an object and so is everything that it holds on the way
along the path, up to what stands at its end. -/
def Clear : Value → List Scalar → Prop
  | _, [] => True
  | v, name :: path => ∃ fields, v = .object fields
      ∧ ∀ w, Keyed.get? fields name = some w → w.Clear path

variable {below upper : Value} {path : List Scalar}

theorem clear_cons {fields : Fields} {name : Scalar} :
    (object fields).Clear (name :: path) ↔ ∀ w, Keyed.get? fields name = some w → w.Clear path := by
  rw [Clear]
  constructor
  · rintro ⟨_, heq, h⟩
    cases heq
    exact h
  · intro h
    exact ⟨fields, rfl, h⟩

theorem clear_empty (path : List Scalar) : (object []).Clear path := by
  cases path with
  | nil => trivial
  | cons name path => exact clear_cons.mpr fun w hw => by cases hw

theorem at?_cons (fields : Fields) (name : Scalar) (path : List Scalar) :
    (object fields).at? (name :: path) = (Keyed.get? fields name).bind fun w => w.at? path := by
  simp only [at?, get?]
  cases Keyed.get? fields name <;> rfl

instance decidableClear : (v : Value) → (path : List Scalar) → Decidable (v.Clear path)
  | _, [] => isTrue trivial
  | .scalar _, _ :: _ => isFalse fun ⟨_, heq, _⟩ => by cases heq
  | .array _, _ :: _ => isFalse fun ⟨_, heq, _⟩ => by cases heq
  | .object fields, name :: path =>
    match hget : Keyed.get? fields name with
    | none => isTrue (clear_cons.mpr fun w hw => by rw [hget] at hw; cases hw)
    | some v =>
      letI := decidableClear v path
      decidable_of_iff (v.Clear path) <| by
        rw [clear_cons, hget]
        exact ⟨fun h w hw => Option.some.inj hw ▸ h, fun h => h v rfl⟩

/-- Clear values laid over one another are clear. -/
theorem Clear.overlay (hbelow : below.Clear path) (hupper : upper.Clear path)
    (hproper : upper.Proper) : (below.overlay upper).Clear path := by
  induction path generalizing below upper with
  | nil => trivial
  | cons name path ih =>
    obtain ⟨lower, rfl, hlower⟩ := hbelow
    obtain ⟨fields, rfl, hfields⟩ := hupper
    rw [object_overlay_object, clear_cons]
    intro w hw
    rw [get?_merge hproper.unrepeated] at hw
    cases hl : Keyed.get? lower name with
    | none =>
      rw [hl, none_laid] at hw
      exact hfields w hw
    | some b =>
      cases hu : Keyed.get? fields name with
      | none =>
        rw [hl, hu, laid_none] at hw
        exact hlower w (hl.trans hw)
      | some u =>
        rw [hl, hu, some_laid_some] at hw
        obtain rfl := Option.some.inj hw
        exact ih (hlower b hl) (hfields u hu) (hproper.of_get? hu)

/-- At the end of a path on which the upper value is clear stands what
both values hold there, laid over one another. -/
theorem Clear.at?_overlay (hupper : upper.Clear path) (hproper : upper.Proper) (below : Value) :
    (below.overlay upper).at? path = laid (below.at? path) (upper.at? path) := by
  induction path generalizing below upper with
  | nil => simp [at?]
  | cons name path ih =>
    obtain ⟨fields, rfl, hfields⟩ := hupper
    cases below with
    | scalar s => simp [at?, get?]
    | array items => simp [at?, get?]
    | object lower =>
      rw [object_overlay_object, at?_cons, at?_cons, at?_cons, get?_merge hproper.unrepeated]
      cases hl : Keyed.get? lower name with
      | none => simp
      | some b =>
        cases hu : Keyed.get? fields name with
        | none => simp
        | some u => exact ih (hfields u hu) (hproper.of_get? hu) b

end Value

end Lineage
