/-
Lineage.Text.Parts — the parts of a list between the places where a
separator stands.

There is always one part more than separators, and putting the parts
together again with the separator between them gives the list back
(`intercalate_partsAt`).
-/

namespace Lineage.Text

universe u

/-- The parts of a list between separators. -/
def partsAt {α : Type u} [DecidableEq α] (separator : α) : List α → List (List α)
  | [] => [[]]
  | x :: rest =>
    if x = separator then [] :: partsAt separator rest
    else
      match partsAt separator rest with
      | part :: more => (x :: part) :: more
      | [] => [[x]]

theorem partsAt_ne_nil {α : Type u} [DecidableEq α] (separator : α) (xs : List α) :
    partsAt separator xs ≠ [] := by
  cases xs with
  | nil => simp [partsAt]
  | cons x rest =>
    by_cases h : x = separator
    · simp [partsAt, h]
    · cases hp : partsAt separator rest <;> simp [partsAt, h, hp]

/-- The parts with the separator between them are the list. -/
theorem intercalate_partsAt {α : Type u} [DecidableEq α] (separator : α) (xs : List α) :
    List.intercalate [separator] (partsAt separator xs) = xs := by
  induction xs with
  | nil => simp [partsAt, List.intercalate]
  | cons x rest ih =>
    by_cases h : x = separator
    · cases hp : partsAt separator rest with
      | nil => exact absurd hp (partsAt_ne_nil separator rest)
      | cons part more =>
        rw [hp] at ih
        simp_all [partsAt, List.intercalate]
    · cases hp : partsAt separator rest with
      | nil => exact absurd hp (partsAt_ne_nil separator rest)
      | cons part more =>
        rw [hp] at ih
        cases more <;> simp_all [partsAt, List.intercalate]

end Lineage.Text
