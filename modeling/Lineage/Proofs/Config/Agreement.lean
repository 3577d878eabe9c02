/-
Lineage.Proofs.Config.Agreement — the two ways to enter nested variables
agree.

The raw texts of nested settings are collected by a walk of their own, and
policy variables are entered with `setPath`.  The two walks stop for
different reasons: the one where a text is asked for a field or is to take
one, the other where the next value is no object.  In a mapping that the
variables themselves have made only texts can be in the way, and there the
two reasons come to the same variable (`enterRaw_eq_setPath`).  The
induction is on the path, with the names already walked at the front of it,
because `setPath` reports the whole path and how far it came.

Names are read alike behind either start.  The variables of one start keep
their order among the others (`filter_mergeSort`), and names that begin
alike are in the order of what follows (`sorted_named`), so that the order
of what the names spell does not depend on the start (`pathsOf_eq`).
-/
import Lineage.Config.Variables
import Lineage.Proofs.Outcome

namespace Lineage

/-- How a text gets in the way at a crossing: as the value that is to hold
the last name, or earlier on. -/
def Crossing.place (c : Crossing) : ScalarOnPath :=
  if c.depth + 1 = c.path.length then .below else .through

/-! ## One sort for some of the elements -/

section Sorting

variable {α : Type} {le : α → α → Bool}

/-- A list in two parts, one of which has a property and the other has
not, can be taken apart in no other way. -/
theorem parts_unique {p : α → Bool} {before before' after after' : List α}
    (heq : before ++ after = before' ++ after')
    (hbefore : ∀ x ∈ before, p x = true) (hafter : ∀ x ∈ after, p x = false)
    (hbefore' : ∀ x ∈ before', p x = true) (hafter' : ∀ x ∈ after', p x = false) :
    before = before' ∧ after = after' := by
  have hsame : before = before' := by
    have hfilter := congrArg (List.filter p) heq
    have hnone : after.filter p = [] := List.filter_eq_nil_iff.mpr fun x hx => by simp [hafter x hx]
    have hnone' : after'.filter p = [] :=
      List.filter_eq_nil_iff.mpr fun x hx => by simp [hafter' x hx]
    rwa [List.filter_append, List.filter_append, List.filter_eq_self.mpr hbefore,
      List.filter_eq_self.mpr hbefore', hnone, hnone', List.append_nil, List.append_nil] at hfilter
  subst hsame
  exact ⟨rfl, List.append_cancel_left heq⟩

/-- Sorting keeps the elements of a kind in the order in which they are
sorted alone. -/
theorem filter_mergeSort (trans : ∀ a b c, le a b = true → le b c = true → le a c = true)
    (total : ∀ a b, (le a b || le b a) = true) (p : α → Bool) (xs : List α) :
    (xs.mergeSort le).filter p = (xs.filter p).mergeSort le := by
  induction xs with
  | nil => rw [List.mergeSort_nil, List.filter_nil, List.mergeSort_nil]
  | cons a xs ih =>
    obtain ⟨before, after, hsorted, hrest, hbefore⟩ := List.mergeSort_cons trans total a xs
    rw [hrest, List.filter_append] at ih
    rw [hsorted, List.filter_append]
    by_cases ha : p a = true
    · rw [List.filter_cons_of_pos ha, List.filter_cons_of_pos ha]
      obtain ⟨before', after', hsorted', hrest', hbefore'⟩ :=
        List.mergeSort_cons trans total a (xs.filter p)
      -- `a` stands before everything that it is at most, in both lists
      have hafter (b : α) (hb : b ∈ after) : le a b = true := by
        have hordered := List.pairwise_mergeSort trans total (a :: xs)
        rw [hsorted] at hordered
        exact (List.pairwise_cons.mp (List.pairwise_append.mp hordered).2.1).1 b hb
      have hafter' (b : α) (hb : b ∈ after') : le a b = true := by
        have hordered := List.pairwise_mergeSort trans total (a :: xs.filter p)
        rw [hsorted'] at hordered
        exact (List.pairwise_cons.mp (List.pairwise_append.mp hordered).2.1).1 b hb
      obtain ⟨hfront, hback⟩ := parts_unique (p := fun b => !le a b) (ih.trans hrest')
        (fun b hb => hbefore b (List.mem_of_mem_filter hb))
        (fun b hb => by simp [hafter b (List.mem_of_mem_filter hb)])
        hbefore' (fun b hb => by simp [hafter' b hb])
      rw [hsorted', hfront, hback]
    · rw [List.filter_cons_of_neg ha, List.filter_cons_of_neg ha, ih]

end Sorting

namespace Variables

/-! ## Names -/

/-- What the names of the variables behind a start go on with. -/
def behind (start : Text) (vars : Variables) : Variables :=
  vars.filterMap fun v => (after? start v.1).map (·, v.2)

/-- Variables named by a start and what they go on with. -/
def named (start : Text) (rests : Variables) : Variables :=
  rests.map fun v => (start ++ v.1, v.2)

/-- The path that a name spells, by what it goes on with. -/
def spelled? (v : Text × Text) : Option (List Text × Text) :=
  match ((nameParts [] v.1).filter fun part => !part.isEmpty).map Text.lowercase with
  | [] => none
  | key :: keys => some (key :: keys, v.2)

section Names

variable {start name rest : Text}

theorem after?_eq_some_iff : after? start name = some rest ↔ name = start ++ rest := by
  induction start generalizing name with
  | nil => simp [after?]
  | cons s start ih =>
    cases name with
    | nil => simp [after?]
    | cons c name => by_cases h : s = c <;> simp [after?, h, ih, eq_comm]

theorem atMost_append (start a b : Text) :
    Text.atMost (start ++ a) (start ++ b) = Text.atMost a b := by
  induction start with
  | nil => rfl
  | cons s start ih => simp [Text.atMost, ih]

theorem sorted_named (start : Text) (rests : Variables) :
    (named start rests).sorted = named start rests.sorted :=
  (List.map_mergeSort fun a _ b _ => (atMost_append start a.1 b.1).symm).symm

theorem behind_named (start : Text) (rests : Variables) :
    behind start (named start rests) = rests := by
  induction rests with
  | nil => rfl
  | cons v rests ih =>
    have hname : after? start (start ++ v.1) = some v.1 := after?_eq_some_iff.mpr rfl
    rw [named, List.map_cons, behind, List.filterMap_cons, hname]
    exact congrArg (v :: ·) ih

/-- The variables behind a start, with their whole names. -/
theorem named_behind (start : Text) (vars : Variables) :
    named start (behind start vars) = vars.filter fun v => (after? start v.1).isSome := by
  induction vars with
  | nil => rfl
  | cons v vars ih =>
    rw [behind, List.filterMap_cons]
    cases hafter : after? start v.1 with
    | none =>
      rw [List.filter_cons_of_neg (by simp [hafter])]
      exact ih
    | some rest =>
      have hname : start ++ rest = v.1 := (after?_eq_some_iff.mp hafter).symm
      rw [List.filter_cons_of_pos (by simp [hafter])]
      exact congrArg₂ List.cons (Prod.ext hname rfl) ih

theorem pathsOf_eq_filterMap (start : Text) (vars : Variables) :
    pathsOf start vars = (behind start vars.sorted).filterMap spelled? := by
  rw [pathsOf, behind, List.filterMap_filterMap]
  refine List.filterMap_congr fun v _ => ?_
  simp only [path?]
  cases after? start v.1 with
  | none => rfl
  | some rest =>
    simp only [Option.map_some, Option.bind_some, spelled?]
    cases ((nameParts [] rest).filter fun part => !part.isEmpty).map Text.lowercase <;> rfl

/-- What the variables behind a start spell depends on what their names go
on with, and so does its order. -/
theorem pathsOf_eq (start : Text) (vars : Variables) :
    pathsOf start vars = (behind start vars).sorted.filterMap spelled? := by
  have hkind : named start (behind start vars.sorted) = named start (behind start vars).sorted := by
    rw [named_behind, ← sorted_named, named_behind]
    exact filter_mergeSort (fun a b c => Text.atMost_trans (a := a.1) (b := b.1) (c := c.1))
      (fun a b => Text.atMost_total a.1 b.1) _ vars
  rw [pathsOf_eq_filterMap, ← behind_named start (behind start vars.sorted), hkind, behind_named]

end Names

/-! ## Entries -/

/-- Raw texts set at their paths, one after the other. -/
def setTexts (fields : Fields) (entries : List (List Text × Text)) : Except Crossing Fields :=
  entries.foldlM (fun fields e => setPath fields e.1 (.text e.2)) fields

/-- Where a text stops the one walk a value that is no object stops the
other; `depth` names of the whole path are walked. -/
theorem enterRaw_eq_setPathFrom {whole path : List Text} {depth : Nat}
    (hwhole : whole.length = depth + path.length) (fields : Fields) (raw : Text) :
    enterRaw fields path raw
      = (setPathFrom whole depth fields path (.text raw)).mapError Crossing.place := by
  induction path generalizing depth fields with
  | nil => rfl
  | cons name path ih =>
    cases path with
    | nil => rfl
    | cons next path =>
      rw [List.length_cons, List.length_cons] at hwhole
      have hrest (inner : Fields) : enterRaw inner (next :: path) raw
          = (setPathFrom whole (depth + 1) inner (next :: path) (.text raw)).mapError
              Crossing.place :=
        ih (by rw [List.length_cons]; omega) inner
      have hlast : path.isEmpty = true ↔ depth + 1 + 1 = whole.length := by
        rw [List.isEmpty_iff_length_eq_zero]
        omega
      have hplace : (if path.isEmpty then ScalarOnPath.below else .through)
          = Crossing.place ⟨whole, depth + 1⟩ := if_congr hlast rfl rfl
      rw [enterRaw, setPathFrom]
      · cases Keyed.get? fields (.text name) with
        | none => exact (congrArg _ (hrest [])).trans (map_mapError _)
        | some v =>
          cases v with
          | object inner => exact (congrArg _ (hrest inner)).trans (map_mapError _)
          | scalar s => exact congrArg Except.error hplace
          | array items => exact congrArg Except.error hplace
      · exact List.cons_ne_nil _ _

theorem enterRaw_eq_setPath (fields : Fields) (path : List Text) (raw : Text) :
    enterRaw fields path raw = (setPath fields path (.text raw)).mapError Crossing.place :=
  enterRaw_eq_setPathFrom (Nat.zero_add _).symm fields raw

theorem enterRaws_eq_setTexts (fields : Fields) (entries : List (List Text × Text)) :
    enterRaws fields entries = (setTexts fields entries).mapError Crossing.place := by
  induction entries generalizing fields with
  | nil => rfl
  | cons e entries ih =>
    rw [enterRaws, setTexts, List.foldlM_cons, enterRaw_eq_setPath]
    cases setPath fields e.1 (.text e.2) with
    | error c => rfl
    | ok made => exact ih made

/-- Raw settings are collected as `setPath` enters them: after any number of
variables the two have made the same mapping or stopped at the same one,
where a text is in the way.  Policy variables named alike spell the same
paths in the same order. -/
theorem nestedVariables_eq_setTexts (vars : Variables) :
    vars.nestedVariables
        = (setTexts [] (pathsOf settingsStart vars)).mapError Crossing.place
      ∧ (∀ n, enterRaws [] ((pathsOf settingsStart vars).take n)
          = (setTexts [] ((pathsOf settingsStart vars).take n)).mapError Crossing.place)
      ∧ pathsOf policyStart (named policyStart (behind settingsStart vars))
        = pathsOf settingsStart vars := by
  refine ⟨enterRaws_eq_setTexts _ _, fun n => enterRaws_eq_setTexts _ _, ?_⟩
  rw [pathsOf_eq policyStart, behind_named, pathsOf_eq settingsStart]

end Variables

end Lineage
