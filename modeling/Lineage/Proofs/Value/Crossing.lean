/-
Lineage.Proofs.Value.Crossing — entries that run into a value.

Entering at a path fails where a value that is no object stands before the
end of the path (`Value.Blocked`).  Nothing is found beyond such a value,
so there is no other one on the way, and the failure names the place
(`setPath_eq_error_iff`).

A run of entries leaves alone what stands at a path that no entry leads to
or passes through (`Entered.at?_of_apart`).
-/
import Lineage.Proofs.Value.Entering

namespace Lineage

open Value (names)

namespace Value

/-- At the first `k` names of the path, which goes on beyond them, stands a
value that is no object. -/
def Blocked (v : Value) (path : List Text) (k : Nat) : Prop :=
  0 < k ∧ k < path.length ∧ ∃ w, v.at? (names (path.take k)) = some w ∧ w.fields? = none

section Blocked

variable {v : Value} {name next : Text} {path : List Text} {k : Nat}

/-- What is no object holds nothing under a name. -/
theorem at?_of_fields? {name : Scalar} {path : List Scalar} (h : v.fields? = none) :
    v.at? (name :: path) = none := by
  cases v with
  | object fields => cases h
  | scalar s => rfl
  | array items => rfl

theorem blocked_one_iff : v.Blocked (name :: next :: path) 1
    ↔ ∃ w, v.get? (.text name) = some w ∧ w.fields? = none := by
  have hfirst : v.at? (names ((name :: next :: path).take 1)) = v.get? (.text name) :=
    at?_names_singleton v name
  rw [Blocked, hfirst]
  simp

theorem blocked_succ_iff : v.Blocked (name :: path) (k + 2)
    ↔ ∃ w, v.get? (.text name) = some w ∧ w.Blocked path (k + 1) := by
  rw [Blocked, List.take_succ_cons, at?_names_cons]
  constructor
  · rintro ⟨-, hlt, u, hu, hplain⟩
    obtain ⟨w, hw, hu⟩ := Option.bind_eq_some_iff.mp hu
    exact ⟨w, hw, Nat.succ_pos k, Nat.lt_of_succ_lt_succ hlt, u, hu, hplain⟩
  · rintro ⟨w, hw, -, hlt, u, hu, hplain⟩
    exact ⟨Nat.succ_pos _, Nat.succ_lt_succ hlt, u, by rw [hw]; exact hu, hplain⟩

/-- The value under the first name is in the way, or one further down
is. -/
theorem exists_blocked_iff {P : Nat → Prop} : (∃ k, v.Blocked (name :: next :: path) k ∧ P k)
    ↔ ∃ w, v.get? (.text name) = some w
      ∧ (w.fields? = none ∧ P 1 ∨ ∃ k, w.Blocked (next :: path) k ∧ P (k + 1)) := by
  constructor
  · rintro ⟨k, hblocked, hk⟩
    match k with
    | 0 => exact absurd hblocked.1 (Nat.lt_irrefl 0)
    | 1 =>
      obtain ⟨w, hw, hplain⟩ := blocked_one_iff.mp hblocked
      exact ⟨w, hw, .inl ⟨hplain, hk⟩⟩
    | k + 2 =>
      obtain ⟨w, hw, hbelow⟩ := blocked_succ_iff.mp hblocked
      exact ⟨w, hw, .inr ⟨k + 1, hbelow, hk⟩⟩
  · rintro ⟨w, hw, ⟨hplain, hk⟩ | ⟨k, hbelow, hk⟩⟩
    · exact ⟨1, blocked_one_iff.mpr ⟨w, hw, hplain⟩, hk⟩
    · obtain ⟨k, rfl⟩ : ∃ j, k = j + 1 := ⟨k - 1, by have := hbelow.1; omega⟩
      exact ⟨k + 2, blocked_succ_iff.mpr ⟨w, hw, hbelow⟩, hk⟩

/-- Nothing is found beyond a value that is no object. -/
theorem not_blocked_of_fields? (h : v.fields? = none) : ¬ v.Blocked path k := by
  rintro ⟨hk, hlt, w, hw, -⟩
  obtain ⟨k, rfl⟩ : ∃ j, k = j + 1 := ⟨k - 1, by omega⟩
  cases path with
  | nil => cases hlt
  | cons name path =>
    rw [List.take_succ_cons, names, List.map_cons, at?_of_fields? h] at hw
    cases hw

theorem not_blocked_empty : ¬ (object []).Blocked path k := by
  rintro ⟨hk, hlt, w, hw, -⟩
  obtain ⟨k, rfl⟩ : ∃ j, k = j + 1 := ⟨k - 1, by omega⟩
  cases path with
  | nil => cases hlt
  | cons name path => cases hw

end Blocked

end Value

/-! ## One entry -/

theorem setPathFrom_eq_error_iff {whole path : List Text} {depth : Nat} {fields : Fields}
    {w : Value} {c : Crossing} :
    setPathFrom whole depth fields path w = .error c
      ↔ ∃ k, (Value.object fields).Blocked path k ∧ c = ⟨whole, depth + k⟩ := by
  induction path generalizing depth fields with
  | nil => simp [setPathFrom, Value.Blocked]
  | cons name path ih =>
    cases path with
    | nil =>
      have hnone (k : Nat) : ¬ (Value.object fields).Blocked [name] k := fun h => by
        have hpos := h.1
        have hlt := h.2.1
        rw [List.length_singleton] at hlt
        omega
      simp [setPathFrom, hnone]
    | cons next path =>
      rw [Value.exists_blocked_iff, setPathFrom]
      · change _ ↔ ∃ v, Keyed.get? fields (.text name) = some v ∧ _
        cases hget : Keyed.get? fields (.text name) with
        | none => simp [map_eq_error_iff, ih, Value.not_blocked_empty]
        | some v =>
          cases v with
          | object inner =>
            simp [map_eq_error_iff, ih, Value.fields?, Nat.add_assoc, Nat.add_comm 1]
          | scalar s =>
            have hplain : (Value.scalar s).fields? = none := rfl
            simp [hplain, Value.not_blocked_of_fields? hplain, eq_comm]
          | array items =>
            have hplain : (Value.array items).fields? = none := rfl
            simp [hplain, Value.not_blocked_of_fields? hplain, eq_comm]
      · exact List.cons_ne_nil _ _

/-- Entering at a path fails where a value that is no object is in the
way, and names the place. -/
theorem setPath_eq_error_iff {path : List Text} {fields : Fields} {w : Value} {c : Crossing} :
    setPath fields path w = .error c
      ↔ ∃ k, (Value.object fields).Blocked path k ∧ c = ⟨path, k⟩ := by
  rw [setPath, setPathFrom_eq_error_iff]
  simp only [Nat.zero_add]

/-! ## Runs of entries -/

/-- Neither path leads to the other, and they are not the same. -/
def Apart (p q : List Scalar) : Prop :=
  ¬ p <+: q ∧ ¬ q <+: p

namespace Entered

variable {v v' : Value} {entries : List (List Text × Value)}

/-- Entries that stay apart from a path leave alone what stands there. -/
theorem at?_of_apart (h : Entered v entries v') {path : List Scalar}
    (hentries : ∀ e ∈ entries, Apart (names e.1) path) : v'.at? path = v.at? path := by
  induction h with
  | nil v => rfl
  | @cons v v' w entered rest _ _ ih =>
    obtain ⟨hentered, hrest⟩ := List.forall_mem_cons.mp hentries
    rw [ih hrest]
    exact Value.at?_enter_of_apart v w hentered.1 hentered.2

end Entered

end Lineage
