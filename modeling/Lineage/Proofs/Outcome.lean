/-
Lineage.Proofs.Outcome — steps that can fail, in sequence and along
lists.

A sequence of steps succeeds if each of them does, and a traversal of a
list is the sequence of its steps.  It breaks off at the first element
whose step fails (`BreaksOff`), and fails as that step does
(`mapM_eq_error_iff`).
-/
import Mathlib.Data.List.Forall2
import Mathlib.Tactic.Tauto

namespace Lineage

variable {α β γ ε : Type}

/-! ## One step after another -/

/-- Steps in sequence succeed if each of them does. -/
theorem bind_eq_ok_iff {f : α → Except ε β} {x : Except ε α} {b : β} :
    x >>= f = .ok b ↔ ∃ a, x = .ok a ∧ f a = .ok b := by
  cases x <;> simp [bind, Except.bind]

/-- Steps in sequence fail as the first one does, or as the second one
behind it. -/
theorem bind_eq_error_iff {f : α → Except ε β} {x : Except ε α} {e : ε} :
    x >>= f = .error e ↔ x = .error e ∨ ∃ a, x = .ok a ∧ f a = .error e := by
  cases x <;> simp [bind, Except.bind]

theorem map_eq_ok_iff {f : α → β} {x : Except ε α} {b : β} :
    x.map f = .ok b ↔ ∃ a, x = .ok a ∧ f a = b := by
  cases x <;> simp [Except.map]

theorem map_eq_error_iff {f : α → β} {x : Except ε α} {e : ε} :
    x.map f = .error e ↔ x = .error e := by
  cases x <;> simp [Except.map]

theorem mapError_eq_ok_iff {f : ε → γ} {x : Except ε α} {a : α} :
    x.mapError f = .ok a ↔ x = .ok a := by
  cases x <;> simp [Except.mapError]

theorem mapError_eq_error_iff {f : ε → γ} {x : Except ε α} {e : γ} :
    x.mapError f = .error e ↔ ∃ fault, x = .error fault ∧ f fault = e := by
  cases x <;> simp [Except.mapError]

theorem map_mapError {f : α → β} {g : ε → γ} (x : Except ε α) :
    (x.mapError g).map f = (x.map f).mapError g := by
  cases x <;> rfl

theorem exists_ok_of_isOk {x : Except ε α} (h : x.isOk = true) : ∃ a, x = .ok a := by
  cases x with
  | error fault => cases h
  | ok a => exact ⟨a, rfl⟩

theorem toOption_eq_some_iff {x : Except ε α} {a : α} : x.toOption = some a ↔ x = .ok a := by
  cases x <;> simp [Except.toOption]

/-- What is worked out of an answer shows that there is one. -/
theorem map_toOption_eq_some_iff {x : Except ε α} {g : α → γ} {c : γ} :
    x.toOption.map g = some c ↔ ∃ a, x = .ok a ∧ g a = c := by
  cases x <;> simp [Except.toOption]

/-- What can be checked of an answer holds of the value that it is. -/
theorem of_toOption_all {P : α → Prop} [DecidablePred P] {x : Except ε α} {a : α} (hx : x = .ok a)
    (h : (x.toOption.all fun a => decide (P a)) = true) : P a := by
  rw [hx] at h
  exact of_decide_eq_true h

/-! ## Where a traversal breaks off -/

section BreaksOff

variable {α : Type} {good bad : α → Prop} {x : α} {xs ys : List α}

/-- A traversal that goes on while elements are good comes to one that is
bad. -/
def BreaksOff (good bad : α → Prop) (xs : List α) : Prop :=
  ∃ before x after, xs = before ++ x :: after ∧ (∀ y ∈ before, good y) ∧ bad x

theorem not_breaksOff_nil : ¬ BreaksOff good bad [] := by
  rintro ⟨before, x, after, heq, -⟩
  exact List.append_ne_nil_of_right_ne_nil before (List.cons_ne_nil x after) heq.symm

theorem breaksOff_cons :
    BreaksOff good bad (x :: xs) ↔ bad x ∨ (good x ∧ BreaksOff good bad xs) := by
  constructor
  · rintro ⟨before, y, after, heq, hbefore, hbad⟩
    cases before with
    | nil =>
      obtain ⟨rfl, -⟩ := List.cons.inj heq
      exact .inl hbad
    | cons z before =>
      obtain ⟨rfl, rfl⟩ := List.cons.inj heq
      obtain ⟨hgood, hbefore⟩ := List.forall_mem_cons.mp hbefore
      exact .inr ⟨hgood, before, y, after, rfl, hbefore, hbad⟩
  · rintro (hbad | ⟨hgood, before, y, after, rfl, hbefore, hbad⟩)
    · exact ⟨[], x, xs, rfl, fun _ h => absurd h List.not_mem_nil, hbad⟩
    · exact ⟨x :: before, y, after, rfl, List.forall_mem_cons.mpr ⟨hgood, hbefore⟩, hbad⟩

theorem breaksOff_append :
    BreaksOff good bad (xs ++ ys)
      ↔ BreaksOff good bad xs ∨ ((∀ x ∈ xs, good x) ∧ BreaksOff good bad ys) := by
  induction xs with
  | nil => simp [not_breaksOff_nil]
  | cons x xs ih =>
    rw [List.cons_append, breaksOff_cons, breaksOff_cons, ih, List.forall_mem_cons]
    tauto

end BreaksOff

/-! ## Traversals -/

variable {f : α → Except ε β}

/-- A traversal succeeds if every step does. -/
theorem mapM_eq_ok_iff {xs : List α} {ys : List β} :
    xs.mapM f = .ok ys ↔ List.Forall₂ (fun x y => f x = .ok y) xs ys := by
  induction xs generalizing ys with
  | nil => simp [pure, Except.pure, eq_comm]
  | cons x rest ih =>
    rw [List.forall₂_cons_left_iff, List.mapM_cons]
    cases f x with
    | error e => simp [bind, Except.bind]
    | ok y =>
      simp only [← ih]
      cases rest.mapM f <;> simp [bind, Except.bind, pure, Except.pure, eq_comm]

/-- A traversal fails as its first step that fails. -/
theorem mapM_eq_error_iff {xs : List α} {e : ε} :
    xs.mapM f = .error e ↔ BreaksOff (fun x => ∃ y, f x = .ok y) (fun x => f x = .error e) xs := by
  induction xs with
  | nil => simp [pure, Except.pure, not_breaksOff_nil]
  | cons x rest ih =>
    rw [List.mapM_cons, breaksOff_cons, ← ih]
    cases f x with
    | error fault => simp [bind, Except.bind]
    | ok y => cases rest.mapM f <;> simp [bind, Except.bind, pure, Except.pure]

theorem mapM_eq_error_of_first {earlier later : List α} {x : α} {e : ε}
    (hearlier : ∀ a ∈ earlier, ∃ y, f a = .ok y) (hx : f x = .error e) :
    (earlier ++ x :: later).mapM f = .error e :=
  mapM_eq_error_iff.mpr ⟨earlier, x, later, rfl, hearlier, hx⟩

/-- A traversal that fails does so as one of its steps. -/
theorem exists_of_mapM_eq_error {xs : List α} {e : ε} (h : xs.mapM f = .error e) :
    ∃ x ∈ xs, f x = .error e := by
  obtain ⟨earlier, x, later, rfl, -, hx⟩ := mapM_eq_error_iff.mp h
  exact ⟨x, by simp, hx⟩

/-- What collects the results of one step after another may stop at any
point and go on from there. -/
theorem append_of_cons (step : α → Except ε (List β)) (collect : List α → Except ε (List β))
    (hnil : collect [] = .ok [])
    (hcons : ∀ x xs, collect (x :: xs)
      = step x >>= fun bs => collect xs >>= fun more => .ok (bs ++ more)) (xs ys : List α) :
    collect (xs ++ ys) = collect xs >>= fun bs => collect ys >>= fun more => .ok (bs ++ more) := by
  induction xs with
  | nil =>
    rw [List.nil_append, hnil]
    cases collect ys <;> rfl
  | cons x xs ih =>
    rw [List.cons_append, hcons, ih, hcons]
    cases step x with
    | error e => rfl
    | ok bs =>
      cases collect xs with
      | error e => rfl
      | ok more => cases collect ys <;> simp [bind, Except.bind]

/-- Traversals agree if their steps do. -/
theorem mapM_congr_of_mem {f g : α → Except ε β} {xs : List α} (h : ∀ x ∈ xs, f x = g x) :
    xs.mapM f = xs.mapM g := by
  induction xs with
  | nil => rfl
  | cons x rest ih =>
    rw [List.mapM_cons, List.mapM_cons, h x List.mem_cons_self,
      ih fun y hy => h y (List.mem_cons_of_mem x hy)]

end Lineage
