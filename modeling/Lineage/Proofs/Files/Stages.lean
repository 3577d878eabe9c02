/-
Lineage.Proofs.Files.Stages — reading records, one step at a time.

Lines are read, files loaded and annotations checked in their order, and
the first failure ends it.  Each of these recursions is one step followed
by the rest (`readLines_cons`, `loadGroups_cons`, `checkAcls_cons`), so
that what succeeds is what every step made of its part, and a file of
records is loaded if it is there, has no fault of its encoding and all of
its lines are accepted (`loadGroupsOf_eq_ok_iff`).
-/
import Lineage.Files.Records
import Lineage.Proofs.Outcome

namespace Lineage

namespace Files

/-! ## Lines -/

section Lines

variable {α : Type} [Stack] {routine : Routine} {check : Value → Except Schema.Rejection α}
  {p : Path} {number : Nat} {line : List Char} {rest : List (List Char)}

theorem readLine_eq_ok_iff {v : Value} :
    readLine routine p number line = .ok v
      ↔ Json.readWithin (Stack.room routine) (.ofChars line) = .ok v := by
  unfold readLine
  cases Json.readWithin (Stack.room routine) (.ofChars line) <;> simp

/-- Blank lines hold nothing. -/
theorem readLines_cons_of_blank (h : line.all Text.isBlank = true) :
    readLines routine check p number (line :: rest)
      = readLines routine check p (number + 1) rest := by
  rw [readLines, if_pos h]

/-- The document of a line is checked before the next line is read. -/
theorem readLines_cons (h : line.all Text.isBlank = false) :
    readLines routine check p number (line :: rest)
      = (readLine routine p number line >>= fun v => (check v).mapError .rejected) >>= fun a =>
        readLines routine check p (number + 1) rest >>= fun as => .ok (a :: as) := by
  rw [readLines, if_neg (by simp [h])]
  cases readLine routine p number line with
  | error failure => rfl
  | ok v =>
    dsimp only [bind, Except.bind]
    cases check v with
    | error rejection => rfl
    | ok a =>
      dsimp only [Except.mapError]
      cases readLines routine check p (number + 1) rest <;> rfl

theorem readLines_cons_eq_ok_iff {as : List α} (h : line.all Text.isBlank = false) :
    readLines routine check p number (line :: rest) = .ok as
      ↔ ∃ v a more, Json.readWithin (Stack.room routine) (.ofChars line) = .ok v ∧ check v = .ok a
        ∧ readLines routine check p (number + 1) rest = .ok more ∧ a :: more = as := by
  simp only [readLines_cons h, bind_eq_ok_iff, mapError_eq_ok_iff, readLine_eq_ok_iff,
    Except.ok.injEq]
  constructor
  · rintro ⟨a, ⟨v, hv, ha⟩, more, hmore, heq⟩
    exact ⟨v, a, more, hv, ha, hmore, heq⟩
  · rintro ⟨v, a, more, hv, ha, hmore, heq⟩
    exact ⟨a, ⟨v, hv, ha⟩, more, hmore, heq⟩

end Lines

/-! ## Files of records -/

section Records

variable [Stack] {f : Files} {now : Int} {p : Path}

theorem loadGroupsOf_eq_ok_iff {gs : List Group} :
    f.loadGroupsOf now p = .ok gs
      ↔ f.has p = .ok true ∧ ∃ bytes, f.readBytes p = .ok bytes
        ∧ readLines .readGroup (Group.check now) p 1 (PiecewiseLines.ofBytes bytes).lines = .ok gs
        ∧ (PiecewiseLines.ofBytes bytes).fault = none := by
  unfold loadGroupsOf
  cases f.has p with
  | error fault => simp
  | ok there =>
    cases there with
    | false => simp
    | true =>
      cases f.readBytes p with
      | error fault => simp
      | ok bytes =>
        dsimp only
        cases hlines : readLines .readGroup (Group.check now) p 1
            (PiecewiseLines.ofBytes bytes).lines <;>
          cases hfault : (PiecewiseLines.ofBytes bytes).fault <;> simp [hlines, hfault]

/-- Files are loaded one after the other. -/
theorem loadGroups_cons (f : Files) (now : Int) (p : Path) (rest : List Path) :
    f.loadGroups now (p :: rest)
      = f.loadGroupsOf now p >>= fun gs => f.loadGroups now rest >>= fun more =>
        .ok (gs ++ more) := by
  rw [loadGroups]
  cases f.loadGroupsOf now p with
  | error failure => rfl
  | ok gs =>
    dsimp only [bind, Except.bind]
    cases f.loadGroups now rest <;> rfl

theorem loadGroups_cons_eq_ok_iff {rest : List Path} {all : List Group} :
    f.loadGroups now (p :: rest) = .ok all
      ↔ ∃ gs, f.loadGroupsOf now p = .ok gs ∧ ∃ more, f.loadGroups now rest = .ok more
        ∧ gs ++ more = all := by
  simp only [loadGroups_cons, bind_eq_ok_iff, Except.ok.injEq]

end Records

/-! ## Annotations -/

/-- Annotations are checked one after the other. -/
theorem checkAcls_cons (v : Value) (rest : List Value) :
    checkAcls (v :: rest)
      = (Acl.check v).mapError .rejected >>= fun a => checkAcls rest >>= fun as =>
        .ok (a :: as) := by
  rw [checkAcls]
  cases Acl.check v with
  | error rejection => rfl
  | ok a =>
    dsimp only [Except.mapError, bind, Except.bind]
    cases checkAcls rest <;> rfl

theorem checkAcls_cons_eq_ok_iff {v : Value} {rest : List Value} {acls : List Acl} :
    checkAcls (v :: rest) = .ok acls
      ↔ ∃ a, Acl.check v = .ok a ∧ ∃ more, checkAcls rest = .ok more ∧ a :: more = acls := by
  simp only [checkAcls_cons, bind_eq_ok_iff, mapError_eq_ok_iff, Except.ok.injEq]

end Files

end Lineage
