/-
Lineage.Proofs.Text.Lines — the lines of a text, beside the functions that
cut it.

A line runs up to a line feed, a carriage return or both, and the last one
may run up to the end of the text.  `Lines` says this of the text as it
stands, with its line ends as they are; writing every end as one line feed
and cutting at line feeds gives just these lines (`lines_iff`).
-/
import Lineage.Text.Lines

namespace Lineage.Text

/-- The characters end a line, and the rest follows: a line feed behind a
carriage return belongs to the same end. -/
inductive LineEnd : List Char → List Char → Prop
  | lineFeed (rest : List Char) : LineEnd ['\n'] rest
  | both (rest : List Char) : LineEnd ['\r', '\n'] rest
  | carriageReturn {rest : List Char} (h : rest.head? ≠ some '\n') : LineEnd ['\r'] rest

/-- Nothing in the characters ends a line. -/
def OneLine (cs : List Char) : Prop :=
  ∀ c ∈ cs, c ≠ '\n' ∧ c ≠ '\r'

/-- The lines of a text, each without its end; a last line without an end
is not empty. -/
inductive Lines : List Char → List (List Char) → Prop
  | nil : Lines [] []
  | last {line : List Char} (hne : line ≠ []) (hline : OneLine line) : Lines line [line]
  | ended {line ending rest : List Char} {lines : List (List Char)} (hline : OneLine line)
      (hend : LineEnd ending rest) (h : Lines rest lines) :
      Lines (line ++ (ending ++ rest)) (line :: lines)

section OneLine

variable {line rest : List Char} {c : Char}

theorem oneLine_nil : OneLine [] :=
  fun _ hc => absurd hc List.not_mem_nil

theorem oneLine_cons : OneLine (c :: line) ↔ (c ≠ '\n' ∧ c ≠ '\r') ∧ OneLine line :=
  List.forall_mem_cons

theorem unifyLines_cons (h : c ≠ '\r') : unifyLines (c :: rest) = c :: unifyLines rest := by
  rw [unifyLines] <;> simp [h]

/-- What is on one line stays as it is. -/
theorem unifyLines_append (h : OneLine line) (rest : List Char) :
    unifyLines (line ++ rest) = line ++ unifyLines rest := by
  induction line with
  | nil => rfl
  | cons c line ih =>
    obtain ⟨⟨-, hc⟩, hline⟩ := oneLine_cons.mp h
    rw [List.cons_append, unifyLines_cons hc, ih hline, List.cons_append]

/-- Every end of a line is written as a line feed. -/
theorem LineEnd.unifyLines_append {ending : List Char} (h : LineEnd ending rest) :
    unifyLines (ending ++ rest) = '\n' :: unifyLines rest := by
  cases h with
  | lineFeed rest => exact unifyLines_cons (by decide)
  | both rest => rfl
  | carriageReturn h =>
    rw [List.singleton_append, unifyLines]
    rintro rest rfl
    exact h rfl

theorem splitLines_of_oneLine (h : OneLine line) (hne : line ≠ []) : splitLines line = [line] := by
  induction line with
  | nil => exact absurd rfl hne
  | cons c line ih =>
    obtain ⟨⟨hc, -⟩, hline⟩ := oneLine_cons.mp h
    rw [splitLines, if_neg hc]
    cases line with
    | nil => rfl
    | cons d line => rw [ih hline (List.cons_ne_nil d line)]

theorem splitLines_append (h : OneLine line) (rest : List Char) :
    splitLines (line ++ '\n' :: rest) = line :: splitLines rest := by
  induction line with
  | nil => rw [List.nil_append, splitLines, if_pos rfl]
  | cons c line ih =>
    obtain ⟨⟨hc, -⟩, hline⟩ := oneLine_cons.mp h
    rw [List.cons_append, splitLines, if_neg hc, ih hline]

end OneLine

theorem lines_splitLines (cs : List Char) : Lines cs (splitLines (unifyLines cs)) := by
  fun_induction unifyLines cs with
  | case1 => exact .nil
  | case2 rest ih =>
    rw [splitLines, if_pos rfl]
    exact .ended oneLine_nil (.both rest) ih
  | case3 rest hrest ih =>
    rw [splitLines, if_pos rfl]
    refine .ended oneLine_nil (.carriageReturn fun hhead => ?_) ih
    obtain ⟨rest, rfl⟩ := List.head?_eq_some_iff.mp hhead
    exact hrest rest rfl
  | case4 c rest _ hreturn ih =>
    rw [splitLines]
    split
    · rename_i hc
      subst hc
      exact .ended oneLine_nil (.lineFeed rest) ih
    · rename_i hfeed
      -- The character stands on the first line of the rest.
      have hc : c ≠ '\n' ∧ c ≠ '\r' := ⟨hfeed, hreturn⟩
      generalize splitLines (unifyLines rest) = lines at ih
      cases ih with
      | nil => exact .last (List.cons_ne_nil c []) (oneLine_cons.mpr ⟨hc, oneLine_nil⟩)
      | last _ hline => exact .last (List.cons_ne_nil c _) (oneLine_cons.mpr ⟨hc, hline⟩)
      | ended hline hend h => exact .ended (oneLine_cons.mpr ⟨hc, hline⟩) hend h

/-- A text has one list of lines, and that is how it is cut. -/
theorem lines_iff {cs : List Char} {lines : List (List Char)} :
    Lines cs lines ↔ splitLines (unifyLines cs) = lines := by
  constructor
  · intro h
    induction h with
    | nil => rfl
    | @last line hne hline =>
      have hunified := unifyLines_append hline []
      rw [unifyLines, List.append_nil] at hunified
      rw [hunified, splitLines_of_oneLine hline hne]
    | ended hline hend _ ih =>
      rw [unifyLines_append hline, hend.unifyLines_append, splitLines_append hline, ih]
  · rintro rfl
    exact lines_splitLines cs

end Lineage.Text
