/-
Lineage.Text.Lowercase — lower-casing of texts.

Two characters need more than the simple mapping of
`Lineage.Text.CaseTable`: the capital I with dot becomes two characters,
and the capital sigma takes its final form at the end of a word, that is
after a cased letter and before none, case-ignorable characters not
counted.
-/
import Lineage.Text.Basic
import Lineage.Text.CaseTable

namespace Lineage.Text

/-- A code point lies in one of the closed ranges. -/
def inRanges (ranges : List (Nat × Nat)) (code : Nat) : Bool :=
  ranges.any fun r => r.1 ≤ code && code ≤ r.2

/-- A cased character that is not case-ignorable. -/
def isCased (p : CodePoint) : Bool :=
  inRanges casedRanges p.code

/-- A character that word boundaries for letter case look through. -/
def isCaseIgnorable (p : CodePoint) : Bool :=
  inRanges caseIgnorableRanges p.code

/-- The simple lower-case form of a code point. -/
def lowerPoint (p : CodePoint) : CodePoint :=
  match lowerRuns.find? (·.covers p.code) with
  | some run => CodePoint.ofCode (p.code + run.shift).toNat
  | none => p

-- On the capital letters of ASCII this is the core library's mapping.
example : ∀ n : Fin 26,
    lowerPoint (.char (Char.ofNat (65 + n))) = .char (Char.ofNat (65 + n)).toLower := by
  decide

/-- The first code point that is not case-ignorable is cased. -/
def leadsToCased (t : Text) : Bool :=
  match t.dropWhile isCaseIgnorable with
  | p :: _ => isCased p
  | [] => false

/-- The lower-case form of a code point between the code points before
it, nearest first, and those after it. -/
def lowerAt (before : Text) (p : CodePoint) (after : Text) : Text :=
  match p with
  | .char 'Σ' => if leadsToCased before && !leadsToCased after then "ς" else "σ"
  | .char 'İ' => "i\u0307"
  | p => [lowerPoint p]

/-- Lower-cases a text that follows `before`, nearest first. -/
def lowerFrom (before : Text) : Text → Text
  | [] => []
  | p :: rest => lowerAt before p rest ++ lowerFrom (p :: before) rest

/-- The lower-case form of a text. -/
def lowercase (t : Text) : Text :=
  lowerFrom [] t

end Lineage.Text
