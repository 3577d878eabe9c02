/-
Lineage.Text.Blank — blank characters and the removal of blanks around
a text.

`isBlank` is the wide class (every Unicode space, and the separators
U+001C to U+001F); `isSpace` is the Unicode property White_Space, which
leaves those four out.  `trimWhere` removes a class at both ends of a
list, `strip` removes blanks around a text.
-/
import Lineage.Text.Basic

namespace Lineage.Text

/-- The Unicode property White_Space. -/
def isSpace (c : Char) : Bool :=
  let n := c.toNat
  (9 ≤ n && n ≤ 13) || n == 0x20 || n == 0x85 || n == 0xA0 || n == 0x1680
    || (0x2000 ≤ n && n ≤ 0x200A) || n == 0x2028 || n == 0x2029 || n == 0x202F
    || n == 0x205F || n == 0x3000

/-- A blank: white space, or one of the four information separators. -/
def isBlank (c : Char) : Bool :=
  isSpace c || (0x1C ≤ c.toNat && c.toNat ≤ 0x1F)

/-- Removes the members of a class at both ends of a list. -/
def trimWhere {α : Type} (class? : α → Bool) (xs : List α) : List α :=
  ((xs.dropWhile class?).reverse.dropWhile class?).reverse

/-- Removes the blanks at both ends of a text. -/
def strip (t : Text) : Text :=
  trimWhere (CodePoint.isIn isBlank) t

/-- Every white-space character of the core library is blank. -/
theorem isBlank_of_isWhitespace {c : Char} (h : c.isWhitespace = true) : isBlank c = true := by
  simp only [Char.isWhitespace, Bool.or_eq_true, decide_eq_true_eq] at h
  rcases h with ((h | h) | h) | h <;> subst h <;> decide

end Lineage.Text
