/-
Lineage.Text.Lines — lines of a text.

A line ends with a line feed, a carriage return or both in this order;
`unifyLines` writes each of these ends as one line feed, as reading a
text file does.  No other character ends a line.
-/

namespace Lineage.Text

/-- Writes every line end as one line feed. -/
def unifyLines : List Char → List Char
  | [] => []
  | '\r' :: '\n' :: rest => '\n' :: unifyLines rest
  | '\r' :: rest => '\n' :: unifyLines rest
  | c :: rest => c :: unifyLines rest

/-- The lines of a text with unified line ends, each without its end; a
last line without an end counts if it is not empty. -/
def splitLines : List Char → List (List Char)
  | [] => []
  | c :: rest =>
    if c = '\n' then [] :: splitLines rest
    else
      match splitLines rest with
      | [] => [[c]]
      | line :: lines => (c :: line) :: lines

/-- A text with unified line ends holds no carriage return. -/
theorem not_mem_unifyLines (cs : List Char) : '\r' ∉ unifyLines cs := by
  fun_induction unifyLines cs with
  | case1 => simp
  | case2 rest ih => simp [ih]
  | case3 rest _ ih => simp [ih]
  | case4 c rest _ h ih =>
    have hc : c ≠ '\r' := fun e => h e
    simp [ih, Ne.symm hc]

end Lineage.Text
