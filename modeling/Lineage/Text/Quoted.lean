/-
Lineage.Text.Quoted — texts as quoted literals.

A literal stands between single quotes, or between double quotes if the
text holds a single quote and no double quote.  Backslashes, the quote
itself and characters that are not printable are escaped.
-/
import Lineage.Text.Basic
import Lineage.Text.PrintableTable

namespace Lineage.Text

/-- A literal shows the character as it is. -/
def isPrintable (code : Nat) : Bool :=
  printableRanges.any fun r => r.1 ≤ code && code ≤ r.2

/-- A number in hexadecimal digits, with zeros in front up to a width. -/
def hexPadded (width n : Nat) : List Char :=
  let digits := Nat.toDigits 16 n
  List.replicate (width - digits.length) '0' ++ digits

/-- The shortest escape of a code point that is wide enough. -/
def codeEscape (code : Nat) : List Char :=
  if code < 0x100 then '\\' :: 'x' :: hexPadded 2 code
  else if code < 0x10000 then '\\' :: 'u' :: hexPadded 4 code
  else '\\' :: 'U' :: hexPadded 8 code

/-- A code point within the quotes `mark`, escaped where it is not
printable. -/
def literalPoint (mark : Char) (p : CodePoint) : List Char :=
  let code := p.code
  if code = mark.toNat ∨ code = 0x5C then ['\\', Char.ofNat code]
  else if code = 0x0A then ['\\', 'n']
  else if code = 0x0D then ['\\', 'r']
  else if code = 0x09 then ['\\', 't']
  else if isPrintable code then [Char.ofNat code]
  else codeEscape code

/-- The quote around a text: the double one if the text holds a single
one and no double one. -/
def quoteMark (t : Text) : Char :=
  if t.contains (.char '\x27') && !t.contains (.char '"') then '"' else '\x27'

/-- The characters of a text as a quoted literal. -/
def literalChars (t : Text) : List Char :=
  let mark := quoteMark t
  mark :: t.flatMap (literalPoint mark) ++ [mark]

/-- A text as a quoted literal. -/
def literal (t : Text) : Text :=
  ofChars (literalChars t)

/-- Characters beyond ASCII written as escapes. -/
def escapeBeyondAscii (cs : List Char) : List Char :=
  cs.flatMap fun c => if c.toNat < 0x80 then [c] else codeEscape c.toNat

end Lineage.Text
