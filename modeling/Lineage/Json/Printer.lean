/-
Lineage.Json.Printer — writing JSON documents.

A `Style` says how: with an indent every item stands on a line of its
own, without one a document is one line; names stand in the order of the
object or sorted by code points; what is beyond ASCII stands as it is or
as escapes.  Empty arrays and objects have nothing between their
brackets in every style.
-/
import Lineage.Value.Literal

namespace Lineage.Json

/-- How a document is written. -/
structure Style where
  /-- The indentation per level; `none` writes one line. -/
  indent : Option Text
  /-- Names are sorted by code points. -/
  sorted : Bool
  /-- Characters beyond ASCII are written as escapes. -/
  ascii : Bool

/-- One line, names as they stand, ASCII only. -/
def Style.plain : Style := ⟨none, false, true⟩

/-- A hexadecimal digit. -/
def hexChar (n : Nat) : Char :=
  Char.ofNat (if n < 10 then 48 + n else 87 + n)

/-- The escape of a code unit. -/
def unitEscape (n : Nat) : Text :=
  .ofChars ['\\', 'u', hexChar (n / 4096 % 16), hexChar (n / 256 % 16), hexChar (n / 16 % 16),
    hexChar (n % 16)]

/-- The escape of a code point, as a surrogate pair where it needs two
code units. -/
def pointEscape (n : Nat) : Text :=
  if n < 0x10000 then unitEscape n
  else
    unitEscape (0xD800 + (n - 0x10000) / 0x400) ++ unitEscape (0xDC00 + (n - 0x10000) % 0x400)

/-- The letter that escapes a character. -/
def escapeLetter? : Char → Option Char
  | '"' => some '"'
  | '\\' => some '\\'
  | '\n' => some 'n'
  | '\r' => some 'r'
  | '\t' => some 't'
  | '\x08' => some 'b'
  | '\x0c' => some 'f'
  | _ => none

/-- A code point within quotes. -/
def quotePoint (ascii : Bool) : CodePoint → Text
  | .char c =>
    match escapeLetter? c with
    | some letter => .ofChars ['\\', letter]
    | none =>
      if c < ' ' then unitEscape c.toNat
      else if ascii && '~' < c then pointEscape c.toNat
      else [.char c]
  | p => if ascii then unitEscape p.code else [p]

/-- A text in quotes. -/
def quote (ascii : Bool) (t : Text) : Text :=
  .char '"' :: t.flatMap (quotePoint ascii) ++ [.char '"']

/-- The text of a double. -/
def numberText : Double → Text
  | .nan => "NaN"
  | .infinite negative => if negative then "-Infinity" else "Infinity"
  | x => .ofChars x.render

/-- The text of a value without parts; what has no form of its own is
quoted. -/
def scalarText (ascii : Bool) : Scalar → Text
  | .null => "null"
  | .bool b => if b then "true" else "false"
  | .int i => .decimal i
  | .float x => numberText x
  | s => quote ascii s.plainText

/-- The name that a scalar gives to a field. -/
def nameText : Scalar → Text
  | .text t => t
  | .date d => .ofChars d.chars
  | s => scalarText true s

/-- An indentation of a number of spaces. -/
def spaces (width : Nat) : Text :=
  List.replicate width (.char ' ')

/-- A new line indented to a nesting level. -/
def newLine (indent : Text) (level : Nat) : Text :=
  .char '\n' :: (List.replicate level indent).flatten

/-- What separates the items at a nesting level. -/
def Style.separator (style : Style) (level : Nat) : Text :=
  match style.indent with
  | none => ", "
  | some indent => .char ',' :: newLine indent level

/-- What stands between a bracket and the items at a nesting level. -/
def Style.edge (style : Style) (level : Nat) : Text :=
  match style.indent with
  | none => []
  | some indent => newLine indent level

/-- Fields in the order in which a style writes them. -/
def Style.arrange {α : Type} (style : Style) (fields : List (Text × α)) : List (Text × α) :=
  if style.sorted then fields.mergeSort (fun a b => a.1.atMost b.1) else fields

/-- Written parts between two brackets. -/
def Style.enclose (style : Style) (level : Nat) (opening closing : Char)
    (parts : List Text) : Text :=
  match parts with
  | [] => .ofChars [opening, closing]
  | first :: more =>
    .char opening :: style.edge (level + 1) ++ first
      ++ more.flatMap (fun part => style.separator (level + 1) ++ part)
      ++ style.edge level ++ [.char closing]

mutual

/-- Writes a value at a nesting level. -/
def printAt (style : Style) (level : Nat) : Value → Text
  | .scalar s => scalarText style.ascii s
  | .array items => style.enclose level '[' ']' (printItems style (level + 1) items)
  | .object fields =>
    style.enclose level '\x7b' '\x7d'
      ((style.arrange (printFields style (level + 1) fields)).map fun (name, body) =>
        quote style.ascii name ++ ": " ++ body)

/-- Writes the items of an array. -/
def printItems (style : Style) (level : Nat) : List Value → List Text
  | [] => []
  | item :: rest => printAt style level item :: printItems style level rest

/-- Writes the values of fields. -/
def printFields (style : Style) (level : Nat) : List (Scalar × Value) → List (Text × Text)
  | [] => []
  | (name, value) :: rest =>
    (nameText name, printAt style level value) :: printFields style level rest

end

/-- The text of a document. -/
def print (style : Style) (value : Value) : Text :=
  printAt style 0 value

end Lineage.Json
