/-
Lineage.Json.Reader — reading JSON documents.

Besides the grammar of JSON the reader accepts `NaN`, `Infinity` and
`-Infinity`; of a repeated name the last value counts; white space is
space, tab, line feed and carriage return alone.  A fault records what
was missing and how many code points were left there, so that the reader
itself carries no positions; `Fault.message` turns that into line and
column.
-/
import Lineage.Value.Basic

namespace Lineage.Json

/-- What reading ran into. -/
inductive Cause where
  | value
  | name
  | colon
  | comma
  | openText
  | controlCharacter
  | escape
  | unicodeEscape
  | extra
  | byteOrderMark
  | longInteger (digits : Nat)
  /-- Too many arrays or objects within one another; the last one was an
  object or an array. -/
  | nesting (object : Bool)
  deriving DecidableEq, Repr

/-- The wording of an integer with too many digits. -/
def longIntegerText (digits : Nat) : Text :=
  "Exceeds the limit (4300 digits) for integer string conversion: value has "
    ++ Text.decimal digits ++ " digits; use sys.set_int_max_str_digits() to increase the limit"

/-- The wording of a cause. -/
def Cause.message : Cause → Text
  | .value => "Expecting value"
  | .name => "Expecting property name enclosed in double quotes"
  | .colon => "Expecting ':' delimiter"
  | .comma => "Expecting ',' delimiter"
  | .openText => "Unterminated string starting at"
  | .controlCharacter => "Invalid control character at"
  | .escape => "Invalid \\escape"
  | .unicodeEscape => "Invalid \\uXXXX escape"
  | .extra => "Extra data"
  | .byteOrderMark => "Unexpected UTF-8 BOM (decode using utf-8-sig)"
  | .longInteger digits => longIntegerText digits
  | .nesting object =>
    "maximum recursion depth exceeded while decoding a JSON "
      ++ (if object then "object" else "array") ++ " from a unicode string"

/-- Where reading stopped: the cause, and the number of code points from
there to the end. -/
structure Stop where
  cause : Cause
  left : Nat
  deriving DecidableEq, Repr

/-- A reading: a result and the text behind it. -/
abbrev Reading (α : Type) := Except Stop (α × Text)

/-- White space between tokens. -/
def isGap (c : Char) : Bool :=
  c = ' ' || c = '\n' || c = '\t' || c = '\r'

/-- The text behind white space. -/
def skipGap (t : Text) : Text :=
  t.dropWhile (CodePoint.isIn isGap)

/-! ## Text -/

/-- The value of a hexadecimal digit. -/
def hexValue? (c : Char) : Option Nat :=
  if '0' ≤ c ∧ c ≤ '9' then some (c.toNat - 48)
  else if 'a' ≤ c ∧ c ≤ 'f' then some (c.toNat - 87)
  else if 'A' ≤ c ∧ c ≤ 'F' then some (c.toNat - 55)
  else none

/-- The number that four hexadecimal digits spell. -/
def fourHex? : CodePoint → CodePoint → CodePoint → CodePoint → Option Nat
  | .char a, .char b, .char c, .char d =>
    match hexValue? a, hexValue? b, hexValue? c, hexValue? d with
    | some a, some b, some c, some d => some (((a * 16 + b) * 16 + c) * 16 + d)
    | _, _, _, _ => none
  | _, _, _, _ => none

/-- The character escaped by one letter. -/
def shortEscape? : CodePoint → Option Char
  | .char '"' => some '"'
  | .char '\\' => some '\\'
  | .char '/' => some '/'
  | .char 'b' => some '\x08'
  | .char 'f' => some '\x0c'
  | .char 'n' => some '\n'
  | .char 'r' => some '\r'
  | .char 't' => some '\t'
  | _ => none

/-- A part of a text between quotes: a code point, or a code unit given
by an escape. -/
inductive Piece where
  | point (p : CodePoint)
  | unit (n : Nat)

/-- The parts of a text up to its closing quote; `opened` is the number
of code points left at the opening quote. -/
def readPieces (opened : Nat) : Text → Reading (List Piece)
  | [] => .error ⟨.openText, opened⟩
  | .char '"' :: rest => .ok ([], rest)
  | .char '\\' :: .char 'u' :: a :: b :: c :: d :: e :: rest =>
    match fourHex? a b c d with
    | some n => (readPieces opened (e :: rest)).map fun (ps, r) => (.unit n :: ps, r)
    | none => .error ⟨.unicodeEscape, rest.length + 6⟩
  | .char '\\' :: .char 'u' :: rest => .error ⟨.unicodeEscape, rest.length + 1⟩
  | .char '\\' :: letter :: rest =>
    match shortEscape? letter with
    | some c => (readPieces opened rest).map fun (ps, r) => (.point (.char c) :: ps, r)
    | none => .error ⟨.escape, rest.length + 2⟩
  | [.char '\\'] => .error ⟨.openText, opened⟩
  | p :: rest =>
    if p.isIn (· < ' ') then .error ⟨.controlCharacter, rest.length + 1⟩
    else (readPieces opened rest).map fun (ps, r) => (.point p :: ps, r)

/-- A first half of a surrogate pair. -/
def isHighSurrogate (unit : Nat) : Bool :=
  0xD800 ≤ unit && unit ≤ 0xDBFF

/-- A second half of a surrogate pair. -/
def isLowSurrogate (unit : Nat) : Bool :=
  0xDC00 ≤ unit && unit ≤ 0xDFFF

/-- The text of pieces: two escapes that are the halves of a surrogate
pair are one code point. -/
def joinPieces : List Piece → Text
  | [] => []
  | .point p :: rest => p :: joinPieces rest
  | .unit high :: .unit low :: rest =>
    if isHighSurrogate high && isLowSurrogate low then
      CodePoint.ofCode (0x10000 + (high - 0xD800) * 0x400 + (low - 0xDC00)) :: joinPieces rest
    else CodePoint.ofCode high :: joinPieces (.unit low :: rest)
  | .unit n :: rest => CodePoint.ofCode n :: joinPieces rest

/-- The text between quotes of which the first has been read. -/
def readText (rest : Text) : Reading Text :=
  (readPieces (rest.length + 1) rest).map fun (pieces, r) => (joinPieces pieces, r)

/-! ## Numbers -/

/-- An ASCII digit. -/
def isDigit (c : Char) : Bool :=
  '0' ≤ c && c ≤ '9'

/-- The digits at the start of a text, and what follows them. -/
def spanDigits : Text → List Char × Text
  | .char c :: rest =>
    if isDigit c then
      let (digits, r) := spanDigits rest
      (c :: digits, r)
    else ([], .char c :: rest)
  | t => ([], t)

/-- The whole number that digits spell. -/
def digitsValue (digits : List Char) : Nat :=
  digits.foldl (fun n c => n * 10 + (c.toNat - 48)) 0

/-- The digits of a whole part: a zero, or digits that start with none. -/
def wholePart? : Text → Option (List Char × Text)
  | .char '0' :: rest => some (['0'], rest)
  | t =>
    match spanDigits t with
    | ([], _) => none
    | found => some found

/-- The digits of a fraction, if one follows. -/
def fraction? : Text → Option (List Char × Text)
  | .char '.' :: rest =>
    match spanDigits rest with
    | ([], _) => none
    | found => some found
  | _ => none

/-- Whether a minus sign comes first, and what follows it. -/
def minusSign : Text → Bool × Text
  | .char '-' :: rest => (true, rest)
  | rest => (false, rest)

/-- The sign of an exponent and what follows it. -/
def exponentSign : Text → Bool × Text
  | .char '-' :: rest => (true, rest)
  | .char '+' :: rest => (false, rest)
  | rest => (false, rest)

/-- The exponent, if one follows. -/
def exponent? : Text → Option (Int × Text)
  | p :: rest =>
    if p = .char 'e' ∨ p = .char 'E' then
      let (negative, rest) := exponentSign rest
      match spanDigits rest with
      | ([], _) => none
      | (digits, rest) =>
        let size : Int := digitsValue digits
        some (if negative then -size else size, rest)
    else none
  | [] => none

/-- The greatest number of digits of an integer. -/
def maxIntegerDigits : Nat := 4300

/-- Reads a number: an integer if it has neither fraction nor exponent. -/
def readNumber (t : Text) : Reading Value :=
  let (negative, body) := minusSign t
  match wholePart? body with
  | none => .error ⟨.value, t.length⟩
  | some (whole, rest) =>
    let (fraction, rest) := (fraction? rest).getD ([], rest)
    match exponent? rest with
    | some (e, rest) =>
      .ok (.float (Double.ofDecimal negative (digitsValue (whole ++ fraction))
        (e - fraction.length)), rest)
    | none =>
      match fraction with
      | [] =>
        if maxIntegerDigits < whole.length then .error ⟨.longInteger whole.length, t.length⟩
        else
          let n : Int := digitsValue whole
          .ok (.int (if negative then -n else n), rest)
      | fraction =>
        .ok (.float (Double.ofDecimal negative (digitsValue (whole ++ fraction))
          (-(fraction.length : Int))), rest)

/-! ## Values -/

/-- What follows a word, if a text begins with it. -/
def afterWord? : List Char → Text → Option Text
  | [], t => some t
  | c :: word, p :: rest => if p = .char c then afterWord? word rest else none
  | _ :: _, [] => none

/-- The values that are written as words. -/
def words : List (String × Value) :=
  [("null", .null), ("true", .bool true), ("false", .bool false), ("NaN", .float .nan),
    ("Infinity", .float (.infinite false)), ("-Infinity", .float (.infinite true))]

/-- The value of the word that a text begins with. -/
def word? (t : Text) : Option (Value × Text) :=
  words.findSome? fun (word, v) => (afterWord? word.toList t).map fun rest => (v, rest)

/-- How deep arrays and objects may stand within one another. -/
def maxNesting : Nat := 980

mutual

/-- Reads a value within which there is room for `room` arrays and
objects within one another; `fuel` bounds the number of its parts. -/
def readValue (fuel room : Nat) (t : Text) : Reading Value :=
  match fuel with
  | 0 => .error ⟨.value, t.length⟩
  | fuel + 1 =>
    match t with
    | .char '"' :: rest => (readText rest).map fun (s, r) => (.text s, r)
    | .char '[' :: rest =>
      match room with
      | 0 => .error ⟨.nesting false, t.length⟩
      | room + 1 =>
        match skipGap rest with
        | .char ']' :: rest => .ok (.array [], rest)
        | rest => (readItems fuel room rest).map fun (items, r) => (.array items, r)
    | .char '\x7b' :: rest =>
      match room with
      | 0 => .error ⟨.nesting true, t.length⟩
      | room + 1 =>
        match skipGap rest with
        | .char '\x7d' :: rest => .ok (.object [], rest)
        | rest => (readFields fuel room rest).map fun (fs, r) => (.object (Keyed.ofPairs fs), r)
    | t =>
      match word? t with
      | some found => .ok found
      | none => readNumber t

/-- Reads the items of an array up to its closing bracket. -/
def readItems (fuel room : Nat) (t : Text) : Reading (List Value) :=
  match fuel with
  | 0 => .error ⟨.value, t.length⟩
  | fuel + 1 =>
    match readValue fuel room t with
    | .error stop => .error stop
    | .ok (item, rest) =>
      match skipGap rest with
      | .char ']' :: rest => .ok ([item], rest)
      | .char ',' :: rest =>
        (readItems fuel room (skipGap rest)).map fun (items, r) => (item :: items, r)
      | rest => .error ⟨.comma, rest.length⟩

/-- Reads the fields of an object up to its closing brace. -/
def readFields (fuel room : Nat) (t : Text) : Reading (List (Scalar × Value)) :=
  match fuel with
  | 0 => .error ⟨.name, t.length⟩
  | fuel + 1 =>
    match t with
    | .char '"' :: rest =>
      match readText rest with
      | .error stop => .error stop
      | .ok (name, rest) =>
        match skipGap rest with
        | .char ':' :: rest =>
          match readValue fuel room (skipGap rest) with
          | .error stop => .error stop
          | .ok (value, rest) =>
            let field := (Scalar.text name, value)
            match skipGap rest with
            | .char '\x7d' :: rest => .ok ([field], rest)
            | .char ',' :: rest =>
              (readFields fuel room (skipGap rest)).map fun (fs, r) => (field :: fs, r)
            | rest => .error ⟨.comma, rest.length⟩
        | rest => .error ⟨.colon, rest.length⟩
    | t => .error ⟨.name, t.length⟩

end

/-- Reads a document: one value and white space around it. -/
def readDocument (room : Nat) (t : Text) : Except Stop Value :=
  match t with
  | .char '\uFEFF' :: _ => .error ⟨.byteOrderMark, t.length⟩
  | t =>
    match readValue (2 * t.length + 2) room (skipGap t) with
    | .error stop => .error stop
    | .ok (value, rest) =>
      match skipGap rest with
      | [] => .ok value
      | rest => .error ⟨.extra, rest.length⟩

/-- What is at fault in a document. -/
inductive FaultKind where
  /-- It is no document. -/
  | grammar
  /-- An integer has too many digits. -/
  | size
  /-- Its parts stand too deep within one another. -/
  | depth
  deriving DecidableEq, Repr

/-- What is at fault. -/
def Cause.kind : Cause → FaultKind
  | .longInteger _ => .size
  | .nesting _ => .depth
  | _ => .grammar

/-- A fault of a document: the cause and the position of the code point
it was found at. -/
structure Fault where
  cause : Cause
  line : Nat
  column : Nat
  position : Nat
  deriving DecidableEq, Repr

/-- The fault of a stop within a document: lines and columns count from
one. -/
def Stop.inDocument (stop : Stop) (t : Text) : Fault :=
  let position := t.length - stop.left
  let before := t.take position
  { cause := stop.cause
    line := before.count (.char '\n') + 1
    column := (before.reverse.takeWhile (· ≠ .char '\n')).length + 1
    position := position }

/-- The wording of a fault; only faults of grammar have a position. -/
def Fault.message (f : Fault) : Text :=
  match f.cause.kind with
  | .grammar =>
    f.cause.message ++ ": line " ++ Text.decimal f.line ++ " column " ++ Text.decimal f.column
      ++ " (char " ++ Text.decimal f.position ++ ")"
  | _ => f.cause.message

/-- Reads the document that a text holds, with room for some arrays and
objects within one another. -/
def readWithin (room : Nat) (t : Text) : Except Fault Value :=
  match readDocument room t with
  | .ok value => .ok value
  | .error stop => .error (stop.inDocument t)

/-- Reads the document that a text holds. -/
def read (t : Text) : Except Fault Value :=
  readWithin maxNesting t

end Lineage.Json
