/-
Lineage.Value.Format — values in a wanted width, alignment and notation.

A specification names, each part being optional and in this order: a
filler and an alignment, a sign, the letter z for zeros without a sign,
the sign # for the alternate form, a zero for filling with zeros, a
width, a separator of thousands, a precision behind a point, and a code
for the notation.  Texts, whole numbers and doubles each accept some of
these parts; other values accept none.
-/
import Lineage.Number.Decimals
import Lineage.Text.Digits
import Lineage.Value.Literal

namespace Lineage.Format

/-- The parts of a specification that a text does not accept. -/
inductive TextBan where
  | space
  | sign
  | zeroSign
  | alternate
  | inner
  deriving DecidableEq, Repr

/-- Why a value cannot be written as a specification asks. -/
inductive Fault where
  | unreadable (spec : Text) (kindWord : String)
  | tooManyDigits
  | noPrecision
  | bothSeparators
  | separatorWith (separator : Char) (code : CodePoint)
  | unknownCode (code : CodePoint) (kindWord : String)
  | notForText (ban : TextBan)
  | precisionOfInteger
  | zeroSignOfInteger
  | signOfCharacter
  | alternateOfCharacter
  | noCharacter
  | hugeCharacter
  | hugePrecision
  | hugeInteger
  | notForKind (kindWord : String)
  deriving DecidableEq, Repr

/-- A code as messages show it. -/
def shownCode (code : CodePoint) : Text :=
  if 32 < code.code && code.code < 128 then [code]
  else "\\x" ++ Text.ofChars (Nat.toDigits 16 code.code)

/-- The wording of a part that a text does not accept. -/
def TextBan.message : TextBan → Text
  | .space => "Space not allowed in string format specifier"
  | .sign => "Sign not allowed in string format specifier"
  | .zeroSign => "Negative zero coercion (z) not allowed in string format specifier"
  | .alternate => "Alternate form (#) not allowed in string format specifier"
  | .inner => "'=' alignment not allowed in string format specifier"

/-- The wording of a fault. -/
def Fault.message : Fault → Text
  | .unreadable spec word =>
    "Invalid format specifier '" ++ spec ++ "' for object of type '" ++ Text.ofString word ++ "'"
  | .tooManyDigits => "Too many decimal digits in format string"
  | .noPrecision => "Format specifier missing precision"
  | .bothSeparators => "Cannot specify both ',' and '_'."
  | .separatorWith separator code =>
    "Cannot specify '" ++ Text.ofChars [separator] ++ "' with '" ++ shownCode code ++ "'."
  | .unknownCode code word =>
    "Unknown format code '" ++ shownCode code ++ "' for object of type '" ++ Text.ofString word
      ++ "'"
  | .notForText ban => ban.message
  | .precisionOfInteger => "Precision not allowed in integer format specifier"
  | .zeroSignOfInteger => "Negative zero coercion (z) not allowed in integer format specifier"
  | .signOfCharacter => "Sign not allowed with integer format specifier 'c'"
  | .alternateOfCharacter => "Alternate form (#) not allowed with integer format specifier 'c'"
  | .noCharacter => "%c arg not in range(0x110000)"
  | .hugeCharacter => "Python int too large to convert to C long"
  | .hugePrecision => "precision too big"
  | .hugeInteger => "int too large to convert to float"
  | .notForKind word =>
    "unsupported format string passed to " ++ Text.ofString word ++ ".__format__"

/-! ## Specifications -/

/-- Where the filling stands. -/
inductive Align where
  | left
  | right
  | center
  /-- Between the sign and the digits. -/
  | inner
  deriving DecidableEq, Repr

/-- The sign of numbers that are not negative. -/
inductive Sign where
  | plus
  | minus
  | space
  deriving DecidableEq, Repr

/-- A specification. -/
structure Spec where
  fill : CodePoint
  align : Align
  sign : Option Sign
  zeroSign : Bool
  alternate : Bool
  width : Nat
  separator : Option Char
  precision : Option Nat
  code : Option CodePoint

/-- The alignment of a mark. -/
def align? : CodePoint → Option Align
  | .char '<' => some .left
  | .char '>' => some .right
  | .char '^' => some .center
  | .char '=' => some .inner
  | _ => none

/-- The sign of a mark. -/
def sign? : CodePoint → Option Sign
  | .char '+' => some .plus
  | .char '-' => some .minus
  | .char ' ' => some .space
  | _ => none

/-- The filler and the alignment at the start of a text, and the rest. -/
def readAlign : Text → Option CodePoint × Option Align × Text
  | p :: q :: rest =>
    match align? q, align? p with
    | some a, _ => (some p, some a, rest)
    | none, some a => (none, some a, q :: rest)
    | none, none => (none, none, p :: q :: rest)
  | [p] => match align? p with
    | some a => (none, some a, [])
    | none => (none, none, [p])
  | [] => (none, none, [])

/-- Whether a text starts with a character, and what follows. -/
def readMark (c : Char) : Text → Bool × Text
  | p :: rest => if p = .char c then (true, rest) else (false, p :: rest)
  | [] => (false, [])

/-- The decimal digit that a code point is. -/
def digitValue? : CodePoint → Option Nat
  | .char c => Text.decimalValue? c
  | .surrogate _ => none

/-- The bound of numbers in texts: machine integers of 64 bits. -/
def numberBound : Nat := 9223372036854775808

/-- The number at the start of a text, if there is one, and the rest. -/
def readNumber (soFar : Option Nat) : Text → Except Fault (Option Nat × Text)
  | [] => .ok (soFar, [])
  | p :: rest =>
    match digitValue? p with
    | none => .ok (soFar, p :: rest)
    | some d =>
      let n := soFar.getD 0 * 10 + d
      if n < numberBound then readNumber (some n) rest else .error .tooManyDigits

/-- The separator of thousands at the start of a text, and the rest. -/
def readSeparator (t : Text) : Except Fault (Option Char × Text) :=
  let (comma, t) := readMark ',' t
  let (underscore, t) := readMark '_' t
  if underscore then
    if comma || (readMark ',' t).1 then .error .bothSeparators else .ok (some '_', t)
  else .ok (if comma then some ',' else none, t)

/-- The precision at the start of a text, and the rest. -/
def readPrecision (t : Text) : Except Fault (Option Nat × Text) :=
  match readMark '.' t with
  | (false, t) => .ok (none, t)
  | (true, t) =>
    match readNumber none t with
    | .error fault => .error fault
    | .ok (none, _) => .error .noPrecision
    | .ok found => .ok found

/-- The codes of notations that have thousands. -/
def thousandsCodes : List Char := ['d', 'e', 'f', 'g', 'E', 'G', '%', 'F']

/-- The codes of notations that have groups of four digits. -/
def fourCodes : List Char := ['b', 'o', 'x', 'X']

/-- A separator goes with a code, of which `usual` stands in for a
missing one. -/
def separatorFits (separator : Char) (usual : Option CodePoint) (code : Option CodePoint) :
    Except Fault Unit :=
  match code.or usual with
  | none => .ok ()
  | some p =>
    if p.isIn (thousandsCodes.contains ·) then .ok ()
    else if separator = '_' && p.isIn (fourCodes.contains ·) then .ok ()
    else .error (.separatorWith separator p)

/-- Reads a specification for a kind of values: `usual` is their code if
none is given, `numeric` values stand at the right. -/
def readSpec (kindWord : String) (usual : Option CodePoint) (numeric : Bool) (whole : Text) :
    Except Fault Spec :=
  let (fill, align, t) := readAlign whole
  let sign := t.head?.bind sign?
  let t := if sign.isSome then t.drop 1 else t
  let (zeroSign, t) := readMark 'z' t
  let (alternate, t) := readMark '#' t
  let (zeros, t) := if fill.isSome then (false, t) else readMark '0' t
  let standard : Align := if numeric then (if zeros then .inner else .right) else .left
  match readNumber none t with
  | .error fault => .error fault
  | .ok (width, t) =>
    match readSeparator t with
    | .error fault => .error fault
    | .ok (separator, t) =>
      match readPrecision t with
      | .error fault => .error fault
      | .ok (precision, t) =>
        if 1 < t.length then .error (.unreadable whole kindWord)
        else
          let code := t.head?
          let spec : Spec :=
            { fill := fill.getD (.char (if zeros then '0' else ' '))
              align := align.getD standard
              sign, zeroSign, alternate, separator, precision, code
              width := width.getD 0 }
          match separator with
          | none => .ok spec
          | some c => (separatorFits c usual code).map fun _ => spec

/-! ## Texts -/

/-- What a specification asks that a text does not accept. -/
def textBan? (spec : Spec) : Option TextBan :=
  match spec.sign with
  | some .space => some .space
  | some _ => some .sign
  | none =>
    if spec.zeroSign then some .zeroSign
    else if spec.alternate then some .alternate
    else if spec.align = .inner then some .inner
    else none

/-- Fills up the three places around a text. -/
def fillUp (spec : Spec) (start body : Text) : Text :=
  let missing := spec.width - (start.length + body.length)
  let filling (n : Nat) : Text := List.replicate n spec.fill
  match spec.align with
  | .left => start ++ body ++ filling missing
  | .right => filling missing ++ start ++ body
  | .inner => start ++ filling missing ++ body
  | .center => filling (missing / 2) ++ start ++ body ++ filling (missing - missing / 2)

/-- A text as a specification asks. -/
def formatText (t : Text) (whole : Text) : Except Fault Text :=
  match readSpec "str" (some (.char 's')) false whole with
  | .error fault => .error fault
  | .ok spec =>
    match spec.code.filter (· ≠ .char 's') with
    | some code => .error (.unknownCode code "str")
    | none =>
      match textBan? spec with
      | some ban => .error (.notForText ban)
      | none =>
        .ok (fillUp spec [] (match spec.precision with
          | some n => t.take n
          | none => t))

/-! ## Numbers -/

/-- Digits in groups, the last digit first, with zeros up to a width;
`fuel` bounds the number of groups. -/
def groups (fuel size : Nat) (separator : Char) (width : Int) (reversed : List Char) :
    List Char :=
  let length : Nat := min size (max (max reversed.length width.toNat) 1)
  let group := Double.Decimals.padded length (reversed.take length)
  match fuel with
  | 0 => group
  | fuel + 1 =>
    let width := width - length
    match reversed.drop length, decide (width ≤ 0) with
    | [], true => group
    | rest, _ => group ++ separator :: groups fuel size separator (width - 1) rest

/-- Digits with separators, and with zeros up to a width. -/
def groupDigits (spec : Spec) (four : Bool) (width : Int) (digits : List Char) : List Char :=
  match spec.separator with
  | none => List.replicate (width.toNat - digits.length) '0' ++ digits
  | some c =>
    (groups (digits.length + width.toNat) (if four then 4 else 3) c width digits.reverse).reverse

/-- The sign of a number. -/
def signChars (spec : Spec) (negative : Bool) : List Char :=
  match negative, spec.sign with
  | true, _ => ['-']
  | false, some .plus => ['+']
  | false, some .space => [' ']
  | false, _ => []

/-- Puts a number together: its sign, what stands before its digits, its
digits, and what stands behind them. -/
def assemble (spec : Spec) (four negative : Bool) (before digits : List Char) (behind : Text) :
    Text :=
  let start := signChars spec negative ++ before
  let width : Int :=
    if spec.fill = .char '0' ∧ spec.align = .inner then
      (spec.width : Int) - (start.length + behind.length : Nat)
    else 0
  let digits := if digits.isEmpty then [] else groupDigits spec four width digits
  fillUp spec (.ofChars start) (.ofChars digits ++ behind)

/-- A double as a specification asks. -/
def formatDouble (spec : Spec) (x : Double) : Except Fault Text :=
  let code := match spec.code with
    | some (.char c) => c
    | _ => ' '
  if spec.precision.any (2147483647 < ·) then .error .hugePrecision
  else
    let places := spec.precision.getD 6
    let form : Double.Form :=
      match code.toLower, spec.precision with
      | 'e', _ => .scientific places
      | 'f', _ | '%', _ => .fixed places
      | 'g', _ | 'n', _ => .general places false
      | _, some count => .general count true
      | _, none => .shortest
    let x := if code = '%' then x.mul (.ofInt 100) else x
    let (negative, cs) := Double.written form spec.alternate spec.zeroSign x
    let cs := if code.isUpper then cs.map Char.toUpper else cs
    let cs := if code = '%' then cs ++ ['%'] else cs
    let digits := cs.takeWhile Char.isDigit
    .ok (assemble spec false negative [] digits (.ofChars (cs.drop digits.length)))

/-- The codes of the notations of doubles. -/
def doubleCodes : List Char := ['e', 'E', 'f', 'F', 'g', 'G', '%']

/-- A character with the number `i`. -/
def characterOf (i : Int) : Except Fault CodePoint :=
  if i < -(numberBound : Int) ∨ (numberBound : Int) ≤ i then .error .hugeCharacter
  else if 0 ≤ i ∧ i < 0x110000 then .ok (CodePoint.ofCode i.toNat)
  else .error .noCharacter

/-- A whole number as a specification asks, in a notation of whole
numbers. -/
def formatWhole (spec : Spec) (code : Char) (i : Int) : Except Fault Text :=
  if spec.precision.isSome then .error .precisionOfInteger
  else if spec.zeroSign then .error .zeroSignOfInteger
  else if code = 'c' then
    if spec.sign.isSome then .error .signOfCharacter
    else if spec.alternate then .error .alternateOfCharacter
    else (characterOf i).map fun p => assemble spec false false [] [] [p]
  else
    let (base, mark) : Nat × List Char :=
      match code with
      | 'b' => (2, ['0', 'b'])
      | 'o' => (8, ['0', 'o'])
      | 'x' => (16, ['0', 'x'])
      | 'X' => (16, ['0', 'X'])
      | _ => (10, [])
    let digits := Nat.toDigits base i.natAbs
    let digits := if code = 'X' then digits.map Char.toUpper else digits
    .ok (assemble spec (base ≠ 10) (i < 0) (if spec.alternate then mark else []) digits [])

/-- A whole number as a specification asks. -/
def formatInteger (kindWord : String) (i : Int) (whole : Text) : Except Fault Text :=
  match readSpec kindWord (some (.char 'd')) true whole with
  | .error fault => .error fault
  | .ok spec =>
    match spec.code.getD (.char 'd') with
    | .surrogate offset => .error (.unknownCode (.surrogate offset) kindWord)
    | .char c =>
      if ['b', 'c', 'd', 'o', 'x', 'X', 'n'].contains c then formatWhole spec c i
      else if doubleCodes.contains c then
        match Double.ofInt i with
        | .finite s m e => formatDouble spec (.finite s m e)
        | _ => .error .hugeInteger
      else .error (.unknownCode (.char c) kindWord)

/-- A double as a text of a specification asks. -/
def formatFloat (x : Double) (whole : Text) : Except Fault Text :=
  match readSpec "float" none true whole with
  | .error fault => .error fault
  | .ok spec =>
    match spec.code with
    | none => formatDouble spec x
    | some code =>
      if code.isIn fun c => c = 'n' || doubleCodes.contains c then formatDouble spec x
      else .error (.unknownCode code "float")

end Lineage.Format

namespace Lineage.Value

/-- A value as a specification asks; an empty one asks for its plain
text. -/
def format (v : Value) (spec : Text) : Except Format.Fault Text :=
  if spec.isEmpty then .ok v.plainText
  else
    match v with
    | .text t => Format.formatText t spec
    | .int i => Format.formatInteger "int" i spec
    | .bool b => Format.formatInteger "bool" (if b then 1 else 0) spec
    | .float x => Format.formatFloat x spec
    | v => .error (.notForKind v.kindWord)

end Lineage.Value
