/-
Lineage.Schema.Field — checks of single fields.

Each check turns a document value into a text, a whole number or a flag,
or says what is wrong.  Whole numbers and flags are also read from other
kinds of values, as loosely written documents hold them: `"7"`, `7.0`
and `true` are whole numbers, `"off"` and `0` are flags.  Where a
document can hold bytes, they count as the text that they encode
(`orBytes`).
-/
import Lineage.Schema.Fault
import Lineage.Text.Blank
import Lineage.Text.Utf8

namespace Lineage.Schema

/-- A text of at least `least` characters; a text of which that is asked
must hold no surrogate. -/
def checkText (least : Nat) : Value → Except Complaint Text
  | .text t =>
    if least = 0 then .ok t
    else if t.isBroken then .error .textBroken
    else if t.length < least then .error (.textShorterThan least)
    else .ok t
  | _ => .error .textExpected

/-- A text, or null. -/
def checkTextOrNull : Value → Except Complaint (Option Text)
  | .null => .ok none
  | v => (checkText 0 v).map some

/-! ## Whole numbers -/

/-- An ASCII digit. -/
def isDigit (c : Char) : Bool :=
  '0' ≤ c && c ≤ '9'

/-- The whole number that digits spell. -/
def digitsValue (digits : List Char) : Nat :=
  digits.foldl (fun n c => n * 10 + (c.toNat - 48)) 0

/-- The greatest number of characters of a whole number in a text. -/
def maxIntegerText : Nat := 4300

/-- A whole number in its plain form: possibly a minus sign, then zero
alone or digits that do not start with zero. -/
def plainInteger (cs : List Char) : Except Complaint Int :=
  let (negative, body) := match cs with
    | '-' :: r => (true, r)
    | r => (false, r)
  match body with
  | ['0'] => .ok 0
  | '0' :: _ => .error .integerUnreadable
  | body =>
    let digits := body.takeWhile isDigit
    let n : Int := digitsValue digits
    if digits.isEmpty then .error .integerUnreadable
    else if maxIntegerText < digits.length + (if negative then 1 else 0) then
      .error .integerTooLarge
    else if digits.length < body.length then .error .integerUnreadable
    else .ok (if negative then -n else n)

/-- What follows the first zero of a number, from the first character on
that counts; `last` is the character before. -/
def behindZeros (last : Char) : List Char → Option (List Char)
  | [] => some [last]
  | c :: rest =>
    if c = '0' ∨ c = '_' then behindZeros c rest
    else if c = '.' then some (last :: c :: rest)
    else if isDigit c ∨ c = '-' then some (c :: rest)
    else none

/-- A number without zeros at its start. -/
def withoutZeros : List Char → Option (List Char)
  | [] => none
  | c :: rest =>
    if c = '0' then behindZeros c rest else if isDigit c then some (c :: rest) else none

/-- A number without a fraction that is all zeros. -/
def withoutFraction (cs : List Char) : List Char :=
  let whole := cs.takeWhile (· ≠ '.')
  match cs.drop (whole.length + 1) with
  | [] => cs
  | fraction => if fraction.all (· = '0') then whole else cs

/-- A number without underscores, which stand between other characters
and not next to each other; `before` tells that such a character has
just been passed. -/
def withoutUnderscores (before : Bool) : List Char → Option (List Char)
  | [] => if before then some [] else none
  | c :: rest =>
    if c = '_' then if before then withoutUnderscores false rest else none
    else (withoutUnderscores true rest).map (c :: ·)

/-- The plain form of a number that is written loosely: with white space
around it, a sign, zeros at the start, underscores between digits or a
fraction of zeros. -/
def tidied (cs : List Char) : Option (List Char) :=
  let (negative, body) := match Text.trimWhere Text.isSpace cs with
    | '-' :: r => (true, r)
    | '+' :: r => (false, r)
    | r => (false, r)
  match withoutZeros body with
  | none => none
  | some body =>
    (withoutUnderscores false (withoutFraction body)).map fun body =>
      if negative then '-' :: body else body

/-- The whole number that a text holds.  Only a number in plain form can
be too large: one that is written loosely is then unreadable. -/
def readInteger (cs : List Char) : Except Complaint Int :=
  match plainInteger cs with
  | .ok i => .ok i
  | .error .integerTooLarge => .error .integerTooLarge
  | .error _ =>
    match (tidied cs).map plainInteger with
    | some (.ok i) => .ok i
    | _ => .error .integerUnreadable

/-- Two to the power of 63, the bound of machine integers. -/
def wordBound : Int := 9223372036854775808

/-- The whole number of an integral double strictly between the bounds of
machine integers. -/
def integerOfDouble (x : Double) : Except Complaint Int :=
  match x with
  | .nan | .infinite _ => .error .integerFromInfinity
  | x =>
    match x.toInt? with
    | none => .error .integerFromFraction
    | some i => if -wordBound < i ∧ i < wordBound then .ok i else .error .integerTooLarge

/-- A whole number. -/
def readIntegerValue : Value → Except Complaint Int
  | .int i => .ok i
  | .bool b => .ok (if b then 1 else 0)
  | .float x => integerOfDouble x
  | .text t =>
    match t.chars? with
    | some cs => readInteger cs
    | none => .error .textBroken
  | _ => .error .integerExpected

/-- A whole number of at least `least`. -/
def checkInteger (least : Int) (v : Value) : Except Complaint Int :=
  match readIntegerValue v with
  | .error c => .error c
  | .ok i => if i < least then .error (.lessThan least) else .ok i

/-! ## Flags -/

/-- The words for "no", in lower case. -/
def noWords : List String := ["0", "off", "f", "false", "n", "no"]

/-- The words for "yes", in lower case. -/
def yesWords : List String := ["1", "on", "t", "true", "y", "yes"]

/-- The flag that a word stands for, in any case of its letters. -/
def flagOfWord (cs : List Char) : Except Complaint Bool :=
  let word := String.ofList (cs.map Char.toLower)
  if word ∈ noWords then .ok false
  else if word ∈ yesWords then .ok true
  else .error .flagUnreadable

/-- The flag of a whole number. -/
def flagOfInteger (i : Int) : Except Complaint Bool :=
  if i = 0 then .ok false
  else if i = 1 then .ok true
  else if -wordBound ≤ i ∧ i < wordBound then .error .flagUnreadable
  else .error .flagExpected

/-- A flag. -/
def checkFlag : Value → Except Complaint Bool
  | .bool b => .ok b
  | .int i => flagOfInteger i
  | .float x =>
    match integerOfDouble x with
    | .ok i => flagOfInteger i
    | .error _ => .error .flagExpected
  | .text t =>
    match t.chars? with
    | some cs => flagOfWord cs
    | none => .error .textBroken
  | _ => .error .flagExpected

/-! ## Bytes -/

/-- A check that takes bytes for the text that they encode; `broken` is
the complaint about those that encode none. -/
def orBytes {α : Type} (broken : Complaint) (check : Value → Except Complaint α) :
    Value → Except Complaint α
  | .scalar (.bytes b) =>
    match Text.Utf8.decodeAll b with
    | .ok cs => check (.text (.ofChars cs))
    | .error _ => .error broken
  | v => check v

/-! ## Fields of records -/

/-- The two spellings of the name of a field. -/
structure FieldName where
  /-- The spelling that written documents use; it takes precedence. -/
  camel : Text
  /-- The other spelling. -/
  snake : Text

/-- The spelling under which an object holds a field, and its value. -/
def FieldName.find (n : FieldName) (fields : Fields) : Option (Text × Value) :=
  match Keyed.get? fields n.camel with
  | some v => some (n.camel, v)
  | none => (Keyed.get? fields n.snake).map fun v => (n.snake, v)

/-- A field that must be there. -/
def required {α : Type} (fields : Fields) (name : FieldName)
    (check : Value → Except Complaint α) : Checked α :=
  match name.find fields with
  | none => .faulty [⟨[.field name.camel], .missing⟩]
  | some (key, v) => .ofExcept [.field key] (check v)

/-- A field that has a value of its own when it is not there. -/
def optional {α : Type} (fields : Fields) (name : FieldName) (default : α)
    (check : Value → Except Complaint α) : Checked α :=
  match name.find fields with
  | none => .ok default
  | some (key, v) => .ofExcept [.field key] (check v)

/-- A field whose check has places of its own. -/
def optionalChecked {α : Type} (fields : Fields) (name : FieldName) (default : α)
    (check : Value → Checked α) : Checked α :=
  match name.find fields with
  | none => .ok default
  | some (key, v) => (check v).below (.field key)

/-! ## Lists of ids -/

/-- The distinct non-empty ids without blanks around them, in order of
first occurrence. -/
def uniqueIds (ids : List Text) : List Text :=
  distinct ((ids.map Text.strip).filter fun t => !t.isEmpty)

/-- The texts of a list of values; nulls do not count. -/
def mentions : List Value → Except Misfit (List Text)
  | [] => .ok []
  | .null :: rest => mentions rest
  | .text t :: rest => (mentions rest).map (t :: ·)
  | v :: _ => .error (.notStrippable v.kindWord)

/-- The unique ids of a list of values. -/
def checkMentions (vs : List Value) : Checked (List Text) :=
  match mentions vs with
  | .error m => .misfit m
  | .ok ids => .ok (uniqueIds ids)

/-- The names of fields as values. -/
def namesOf (fields : Fields) : List Value :=
  fields.map fun f => .scalar f.1

/-- A list of ids, as records refer to one another: null is the empty
list, an object counts by its names, and a text is refused with a
reason. -/
def checkReferences (reason : Text) : Value → Checked (List Text)
  | .null => .ok []
  | .text _ => .faulty [⟨[], .refused reason⟩]
  | .array items => checkMentions items
  | .object fields => checkMentions (namesOf fields)
  | v => .misfit (.notIterable v.kindWord)

/-- A list of ids where a text counts by its characters. -/
def checkRoles : Value → Checked (List Text)
  | .null => .ok []
  | .text t => checkMentions (t.map fun p => .text [p])
  | .array items => checkMentions items
  | .object fields => checkMentions (namesOf fields)
  | v => .misfit (.notIterable v.kindWord)

/-- A list of texts, taken as they are. -/
def checkTexts : Value → Checked (List Text)
  | .array items => Checked.items (fun v => .ofExcept [] (checkText 0 v)) 0 items
  | _ => .faulty [⟨[], .listExpected⟩]

/-- Unique ids are free of repetitions. -/
theorem nodup_uniqueIds (ids : List Text) : (uniqueIds ids).Nodup :=
  nodup_distinct _

end Lineage.Schema
