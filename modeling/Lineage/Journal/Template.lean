/-
Lineage.Journal.Template — messages with fields that values fill in.

A field stands in braces; a doubled brace stands for itself.  A field
names a value and possibly parts of it, may have it converted to a text,
and may say how it is written (`Lineage.Value.Format`); what it says there
may hold fields in turn, but no deeper ones.  Of several faults the first
one in the message counts.
-/
import Lineage.Value.Format

namespace Lineage.Template

/-- Why a message cannot be filled in. -/
inductive Fault where
  | loneOpening
  | loneClosing
  /-- A field starts within the name of a field. -/
  | nestedOpening
  | unfinished
  | unfinishedFormat
  | unfinishedConversion
  | noColon
  | unknownConversion (code : CodePoint)
  /-- A field within the format of a field within a format. -/
  | tooDeep
  /-- A field with a number where a name is needed. -/
  | numbered (index : Nat)
  | tooManyDigits
  | unknownName (name : Text)
  | emptyPart
  | openPart
  /-- A part that follows another one without a mark. -/
  | unmarkedPart
  | noProperty (kindWord : String) (name : Text)
  | noPropertyOfKind (kindWord : String) (name : Text)
  | noItems (kindWord : String)
  | noItemsOfKind (kindWord : String)
  | unknownItem (index : Nat)
  | itemOutOfRange (kindWord : String)
  | itemByName (kindWord : String)
  | format (fault : Format.Fault)
  deriving DecidableEq, Repr

/-- The wording of a fault. -/
def Fault.message : Fault → Text
  | .loneOpening => "Single '\x7b' encountered in format string"
  | .loneClosing => "Single '\x7d' encountered in format string"
  | .nestedOpening => "unexpected '\x7b' in field name"
  | .unfinished => "expected '\x7d' before end of string"
  | .unfinishedFormat => "unmatched '\x7b' in format spec"
  | .unfinishedConversion => "end of string while looking for conversion specifier"
  | .noColon => "expected ':' after conversion specifier"
  | .unknownConversion code =>
    "Unknown conversion specifier "
      ++ (if 32 < code.code && code.code < 127 then [code]
          else "\\x" ++ Text.ofChars (Nat.toDigits 16 code.code))
  | .tooDeep => "Max string recursion exceeded"
  | .numbered index =>
    "Replacement index " ++ Text.decimal index ++ " out of range for positional args tuple"
  | .tooManyDigits => "Too many decimal digits in format string"
  | .unknownName name => Text.literal name
  | .emptyPart => "Empty attribute in format string"
  | .openPart => "Missing ']' in format string"
  | .unmarkedPart => "Only '.' or '[' may follow ']' in format field specifier"
  | .noProperty word name =>
    "'" ++ Text.ofString word ++ "' object has no attribute '" ++ name ++ "'"
  | .noPropertyOfKind word name =>
    "type object '" ++ Text.ofString word ++ "' has no attribute '" ++ name ++ "'"
  | .noItems word => "'" ++ Text.ofString word ++ "' object is not subscriptable"
  | .noItemsOfKind word => "type '" ++ Text.ofString word ++ "' is not subscriptable"
  | .unknownItem index => Text.decimal index
  | .itemOutOfRange word => (if word = "str" then "string" else "list") ++ " index out of range"
  | .itemByName word =>
    if word = "str" then "string indices must be integers, not 'str'"
    else "list indices must be integers or slices, not str"
  | .format fault => fault.message

/-! ## Fields -/

/-- A field: its name with its parts, its conversion, how it is written,
and whether fields stand in that. -/
structure Field where
  name : Text
  conversion : Option CodePoint := none
  spec : Text := []
  nested : Bool := false

/-- Reads the name of a field up to the character that ends it, which is
answered too; `within` is true between brackets. -/
def readName (within : Bool) : Text → Except Fault (Text × CodePoint × Text)
  | [] => .error .unfinished
  | p :: rest =>
    if within && p ≠ .char ']' then
      (readName true rest).map fun (name, stop, r) => (p :: name, stop, r)
    else if p = .char '\x7b' then .error .nestedOpening
    else if p = .char '\x7d' ∨ p = .char ':' ∨ p = .char '!' then .ok ([], p, rest)
    else (readName (p = .char '[') rest).map fun (name, stop, r) => (p :: name, stop, r)

/-- Reads how a field is written, up to the brace that ends it; `depth`
counts the braces that are open within. -/
def readSpec (depth : Nat) : Text → Except Fault (Text × Text)
  | [] => .error .unfinishedFormat
  | p :: rest =>
    if p = .char '\x7b' then (readSpec (depth + 1) rest).map fun (t, r) => (p :: t, r)
    else if p = .char '\x7d' then
      match depth with
      | 0 => .ok ([], rest)
      | depth + 1 => (readSpec depth rest).map fun (t, r) => (p :: t, r)
    else (readSpec depth rest).map fun (t, r) => (p :: t, r)

/-- A field that says how it is written. -/
def readFormat (name : Text) (conversion : Option CodePoint) (t : Text) :
    Except Fault (Field × Text) :=
  (readSpec 0 t).map fun (spec, r) =>
    ({ name, conversion, spec, nested := spec.contains (.char '\x7b') }, r)

/-- Reads a field behind its opening brace. -/
def readField (t : Text) : Except Fault (Field × Text) :=
  match readName false t with
  | .error fault => .error fault
  | .ok (name, stop, rest) =>
    if stop = .char ':' then readFormat name none rest
    else if stop = .char '!' then
      match rest with
      | [] => .error .unfinishedConversion
      | [c] => readFormat name (some c) []
      | c :: p :: rest =>
        if p = .char '\x7d' then .ok ({ name, conversion := some c }, rest)
        else if p = .char ':' then readFormat name (some c) rest
        else .error .noColon
    else .ok ({ name }, rest)

/-! ## Values of fields -/

/-- What a field leads to: a value, or the kind of a value. -/
inductive Target where
  | value (v : Value)
  | kind (word : String)

/-- The number that digits of any script spell, unless there is something
else among them. -/
def indexOf (soFar : Option Nat) : Text → Except Fault (Option Nat)
  | [] => .ok soFar
  | p :: rest =>
    match Format.digitValue? p with
    | none => .ok none
    | some d =>
      let n := soFar.getD 0 * 10 + d
      if n < Format.numberBound then indexOf (some n) rest else .error .tooManyDigits

/-- A property of a whole number. -/
def integerProperty? (i : Int) (name : Text) : Option Value :=
  if name = ("real" : Text) ∨ name = ("numerator" : Text) then some (.int i)
  else if name = ("imag" : Text) then some (.int 0)
  else if name = ("denominator" : Text) then some (.int 1)
  else none

/-- A property of a value. -/
def property (t : Target) (name : Text) : Except Fault Target :=
  match t with
  | .kind word =>
    if name = ("__name__" : Text) ∨ name = ("__qualname__" : Text) then
      .ok (.value (.text (Text.ofString word)))
    else if name = ("__module__" : Text) then .ok (.value (.text "builtins"))
    else if name = ("__class__" : Text) then .ok (.kind "type")
    else .error (.noPropertyOfKind word name)
  | .value v =>
    let found : Option Value :=
      match v with
      | .int i => integerProperty? i name
      | .bool b => integerProperty? (if b then 1 else 0) name
      | .float x =>
        if name = ("real" : Text) then some (.float x)
        else if name = ("imag" : Text) then some (.float (.zero false))
        else none
      | _ => none
    match found with
    | some w => .ok (.value w)
    | none =>
      if name = ("__class__" : Text) then .ok (.kind v.kindWord)
      else .error (.noProperty v.kindWord name)

/-- An item of a list, if there is one. -/
def itemAt {α : Type} (kindWord : String) (items : List α) (index : Nat) (told : α → Value) :
    Except Fault Target :=
  match items[index]? with
  | some a => .ok (.value (told a))
  | none => .error (.itemOutOfRange kindWord)

/-- An item by its number. -/
def itemByIndex (t : Target) (index : Nat) : Except Fault Target :=
  match t with
  | .kind word => .error (.noItemsOfKind word)
  | .value (.array items) => itemAt "list" items index id
  | .value (.text points) => itemAt "str" points index fun p => .text [p]
  | .value (.object fields) =>
    match Keyed.get? fields (.int index) with
    | some v => .ok (.value v)
    | none => .error (.unknownItem index)
  | .value v => .error (.noItems v.kindWord)

/-- An item by its name. -/
def itemByName (t : Target) (name : Text) : Except Fault Target :=
  match t with
  | .kind word => .error (.noItemsOfKind word)
  | .value (.object fields) =>
    match Keyed.get? fields (.text name) with
    | some v => .ok (.value v)
    | none => .error (.unknownName name)
  | .value (.array _) => .error (.itemByName "list")
  | .value (.text _) => .error (.itemByName "str")
  | .value v => .error (.noItems v.kindWord)

/-- A code point that starts a part of a name. -/
def startsPart (p : CodePoint) : Bool :=
  p = .char '.' || p = .char '['

/-- An item by what stands between its brackets. -/
def item (t : Target) (name : Text) : Except Fault Target :=
  match indexOf none name with
  | .error fault => .error fault
  | .ok index =>
    if name.isEmpty then .error .emptyPart
    else
      match index with
      | some index => itemByIndex t index
      | none => itemByName t name

/-- Follows the parts of a name; `fuel` bounds their number. -/
def follow (fuel : Nat) (t : Target) (parts : Text) : Except Fault Target :=
  match fuel, parts with
  | _, [] => .ok t
  | 0, _ => .ok t
  | fuel + 1, p :: rest =>
    if p = .char '.' then
      let name := rest.takeWhile fun q => !startsPart q
      if name.isEmpty then .error .emptyPart
      else
        match property t name with
        | .error fault => .error fault
        | .ok t => follow fuel t (rest.drop name.length)
    else if p = .char '[' then
      let name := rest.takeWhile (· ≠ .char ']')
      match rest.drop name.length with
      | [] => .error .openPart
      | _ :: behind =>
        match item t name with
        | .error fault => .error fault
        | .ok t => follow fuel t behind
    else .error .unmarkedPart

/-- What the name of a field leads to. -/
def lookUp (values : Keyed Text Value) (name : Text) : Except Fault Target :=
  let first := name.takeWhile fun p => !startsPart p
  match indexOf none first with
  | .error fault => .error fault
  | .ok (some index) => .error (.numbered index)
  | .ok none =>
    if first.isEmpty then .error (.numbered 0)
    else
      match values.get? first with
      | none => .error (.unknownName first)
      | some v => follow name.length (.value v) (name.drop first.length)

/-! ## Writing -/

/-- The plain text of what a field leads to. -/
def Target.plainText : Target → Text
  | .value v => v.plainText
  | .kind word => "<class '" ++ Text.ofString word ++ "'>"

/-- What a field leads to as a literal. -/
def Target.literalChars : Target → List Char
  | .value v => v.literalChars
  | .kind word => ("<class '" ++ word ++ "'>").toList

/-- What a field leads to after its conversion: `s` to the plain text,
`r` to the literal, `a` to the literal within ASCII. -/
def convert (t : Target) : Option CodePoint → Except Fault Target
  | none => .ok t
  | some (.char 's') => .ok (.value (.text t.plainText))
  | some (.char 'r') => .ok (.value (.text (.ofChars t.literalChars)))
  | some (.char 'a') =>
    .ok (.value (.text (.ofChars (Text.escapeBeyondAscii t.literalChars))))
  | some code => .error (.unknownConversion code)

/-- What a field leads to, written as asked. -/
def write (t : Target) (spec : Text) : Except Fault Text :=
  match t with
  | .value v => (v.format spec).mapError .format
  | .kind _ =>
    if spec.isEmpty then .ok t.plainText else .error (.format (.notForKind "type"))

/-- Fills in the fields of a message; `depth` is how deep fields may
still stand in one another, `fuel` bounds the length of the message. -/
def fillFrom (fuel depth : Nat) (values : Keyed Text Value) (t : Text) : Except Fault Text :=
  match fuel, t with
  | _, [] => .ok []
  | 0, _ => .ok []
  | fuel + 1, p :: rest =>
    if p = .char '\x7b' then
      match rest with
      | [] => .error .loneOpening
      | .char '\x7b' :: more => (fillFrom fuel depth values more).map (p :: ·)
      | rest =>
        match readField rest with
        | .error fault => .error fault
        | .ok (field, rest) =>
          match (lookUp values field.name).bind fun t => convert t field.conversion with
          | .error fault => .error fault
          | .ok target =>
            let spec : Except Fault Text :=
              if field.nested then
                match depth with
                | 0 => .error .tooDeep
                | depth + 1 => fillFrom fuel depth values field.spec
              else .ok field.spec
            match spec.bind (write target) with
            | .error fault => .error fault
            | .ok written => (fillFrom fuel depth values rest).map (written ++ ·)
    else if p = .char '\x7d' then
      match rest with
      | .char '\x7d' :: more => (fillFrom fuel depth values more).map (p :: ·)
      | _ => .error .loneClosing
    else (fillFrom fuel depth values rest).map (p :: ·)

/-- A message with its fields filled in; without values it stands as it
is. -/
def fill (values : Keyed Text Value) (message : Text) : Except Fault Text :=
  if values.isEmpty then .ok message
  else fillFrom (message.length + 1) 1 values message

end Lineage.Template
