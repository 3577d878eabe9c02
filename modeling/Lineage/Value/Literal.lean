/-
Lineage.Value.Literal — the notation of document values in log lines and
in names made from values: words with a capital for the constants,
quoted literals for texts, brackets around items.

A value in a heap is spelled in the same way, with points for what stands
within itself; every array and object within another takes a call of its
own (`Heap.spell`).
-/
import Lineage.Text.Quoted
import Lineage.Value.Graph

namespace Lineage

/-- Written parts with commas between them. -/
def listed (parts : List (List Char)) : List Char :=
  List.intercalate [',', ' '] parts

/-- A distance in minutes as a literal: whole days, and the seconds
within the day. -/
def distanceLiteral (minutes : Int) : List Char :=
  let days := Int.fdiv minutes 1440
  let seconds := (Int.fmod minutes 1440) * 60
  let parts := (if days = 0 then [] else ["days=".toList ++ (toString days).toList])
    ++ (if seconds = 0 then [] else ["seconds=".toList ++ (toString seconds).toList])
  "datetime.timedelta(".toList ++ (if parts.isEmpty then ['0'] else listed parts) ++ [')']

/-- A zone of time as a literal. -/
def zoneLiteral (minutes : Int) : List Char :=
  if minutes = 0 then "datetime.timezone.utc".toList
  else "datetime.timezone(".toList ++ distanceLiteral minutes ++ [')']

/-- A moment as a literal: seconds and parts of them only where they are
needed. -/
def Moment.literalChars (m : Moment) : List Char :=
  let number := Nat.toDigits 10
  let fine := if m.micros = 0 then [] else [number m.micros]
  let seconds := if m.second = 0 ∧ m.micros = 0 then [] else number m.second :: fine
  let zone := match m.offset with
    | none => []
    | some minutes => ["tzinfo=".toList ++ zoneLiteral minutes]
  "datetime.datetime(".toList
    ++ listed ([number m.date.year, number m.date.month, number m.date.day, number m.hour,
      number m.minute] ++ seconds ++ zone) ++ [')']

/-- A byte as it is written between the quotes of a literal. -/
def byteLiteral (quote : Char) (b : UInt8) : List Char :=
  let c := Char.ofNat b.toNat
  if c = quote ∨ c = '\\' then ['\\', c]
  else if c = '\t' then ['\\', 't']
  else if c = '\n' then ['\\', 'n']
  else if c = '\r' then ['\\', 'r']
  else if 0x20 ≤ b ∧ b < 0x7F then [c]
  else
    let digits := Nat.toDigits 16 b.toNat
    '\\' :: 'x' :: (List.replicate (2 - digits.length) '0' ++ digits)

/-- Bytes as a literal, between the quotes that do not occur in them. -/
def bytesLiteral (bytes : List UInt8) : List Char :=
  let quote := if bytes.contains 0x27 && !bytes.contains 0x22 then '"' else '\x27'
  'b' :: quote :: (bytes.flatMap (byteLiteral quote) ++ [quote])

namespace Scalar

/-- A scalar as a literal. -/
def literalChars : Scalar → List Char
  | .null => "None".toList
  | .bool b => if b then "True".toList else "False".toList
  | .int i => (toString i).toList
  | .float x => x.render
  | .text t => Text.literalChars t
  | .date d =>
    "datetime.date(".toList ++ listed [Nat.toDigits 10 d.year, Nat.toDigits 10 d.month,
      Nat.toDigits 10 d.day] ++ [')']
  | .moment m => m.literalChars
  | .bytes b => bytesLiteral b

/-- The plain text of a scalar: a text as it is, anything else without
quotes. -/
def plainText : Scalar → Text
  | .text t => t
  | .date d => Text.ofChars d.chars
  | .moment m => Text.ofChars (m.chars ' ')
  | s => Text.ofChars s.literalChars

end Scalar

namespace Value

mutual

/-- A value as a literal. -/
def literalChars : Value → List Char
  | .scalar s => s.literalChars
  | .array items => '[' :: listed (literalItems items) ++ [']']
  | .object fields => '\x7b' :: listed (literalFields fields) ++ ['\x7d']

/-- The items of an array as literals. -/
def literalItems : List Value → List (List Char)
  | [] => []
  | item :: rest => literalChars item :: literalItems rest

/-- The fields of an object as literals. -/
def literalFields : List (Scalar × Value) → List (List Char)
  | [] => []
  | (name, value) :: rest =>
    (name.literalChars ++ ':' :: ' ' :: literalChars value) :: literalFields rest

end

/-- A value as a literal. -/
def literal (value : Value) : Text :=
  Text.ofChars value.literalChars

/-- The plain text of a value: a text as it is, anything else as it
would be told. -/
def plainText : Value → Text
  | .scalar s => s.plainText
  | value => value.literal

end Value

/-! ## Values in a heap -/

/-- What stands between the brackets of a sequence: a tuple of one item
has a comma behind it. -/
def Sequence.enclosed (kind : Sequence) (parts : List (List Char)) : List Char :=
  match kind, parts with
  | .list, parts => '[' :: listed parts ++ [']']
  | .tuple, [part] => '(' :: part ++ [',', ')']
  | .tuple, parts => '(' :: listed parts ++ [')']
  | .set, [] => "set()".toList
  | .set, parts => '\x7b' :: listed parts ++ ['\x7d']

/-- What stands for an array or an object within itself. -/
def Body.points : Body → List Char
  | .items .list _ => "[...]".toList
  | .items .tuple _ => "(...)".toList
  | .items .set _ => "set(...)".toList
  | .fields _ => "\x7b...\x7d".toList

namespace Heap

/-- The results of all calls, or the first failure. -/
def spellAll (spell : Ref → Option (List Char)) : List Ref → Option (List (List Char))
  | [] => some []
  | r :: rest =>
    match spell r with
    | none => none
    | some cs => (spellAll spell rest).map (cs :: ·)

/-- What is referred to as a literal, if there is room for the calls;
`around` are the places within which it stands. -/
def spell (h : Heap) : Nat → List Nat → Ref → Option (List Char)
  | _, _, .scalar s => some s.literalChars
  | room, around, .place n =>
    match h[n]? with
    | none => some []
    | some body =>
      if around.contains n then some body.points
      else
        match room, body with
        | 0, _ => none
        | room + 1, .items kind parts =>
          (spellAll (h.spell room (n :: around)) parts).map kind.enclosed
        | room + 1, .fields links =>
          (spellAll (h.spell room (n :: around)) links.values).map fun values =>
            let parts := (links.keys.zip values).map fun (name, value) =>
              name.literalChars ++ ':' :: ' ' :: value
            '\x7b' :: listed parts ++ ['\x7d']

end Heap

/-- The plain text of a value: a text as it is, anything else as it would
be told, if there is room for the calls. -/
def Graph.plainText (g : Graph) (room : Nat) : Option Text :=
  match g.root with
  | .scalar s => some s.plainText
  | r => (g.heap.spell room [] r).map Text.ofChars

end Lineage
