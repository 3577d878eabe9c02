/-
Lineage.Value.Scalar — the values of documents that have no parts.

Scalars also name the fields of objects, and as names they are compared
by what they count as: a flag counts as zero or one and a float without
a fraction as a whole number, so that `1`, `1.0` and `true` are one
name (`Scalar.counted`).
-/
import Lineage.Keyed
import Lineage.Number.Shortest
import Lineage.Text.Basic

namespace Lineage

/-- A number in decimal digits, with zeros in front up to a width. -/
def paddedDigits (width n : Nat) : List Char :=
  let digits := Nat.toDigits 10 n
  List.replicate (width - digits.length) '0' ++ digits

/-- A calendar date. -/
structure Date where
  year : Nat
  month : Nat
  day : Nat
  deriving DecidableEq, Repr

/-- A date as year, month and day. -/
def Date.chars (d : Date) : List Char :=
  paddedDigits 4 d.year ++ '-' :: paddedDigits 2 d.month ++ '-' :: paddedDigits 2 d.day

/-- A time of day on a date; `offset` is the distance of its clock from
universal time, in minutes, if that is known. -/
structure Moment where
  date : Date
  hour : Nat
  minute : Nat
  second : Nat
  micros : Nat
  offset : Option Int
  deriving DecidableEq, Repr

/-- A distance from universal time. -/
def offsetChars (minutes : Int) : List Char :=
  (if minutes < 0 then '-' else '+') :: paddedDigits 2 (minutes.natAbs / 60)
    ++ ':' :: paddedDigits 2 (minutes.natAbs % 60)

/-- A moment with a character between its date and its time. -/
def Moment.chars (between : Char) (m : Moment) : List Char :=
  m.date.chars ++ between :: paddedDigits 2 m.hour ++ ':' :: paddedDigits 2 m.minute
    ++ ':' :: paddedDigits 2 m.second
    ++ (if m.micros = 0 then [] else '.' :: paddedDigits 6 m.micros)
    ++ (m.offset.map offsetChars).getD []

/-- A value without parts. -/
inductive Scalar where
  | null
  | bool (b : Bool)
  | int (i : Int)
  | float (x : Double)
  | text (t : Text)
  | date (d : Date)
  | moment (m : Moment)
  /-- Bytes, which a YAML document can spell. -/
  | bytes (b : List UInt8)
  deriving DecidableEq, Repr, Inhabited

namespace Scalar

instance : Coe Text Scalar := ⟨.text⟩

/-- What a scalar counts as where it is a name. -/
def counted : Scalar → Scalar
  | .bool b => .int (if b then 1 else 0)
  | .float x =>
    match x.toInt? with
    | some i => .int i
    | none => .float x
  | s => s

instance : BEq Scalar := ⟨fun a b => decide (a.counted = b.counted)⟩

theorem beq_iff {a b : Scalar} : (a == b) = true ↔ a.counted = b.counted :=
  decide_eq_true_iff

instance : EquivBEq Scalar where
  rfl := beq_iff.2 rfl
  symm h := beq_iff.2 (beq_iff.1 h).symm
  trans h k := beq_iff.2 ((beq_iff.1 h).trans (beq_iff.1 k))

/-- Texts are one name only if they are equal. -/
@[simp] theorem text_beq_text {t u : Text} : (Scalar.text t == Scalar.text u) = decide (t = u) := by
  rw [Bool.eq_iff_iff, beq_iff]
  simp [counted]

/-- A text is one name with nothing but itself. -/
theorem text_beq_iff {t : Text} {s : Scalar} : (Scalar.text t == s) = true ↔ s = .text t := by
  rw [beq_iff]
  cases s with
  | float x =>
    cases hx : x.toInt? <;> simp [counted, hx]
  | text u => exact ⟨fun h => h.symm, fun h => h.symm⟩
  | null | bool | int | date | moment | bytes => simp [counted]

/-- The word that messages use for the kind of a scalar. -/
def kindWord : Scalar → String
  | .null => "NoneType"
  | .bool _ => "bool"
  | .int _ => "int"
  | .float _ => "float"
  | .text _ => "str"
  | .date _ => "date"
  | .moment _ => "datetime"
  | .bytes _ => "bytes"

/-- Null, false, zero, the empty text and no bytes say nothing. -/
def saysNothing : Scalar → Bool
  | .null => true
  | .bool b => !b
  | .int i => i == 0
  | .float (.finite _ m _) => m == 0
  | .float _ => false
  | .text t => t.isEmpty
  | .date _ => false
  | .moment _ => false
  | .bytes b => b.isEmpty

end Scalar

end Lineage
