/-
Lineage.Yaml.Fault — reading YAML documents, and why one is no value.

A document can break the grammar, hold a scalar that has the form of a
number or of a time without being one, or hold a number that is too
large for what it is to become (`Fault.kind`).  The reader itself is a
package, of which nothing is asked but that it gives a value with its
heap or fails (`YamlReader`).
-/
import Lineage.Platform
import Lineage.Value.Literal

namespace Lineage.Yaml

/-- Why a document is no value. -/
inductive Fault where
  | grammar
  /-- Digits that are none in their base. -/
  | badDigits (base : Nat) (digits : List Char)
  /-- An integer with too many digits. -/
  | longInteger (digits : Nat)
  /-- A float in base sixty with too many parts. -/
  | hugeWeight
  /-- An escape beyond the last code point. -/
  | badEscape (code : Nat)
  | badYear (year : Nat)
  | badMonth
  | badDay
  | badHour
  | badMinute
  | badSecond
  /-- A distance from universal time of a day or more. -/
  | badOffset (minutes : Int)
  /-- Anything else that the reader raises. -/
  | raised (e : Raised)
  deriving DecidableEq, Repr

/-- The kinds of faults. -/
inductive Fault.Kind where
  | grammar
  | value
  /-- A number is too large. -/
  | size
  | other
  deriving DecidableEq, Repr

namespace Fault

/-- The bound of the numbers of escapes: machine integers of 32 bits. -/
def escapeBound : Nat := 0x80000000

/-- The kind of a fault. -/
def kind : Fault → Kind
  | .grammar => .grammar
  | .hugeWeight => .size
  | .badEscape code => if code < escapeBound then .value else .size
  | .raised e => if e.ofValue then .value else .other
  | _ => .value

/-- The wording of a fault; a fault of grammar has none. -/
def message : Fault → Text
  | .grammar => []
  | .badDigits base digits =>
    "invalid literal for int() with base " ++ Text.decimal base ++ ": "
      ++ Text.literal (.ofChars digits)
  | .longInteger digits =>
    "Exceeds the limit (4300 digits) for integer string conversion: value has "
      ++ Text.decimal digits
      ++ " digits; use sys.set_int_max_str_digits() to increase the limit"
  | .hugeWeight => "int too large to convert to float"
  | .badEscape code =>
    if code < escapeBound then "chr() arg not in range(0x110000)"
    else "Python int too large to convert to C int"
  | .badYear year => "year " ++ Text.decimal year ++ " is out of range"
  | .badMonth => "month must be in 1..12"
  | .badDay => "day is out of range for month"
  | .badHour => "hour must be in 0..23"
  | .badMinute => "minute must be in 0..59"
  | .badSecond => "second must be in 0..59"
  | .badOffset minutes =>
    "offset must be a timedelta strictly between -timedelta(hours=24) and timedelta(hours=24), not "
      ++ Text.ofChars (distanceLiteral minutes) ++ "."
  | .raised e => e.message

end Fault

end Lineage.Yaml

namespace Lineage

/-- The reader of YAML documents: the value that a text holds, or why it
holds none. -/
class YamlReader where
  read : List Char → Except Yaml.Fault Graph

end Lineage
