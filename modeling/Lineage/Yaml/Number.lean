/-
Lineage.Yaml.Number — the numbers among unquoted YAML scalars.

Integers are written in base two, eight, ten, sixteen or sixty, floats
with a point and possibly a signed exponent, or in base sixty; digits may
have underscores between and behind them.
-/
import Lineage.Text.Parts
import Lineage.Yaml.Fault

namespace Lineage.Yaml

/-- An ASCII digit. -/
def isDigit (c : Char) : Bool :=
  '0' ≤ c && c ≤ '9'

/-- The value of a digit in a base up to sixteen. -/
def digitValue? (base : Nat) (c : Char) : Option Nat :=
  let n :=
    if '0' ≤ c ∧ c ≤ '9' then c.toNat - 48
    else if 'a' ≤ c ∧ c ≤ 'f' then c.toNat - 87
    else if 'A' ≤ c ∧ c ≤ 'F' then c.toNat - 55
    else base
  if n < base then some n else none

/-- The whole number that digits spell in a base. -/
def digitsIn (base : Nat) (cs : List Char) : Nat :=
  cs.foldl (fun n c => n * base + (digitValue? base c).getD 0) 0

/-- Digits of a base or underscores, at least one. -/
def isDigits (base : Nat) (cs : List Char) : Bool :=
  !cs.isEmpty && cs.all fun c => c = '_' || (digitValue? base c).isSome

/-- Without underscores. -/
def bare (cs : List Char) : List Char :=
  cs.filter (· ≠ '_')

/-- The sign of a number and what follows it. -/
def splitSign : List Char → Bool × List Char
  | '-' :: r => (true, r)
  | '+' :: r => (false, r)
  | r => (false, r)

/-- A digit and then digits or underscores. -/
def isNumeral : List Char → Bool
  | c :: rest => isDigit c && rest.all fun d => d = '_' || isDigit d
  | [] => false

/-- A numeral that does not start with zero. -/
def isPositiveNumeral (cs : List Char) : Bool :=
  isNumeral cs && cs.head? != some '0'

/-- A part of a number in base sixty after the first: one digit, or two
of which the first is at most five. -/
def isSixtieth (cs : List Char) : Bool :=
  match cs with
  | [c] => isDigit c
  | [c, d] => '0' ≤ c && c ≤ '5' && isDigit d
  | _ => false

/-! ## Integers -/

/-- The greatest number of digits of a decimal integer. -/
def maxDigits : Nat := 4300

/-- A decimal integer. -/
def decimalInteger (cs : List Char) : Except Fault Nat :=
  let digits := bare cs
  if maxDigits < digits.length then .error (.longInteger digits.length)
  else .ok (digitsIn 10 digits)

/-- An integer in a base other than ten. -/
def basedInteger (base : Nat) (cs : List Char) : Except Fault Nat :=
  match bare cs with
  | [] => .error (.badDigits base [])
  | digits => .ok (digitsIn base digits)

/-- An integer in base sixty, behind the parts that make `soFar`. -/
def sixtiethInteger (soFar : Nat) : List (List Char) → Except Fault Nat
  | [] => .ok soFar
  | part :: rest =>
    match decimalInteger part with
    | .error f => .error f
    | .ok n => sixtiethInteger (soFar * 60 + n) rest

/-- The integer of a scalar, if it has the form of one. -/
def integer? (cs : List Char) : Option (Except Fault Int) :=
  let (negative, body) := splitSign cs
  let signed (r : Except Fault Nat) : Option (Except Fault Int) :=
    some (r.map fun n => if negative then -(n : Int) else n)
  match body with
  | '0' :: 'b' :: rest => if isDigits 2 rest then signed (basedInteger 2 rest) else none
  | '0' :: 'x' :: rest => if isDigits 16 rest then signed (basedInteger 16 rest) else none
  | ['0'] => signed (.ok 0)
  | '0' :: rest => if isDigits 8 rest then signed (.ok (digitsIn 8 (bare rest))) else none
  | body =>
    match Text.partsAt ':' body with
    | whole :: parts =>
      if isPositiveNumeral whole && parts.all isSixtieth then
        signed (sixtiethInteger 0 (whole :: parts))
      else none
    | [] => none

/-! ## Floats -/

/-- The signed exponent at the end of a float, if the text is one. -/
def exponent? : List Char → Option Int
  | [] => some 0
  | e :: sign :: digits =>
    if (e = 'e' || e = 'E') && (sign = '+' || sign = '-') && !digits.isEmpty && digits.all isDigit
    then
      let n : Int := digitsIn 10 digits
      some (if sign = '-' then -n else n)
    else none
  | _ => none

/-- The double of digits before and behind a point. -/
def decimalDouble (whole fraction : List Char) (exponent : Int) : Double :=
  let fraction := bare fraction
  .ofDecimal false (digitsIn 10 (bare whole ++ fraction)) (exponent - fraction.length)

/-- A float with the digits before its point. -/
def pointed? (whole rest : List Char) : Option Double :=
  let fraction := rest.takeWhile fun c => c = '_' || isDigit c
  (exponent? (rest.drop fraction.length)).map (decimalDouble whole fraction)

/-- The sum of the parts of a float in base sixty, the last one first,
each times its weight; a weight that is no double is a fault. -/
def sixtiethDouble (sum : Double) (weight : Nat) : List Double → Except Fault Double
  | [] => .ok sum
  | part :: rest =>
    match Double.ofInt weight with
    | .finite s m e => sixtiethDouble (sum.add (part.mul (.finite s m e))) (weight * 60) rest
    | _ => .error .hugeWeight

/-- The words for infinity, behind a sign. -/
def infinityWords : List String := [".inf", ".Inf", ".INF"]

/-- The words for what is no number. -/
def nanWords : List String := [".nan", ".NaN", ".NAN"]

/-- The float of a scalar without its sign, if it has the form of one. -/
def unsignedFloat? (signed : Bool) (body : List Char) : Option (Except Fault Double) :=
  let word := String.ofList body
  if word ∈ infinityWords then some (.ok (.infinite false))
  else if !signed && word ∈ nanWords then some (.ok .nan)
  else
    let whole := body.takeWhile (· ≠ '.')
    match body.drop whole.length with
    | '.' :: rest =>
      if whole.isEmpty then
        if !signed && rest.head?.any isDigit then (pointed? [] rest).map .ok else none
      else if isNumeral whole then (pointed? whole rest).map .ok
      else
        match Text.partsAt ':' whole with
        | first :: part :: parts =>
          if isNumeral first && (part :: parts).all isSixtieth
              && rest.all (fun c => c = '_' || isDigit c) then
            let before := (first :: part :: parts).dropLast
            let last := (part :: parts).getLastD part
            some (sixtiethDouble (Double.zero false) 1
              (decimalDouble last rest 0 :: before.reverse.map fun p => decimalDouble p [] 0))
          else none
        | _ => none
    | _ => none

/-- The float of a scalar, if it has the form of one. -/
def float? (cs : List Char) : Option (Except Fault Double) :=
  let (negative, body) := splitSign cs
  (unsignedFloat? (body.length ≠ cs.length) body).map fun r =>
    r.map fun x => if negative then x.negate else x

end Lineage.Yaml
