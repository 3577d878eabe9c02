/-
Lineage.Number.Shortest — decimal texts of doubles.

`shortest` finds the fewest decimal digits that read back as the same
double, of those the nearest to it.  `render` places them: positional
from 1e-4 up to 1e16, otherwise with a signed exponent of at least two
digits; a whole number keeps one zero after the point.
-/
import Lineage.Number.Double

namespace Lineage.Double

/-- The power of ten of the leading digit of a positive quotient. -/
def leadingPower (num den : Nat) : Int :=
  if den ≤ num then ((Nat.toDigits 10 (num / den)).length : Int) - 1
  else
    let rec climb (fuel power : Nat) (num : Nat) : Int :=
      match fuel with
      | 0 => -(power : Int)
      | fuel + 1 => if den ≤ num then -(power : Int) else climb fuel (power + 1) (num * 10)
    climb 400 0 num

/-- The two neighbours of a positive quotient among the multiples of
`10 ^ power`, the nearer one first, of two equally near the even one. -/
def gridNeighbours (num den : Nat) (power : Int) : Nat × Nat :=
  let (n, d) :=
    if power < 0 then (num * tenTo power.natAbs, den) else (num, den * tenTo power.natAbs)
  let low := n / d
  let near := roundDiv n d
  if near = low then (low, low + 1) else (low + 1, low)

/-- The digits, as a whole number, and the power of ten of the last of
them: the coarsest decimal grid on which a neighbour of the double reads
back. -/
def shortest (mantissa : Nat) (exponent : Int) : Nat × Int :=
  let (num, den) := scaled mantissa 1 (-exponent)
  let top := leadingPower num den
  let rec search (fuel : Nat) (count : Nat) : Nat × Int :=
    let power := top - (count : Int) + 1
    let (near, far) := gridNeighbours num den power
    match fuel with
    | 0 => (near, power)
    | fuel + 1 =>
      let self := finite false mantissa exponent
      if ofDecimal false near power = self then (near, power)
      else if ofDecimal false far power = self then (far, power)
      else search fuel (count + 1)
  search 17 1

/-- Digits without the zeros at their end, and the power of the last. -/
def trimZeros (digits : List Char) (power : Int) : List Char × Int :=
  let kept := (digits.reverse.dropWhile (· = '0')).reverse
  (kept, power + (digits.length - kept.length : Nat))

/-- A whole number in digits. -/
def digitsOf (n : Nat) : List Char :=
  Nat.toDigits 10 n

/-- Digits with the power of ten of their last one, placed as text. -/
def place (digits : List Char) (power : Int) : List Char :=
  let point : Int := digits.length + power
  if -4 < point && point ≤ 16 then
    if point ≤ 0 then "0.".toList ++ List.replicate point.natAbs '0' ++ digits
    else if 0 ≤ power then digits ++ List.replicate power.natAbs '0' ++ ".0".toList
    else digits.take point.toNat ++ ['.'] ++ digits.drop point.toNat
  else
    let mark := point - 1
    let size := digitsOf mark.natAbs
    let exponent := if size.length < 2 then '0' :: size else size
    let fraction := match digits with
      | d :: [] => [d]
      | d :: more => d :: '.' :: more
      | [] => []
    fraction ++ ['e', if mark < 0 then '-' else '+'] ++ exponent

/-- The text of a double. -/
def render : Double → List Char
  | .nan => "nan".toList
  | .infinite negative => if negative then "-inf".toList else "inf".toList
  | .finite negative mantissa exponent =>
    let body :=
      if mantissa = 0 then "0.0".toList
      else
        let (n, power) := shortest mantissa exponent
        let (digits, power) := trimZeros (digitsOf n) power
        place digits power
    if negative then '-' :: body else body

end Lineage.Double
