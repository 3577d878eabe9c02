/-
Lineage.Number.Decimals — doubles in decimal digits of a wanted number.

A `Form` says how many digits are wanted and how they are placed: with a
number of places behind the point, with an exponent, or as either of the
two by the size of the number.  Digits are rounded once, to the nearest,
a half to the even neighbour.
-/
import Lineage.Number.Shortest

namespace Lineage.Double

/-- Digits of a number that is `0.d₁d₂… · 10 ^ point`. -/
structure Decimals where
  digits : List Char
  point : Int

namespace Decimals

/-- The digits of zero. -/
def zero : Decimals := ⟨['0'], 1⟩

/-- All digits are zero. -/
def isZero (d : Decimals) : Bool :=
  d.digits.all (· = '0')

/-- Without the zeros at the end. -/
def trimmed (d : Decimals) : Decimals :=
  if d.isZero then zero else ⟨(d.digits.reverse.dropWhile (· = '0')).reverse, d.point⟩

/-- A number of digits, zeros included. -/
def padded (count : Nat) (cs : List Char) : List Char :=
  cs ++ List.replicate (count - cs.length) '0'

/-- The digits around a point, with at least `places` of them behind it;
`bare` keeps a point that nothing follows. -/
def positional (d : Decimals) (places : Nat) (bare : Bool) : List Char :=
  let whole := if d.point ≤ 0 then ['0'] else padded d.point.toNat (d.digits.take d.point.toNat)
  let fraction :=
    if d.point ≤ 0 then List.replicate d.point.natAbs '0' ++ d.digits
    else d.digits.drop d.point.toNat
  let fraction := padded places fraction
  whole ++ (if fraction.isEmpty && !bare then [] else '.' :: fraction)

/-- One digit before the point, at least `places` behind it, and a
signed exponent of at least two digits. -/
def exponential (d : Decimals) (places : Nat) (bare : Bool) : List Char :=
  let mark := d.point - 1
  let size := digitsOf mark.natAbs
  positional ⟨d.digits, 1⟩ places bare ++ 'e' :: (if mark < 0 then '-' else '+')
    :: (if size.length < 2 then '0' :: size else size)

end Decimals

/-- A quotient in multiples of a power of ten, rounded. -/
def roundAt (num den : Nat) (power : Int) : Nat :=
  if power < 0 then roundDiv (num * tenTo power.natAbs) den
  else roundDiv num (den * tenTo power.natAbs)

/-- The digits of a quotient, rounded to a positive number of them. -/
def significant (num den count : Nat) : Decimals :=
  if num = 0 then .zero
  else
    let power := leadingPower num den - (count : Int) + 1
    let digits := digitsOf (roundAt num den power)
    ⟨digits.take count, digits.length + power⟩

/-- How many digits a double is written with, and how they are placed. -/
inductive Form where
  /-- The fewest digits that read back, as in `render`. -/
  | shortest
  /-- A number of places behind the point. -/
  | fixed (places : Nat)
  /-- An exponent, and a number of places behind the point. -/
  | scientific (places : Nat)
  /-- A number of digits, with an exponent if the number is small or
  large; `whole` keeps a zero behind the point of a whole number. -/
  | general (count : Nat) (whole : Bool)
  deriving DecidableEq, Repr

/-- The digits of a positive dyadic number that a form asks for. -/
def Form.decimals (form : Form) (mantissa : Nat) (exponent : Int) : Decimals :=
  let (num, den) := scaled mantissa 1 (-exponent)
  match form with
  | .shortest =>
    if mantissa = 0 then .zero
    else
      let (n, power) := Double.shortest mantissa exponent
      (Decimals.mk (digitsOf n) ((digitsOf n).length + power)).trimmed
  | .fixed places =>
    let digits := digitsOf (roundAt num den (-(places : Int)))
    ⟨digits, (digits.length : Int) - places⟩
  | .scientific places => significant num den (places + 1)
  | .general count _ => (significant num den (max count 1)).trimmed

/-- Digits as a form places them; the full style keeps the zeros and the
point at the end. -/
def Form.place (form : Form) (full : Bool) (d : Decimals) : List Char :=
  match form with
  | .shortest =>
    if d.point ≤ -4 ∨ 16 < d.point then d.exponential 0 full else d.positional 1 full
  | .fixed places => d.positional places full
  | .scientific places => d.exponential places full
  | .general count whole =>
    let count : Int := (max count 1 : Nat)
    if d.point ≤ -4 ∨ (if whole then count - 1 else count) < d.point then
      d.exponential (if full then (count - 1).toNat else 0) full
    else
      let places := if full then (count - d.point).toNat else 0
      d.positional (if whole then max places 1 else places) full

/-- A double in a form: whether it has a minus sign, and what follows
it; `coerce` takes the sign from a zero. -/
def written (form : Form) (full coerce : Bool) : Double → Bool × List Char
  | .nan => (false, "nan".toList)
  | .infinite negative => (negative, "inf".toList)
  | .finite negative mantissa exponent =>
    let d := form.decimals mantissa exponent
    (negative && !(coerce && d.isZero), form.place full d)

end Lineage.Double
