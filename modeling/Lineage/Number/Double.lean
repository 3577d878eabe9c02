/-
Lineage.Number.Double — binary floating point with 53 bits of precision,
in exact arithmetic on natural numbers.

A finite double is `± mantissa · 2 ^ exponent`.  `ofRatio` rounds a
quotient of natural numbers to the nearest double, ties to the even
mantissa; every other operation is one exact quotient and one rounding,
so `ofRatio` alone decides every last bit.
-/

namespace Lineage

/-- A double: not a number, an infinity, or a signed dyadic number. -/
inductive Double where
  | nan
  | infinite (negative : Bool)
  | finite (negative : Bool) (mantissa : Nat) (exponent : Int)
  deriving DecidableEq, Repr, Inhabited

namespace Double

/-- A power of two. -/
def twoTo (n : Nat) : Nat :=
  Nat.pow 2 n

/-- A power of ten. -/
def tenTo (n : Nat) : Nat :=
  Nat.pow 10 n

/-- The least exponent of a double. -/
def minExponent : Int := -1074

/-- The greatest exponent of a double. -/
def maxExponent : Int := 971

/-- Zero of either sign. -/
def zero (negative : Bool) : Double :=
  .finite negative 0 minExponent

/-- The quotient of two natural numbers, rounded to the nearest whole
number, a half to the even neighbour. -/
def roundDiv (num den : Nat) : Nat :=
  let q := num / den
  let r := num % den
  if 2 * r < den then q else if den < 2 * r then q + 1 else q + q % 2

/-- The quotient `num / (den · 2 ^ exponent)` as two natural numbers. -/
def scaled (num den : Nat) (exponent : Int) : Nat × Nat :=
  if exponent < 0 then (num * twoTo exponent.natAbs, den) else (num, den * twoTo exponent.natAbs)

/-- The exponent under which a quotient has a mantissa of 53 bits, or
the least one. -/
def exponentOf (num den : Nat) : Int :=
  let guess : Int := (num.log2 : Int) - (den.log2 : Int) - 53
  let (n, d) := scaled num den guess
  max (if twoTo 53 ≤ n / d then guess + 1 else guess) minExponent

/-- The double nearest to `± num / den`, of two the one with the even
mantissa. -/
def ofRatio (negative : Bool) (num den : Nat) : Double :=
  if num = 0 then zero negative
  else
    let e := exponentOf num den
    let (n, d) := scaled num den e
    let m := roundDiv n d
    let (m, e) := if m = twoTo 53 then (twoTo 52, e + 1) else (m, e)
    if maxExponent < e then .infinite negative else .finite negative m e

/-- The double nearest to a whole number. -/
def ofInt (i : Int) : Double :=
  ofRatio (i < 0) i.natAbs 1

/-- The double nearest to `± digits · 10 ^ power`. -/
def ofDecimal (negative : Bool) (digits : Nat) (power : Int) : Double :=
  let size : Int := (Nat.toDigits 10 digits).length + power
  if digits = 0 then zero negative
  else if 400 < size then .infinite negative
  else if size < -400 then zero negative
  else if 0 ≤ power then ofRatio negative (digits * tenTo power.natAbs) 1
  else ofRatio negative digits (tenTo power.natAbs)

/-- The exact value `num / 2 ^ shift` of a finite double. -/
def toDyadic? : Double → Option (Int × Nat)
  | .finite negative m e =>
    let (n, shift) := if e < 0 then (m, e.natAbs) else (m * twoTo e.natAbs, 0)
    some (if negative then -(n : Int) else n, shift)
  | _ => none

/-- The double nearest to `num / 2 ^ shift`. -/
def ofDyadic (num : Int) (shift : Nat) : Double :=
  ofRatio (num < 0) num.natAbs (twoTo shift)

/-- The sum of two doubles. -/
def add (x y : Double) : Double :=
  match x, y with
  | .nan, _ | _, .nan => .nan
  | .infinite s, .infinite t => if s = t then .infinite s else .nan
  | .infinite s, _ | _, .infinite s => .infinite s
  | x, y =>
    match x.toDyadic?, y.toDyadic? with
    | some (a, s), some (b, t) => ofDyadic (a * twoTo t + b * twoTo s) (s + t)
    | _, _ => .nan

/-- The difference of two finite doubles. -/
def sub (x y : Double) : Double :=
  match x.toDyadic?, y.toDyadic? with
  | some (a, s), some (b, t) => ofDyadic (a * twoTo t - b * twoTo s) (s + t)
  | _, _ => .nan

/-- The product of two doubles. -/
def mul (x y : Double) : Double :=
  match x, y with
  | .finite s m e, .finite t n f =>
    let (num, den) := scaled (m * n) 1 (-(e + f))
    ofRatio (s != t) num den
  | .finite s m _, .infinite t | .infinite s, .finite t m _ =>
    if m = 0 then .nan else .infinite (s != t)
  | .infinite s, .infinite t => .infinite (s != t)
  | _, _ => .nan

/-- The double of the other sign. -/
def negate : Double → Double
  | .nan => .nan
  | .infinite negative => .infinite !negative
  | .finite negative m e => .finite (!negative) m e

/-- `x` is less than `y`, for finite doubles. -/
def less (x y : Double) : Bool :=
  match x.toDyadic?, y.toDyadic? with
  | some (a, s), some (b, t) => a * twoTo t < b * twoTo s
  | _, _ => false

/-- The whole part of a finite double, toward zero. -/
def truncate? (x : Double) : Option Int :=
  x.toDyadic?.map fun (a, s) => Int.tdiv a (twoTo s)

/-- The whole number that a double is, if it is one. -/
def toInt? (x : Double) : Option Int :=
  match x.toDyadic? with
  | some (a, s) => if a.natAbs % twoTo s = 0 then some (Int.tdiv a (twoTo s)) else none
  | none => none

/-- A finite double rounded to a number of decimal places, a half to the
even neighbour. -/
def roundPlaces (x : Double) (places : Nat) : Double :=
  match x with
  | .finite negative m e =>
    let (n, d) := scaled (m * tenTo places) 1 (-e)
    ofRatio negative (roundDiv n d) (tenTo places)
  | _ => x

/-- A rounded quotient is off by at most one half. -/
theorem roundDiv_close (num : Nat) {den : Nat} (h : 0 < den) :
    2 * (roundDiv num den * den) ≤ 2 * num + den
      ∧ 2 * num ≤ 2 * (roundDiv num den * den) + den := by
  have hdm : den * (num / den) + num % den = num := Nat.div_add_mod num den
  have hlt : num % den < den := Nat.mod_lt _ h
  have hcomm : den * (num / den) = num / den * den := Nat.mul_comm _ _
  unfold roundDiv
  simp only
  split
  · constructor <;> omega
  · split
    · rw [Nat.add_mul]
      constructor <;> omega
    · have hpar := Nat.mod_two_eq_zero_or_one (num / den)
      rcases hpar with hp | hp
      · rw [hp, Nat.add_zero]
        constructor <;> omega
      · rw [hp, Nat.add_mul]
        constructor <;> omega

end Double

end Lineage
