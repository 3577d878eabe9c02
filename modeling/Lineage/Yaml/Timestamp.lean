/-
Lineage.Yaml.Timestamp — the dates and times among unquoted YAML
scalars.

A date is written with four, two and two digits.  A time of day follows
a date, of which month and day may then have one digit, behind the letter
T or blanks; parts of a second and the distance from universal time may
follow it.
-/
import Lineage.Yaml.Number

namespace Lineage.Yaml

/-- A year has a leap day. -/
def isLeapYear (year : Nat) : Bool :=
  year % 4 == 0 && (year % 100 != 0 || year % 400 == 0)

/-- The number of days of a month. -/
def daysIn (year month : Nat) : Nat :=
  if month = 2 then (if isLeapYear year then 29 else 28)
  else if month ∈ [4, 6, 9, 11] then 30
  else 31

/-- A reading of a number: its value and what follows it. -/
abbrev Digits := Option (Nat × List Char)

/-- Exactly two digits. -/
def twoDigits? : List Char → Digits
  | a :: b :: rest => if isDigit a && isDigit b then some (digitsIn 10 [a, b], rest) else none
  | _ => none

/-- Exactly four digits. -/
def fourDigits? : List Char → Digits
  | a :: b :: c :: d :: rest =>
    if [a, b, c, d].all isDigit then some (digitsIn 10 [a, b, c, d], rest) else none
  | _ => none

/-- One digit or two, as many as there are. -/
def upToTwoDigits? (cs : List Char) : Digits :=
  match twoDigits? cs, cs with
  | some found, _ => some found
  | none, a :: rest => if isDigit a then some (digitsIn 10 [a], rest) else none
  | none, [] => none

/-- What follows a character. -/
def behind? (c : Char) : List Char → Option (List Char)
  | d :: rest => if d = c then some rest else none
  | [] => none

/-- A blank between the parts of a time. -/
def isTimeBlank (c : Char) : Bool :=
  c = ' ' || c = '\t'

/-! ## Dates -/

/-- A date, if the calendar has it. -/
def checkDate (year month day : Nat) : Except Fault Date :=
  if year = 0 then .error (.badYear year)
  else if month = 0 ∨ 12 < month then .error .badMonth
  else if day = 0 ∨ daysIn year month < day then .error .badDay
  else .ok ⟨year, month, day⟩

/-- A date alone. -/
def date? (cs : List Char) : Option (Except Fault Date) := do
  let (year, cs) ← fourDigits? cs
  let (month, cs) ← twoDigits? (← behind? '-' cs)
  let (day, cs) ← twoDigits? (← behind? '-' cs)
  if cs.isEmpty then some (checkDate year month day) else none

/-! ## Times -/

/-- The millionths of a second that digits behind a point spell. -/
def microsOf (digits : List Char) : Nat :=
  digitsIn 10 ((digits ++ List.replicate 6 '0').take 6)

/-- The distance from universal time in minutes that a text spells, if
it names one. -/
def zone? (cs : List Char) : Option (Option Int) :=
  match cs, cs.dropWhile isTimeBlank with
  | [], _ => some none
  | _, ['Z'] => some (some 0)
  | _, sign :: rest => do
    let (hours, rest) ← upToTwoDigits? rest
    let minutes ← match rest with
      | [] => some 0
      | rest => do
        let (minutes, rest) ← twoDigits? (← behind? ':' rest)
        if rest.isEmpty then some minutes else none
    let distance : Int := hours * 60 + minutes
    if sign = '+' then some (some distance)
    else if sign = '-' then some (some (-distance))
    else none
  | _, [] => none

/-- A time of a day, if there is such a time; a distance from universal
time is found wrong before anything else. -/
def checkMoment (year month day hour minute second micros : Nat) (offset : Option Int) :
    Except Fault Moment :=
  let far := (offset.filter fun minutes => 1440 ≤ minutes.natAbs)
  match far, checkDate year month day with
  | some minutes, _ => .error (.badOffset minutes)
  | none, .error f => .error f
  | none, .ok date =>
    if 23 < hour then .error .badHour
    else if 59 < minute then .error .badMinute
    else if 59 < second then .error .badSecond
    else .ok ⟨date, hour, minute, second, micros, offset⟩

/-- What follows the mark between a date and a time. -/
def behindMark? : List Char → Option (List Char)
  | c :: rest =>
    if c = 'T' ∨ c = 't' then some rest
    else if isTimeBlank c then some (rest.dropWhile isTimeBlank)
    else none
  | [] => none

/-- A time of day on a date. -/
def moment? (cs : List Char) : Option (Except Fault Moment) := do
  let (year, cs) ← fourDigits? cs
  let (month, cs) ← upToTwoDigits? (← behind? '-' cs)
  let (day, cs) ← upToTwoDigits? (← behind? '-' cs)
  let (hour, cs) ← upToTwoDigits? (← behindMark? cs)
  let (minute, cs) ← twoDigits? (← behind? ':' cs)
  let (second, cs) ← twoDigits? (← behind? ':' cs)
  let rest := (behind? '.' cs).getD []
  let fraction := rest.takeWhile isDigit
  let cs := if (behind? '.' cs).isSome then rest.drop fraction.length else cs
  let offset ← zone? cs
  some (checkMoment year month day hour minute second (microsOf fraction) offset)

/-- The date or time of a scalar, if it has the form of one. -/
def timestamp? (cs : List Char) : Option (Except Fault Scalar) :=
  match date? cs with
  | some r => some (r.map .date)
  | none => (moment? cs).map fun r => r.map .moment

end Lineage.Yaml
