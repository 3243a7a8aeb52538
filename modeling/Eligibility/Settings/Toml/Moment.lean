/-
Dates and times of TOML: a date, a time of day, or both with or without a distance from universal
time. Their text has a `T` between date and time, seconds, and at most nine digits of a second.
-/
import Eligibility.Decimal

namespace Eligibility.Toml

/-- A day of the calendar. -/
structure Date where
  year : Nat
  month : Nat
  day : Nat

/-- A time of day. The digits of a second after the point have no zero at their end. -/
structure DayTime where
  hour : Nat
  minute : Nat
  second : Nat
  fraction : List Char

/-- A distance from universal time. -/
inductive TimeZone where
  | universal
  /-- So many minutes ahead of it. -/
  | ahead (n : Int)

/-- A date, a time of day, or both. -/
inductive Moment where
  | date (d : Date)
  | time (t : DayTime)
  | both (d : Date) (t : DayTime) (zone? : Option TimeZone)

/-! ## Reading -/

/-- The number that so many digits at the start of a text stand for, and what follows them. -/
def scanNumber (width : Nat) (cs : List Char) : Option (Nat × List Char) :=
  let ds := cs.take width
  if ds.length = width ∧ ds.all Char.isDigit then some (Decimal.ofDigits ds, cs.drop width) else none

/-- What follows a character, if it comes first. -/
def skipChar (c : Char) : List Char → Option (List Char)
  | d :: rest => if d = c then some rest else none
  | [] => none

/-- The days of a month. -/
def daysOf (year month : Nat) : Nat :=
  if month = 2 then if year % 4 = 0 ∧ (year % 100 ≠ 0 ∨ year % 400 = 0) then 29 else 28
  else if month ∈ [4, 6, 9, 11] then 30
  else 31

/-- A date at the start of a text, and what follows it. -/
def Date.scan (cs : List Char) : Option (Date × List Char) := do
  let (year, rest) ← scanNumber 4 cs
  let (month, rest) ← scanNumber 2 (← skipChar '-' rest)
  let (day, rest) ← scanNumber 2 (← skipChar '-' rest)
  if 1 ≤ month ∧ month ≤ 12 ∧ 1 ≤ day ∧ day ≤ daysOf year month then some (⟨year, month, day⟩, rest) else none

/-- The digits of a second after a point, if there is one; then there must be a digit. -/
def scanFraction : List Char → Option (List Char × List Char)
  | '.' :: rest =>
    let ds := rest.takeWhile Char.isDigit
    if ds.isEmpty then none
    else some (((ds.take 9).reverse.dropWhile (· = '0')).reverse, rest.dropWhile Char.isDigit)
  | rest => some ([], rest)

/-- Seconds and their fraction behind a colon; without one the minute has just begun. -/
def scanSeconds (cs : List Char) : Option (Nat × List Char × List Char) :=
  match skipChar ':' cs with
  | none => some (0, [], cs)
  | some rest => do
    let (second, rest) ← scanNumber 2 rest
    let (fraction, rest) ← scanFraction rest
    return (second, fraction, rest)

/-- A time of day at the start of a text, and what follows it. A minute may have a leap second. -/
def DayTime.scan (cs : List Char) : Option (DayTime × List Char) := do
  let (hour, rest) ← scanNumber 2 cs
  let (minute, rest) ← scanNumber 2 (← skipChar ':' rest)
  let (second, fraction, rest) ← scanSeconds rest
  if hour < 24 ∧ minute < 60 ∧ second ≤ 60 then some (⟨hour, minute, second, fraction⟩, rest) else none

/-- The distance that the rest of a text stands for, if there is a rest. -/
def TimeZone.read? : List Char → Option (Option TimeZone)
  | [] => some none
  | [c] => if c = 'Z' ∨ c = 'z' then some (some .universal) else none
  | sign :: rest => do
    let (hours, rest) ← scanNumber 2 rest
    let (minutes, rest) ← scanNumber 2 (← skipChar ':' rest)
    let n : Int := 60 * hours + minutes
    if !rest.isEmpty || 24 ≤ hours || 60 ≤ minutes then none
    else if sign = '+' then some (some (.ahead n))
    else if sign = '-' then some (some (.ahead (-n)))
    else none

/-- The moment that a text stands for. -/
def Moment.read? (cs : List Char) : Option Moment :=
  match Date.scan cs with
  | some (d, []) => some (.date d)
  | some (d, c :: rest) =>
    if c = 'T' ∨ c = 't' ∨ c = ' ' then do
      let (t, rest) ← DayTime.scan rest
      let zone? ← TimeZone.read? rest
      return .both d t zone?
    else none
  | none =>
    match DayTime.scan cs with
    | some (t, []) => some (.time t)
    | _ => none

/-! ## Writing -/

/-- A number with zeros in front up to a width. -/
def padded (width n : Nat) : List Char :=
  let ds := Decimal.digits n
  List.replicate (width - ds.length) '0' ++ ds

/-- The text of a date. -/
def Date.render (d : Date) : List Char := padded 4 d.year ++ '-' :: padded 2 d.month ++ '-' :: padded 2 d.day

/-- The text of a time of day. -/
def DayTime.render (t : DayTime) : List Char :=
  padded 2 t.hour ++ ':' :: padded 2 t.minute ++ ':' :: padded 2 t.second ++
    if t.fraction.isEmpty then [] else '.' :: t.fraction

/-- The text of a distance from universal time. -/
def TimeZone.render : TimeZone → List Char
  | universal => ['Z']
  | ahead n => (if n < 0 then '-' else '+') :: padded 2 (n.natAbs / 60) ++ ':' :: padded 2 (n.natAbs % 60)

/-- The text of a moment. -/
def Moment.render : Moment → List Char
  | date d => d.render
  | time t => t.render
  | both d t zone? => d.render ++ 'T' :: t.render ++ (zone?.map TimeZone.render).getD []

end Eligibility.Toml
