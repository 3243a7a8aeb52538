/-
Values of TOML that are written without quotes: truth values, integers, reals, dates and times.
Digits may have single underscores between them.
-/
import Eligibility.Settings.Value
import Eligibility.Settings.Toml.Moment
import Eligibility.Text.HexDigit

namespace Eligibility.Toml

/-- Digits without the underscores between them; there is at least one digit. -/
def plainDigits? (isDigit : Char → Bool) : List Char → Option (List Char)
  | [] => none
  | [c] => if isDigit c then some [c] else none
  | c :: '_' :: rest => if isDigit c then (plainDigits? isDigit rest).map (c :: ·) else none
  | c :: rest => if isDigit c then (plainDigits? isDigit rest).map (c :: ·) else none

/-- Decimal digits as `plainDigits?` has them, with no zero in front. -/
def wholeDigits? (cs : List Char) : Option (List Char) :=
  (plainDigits? Char.isDigit cs).filter fun ds => ds.head? ≠ some '0' || ds = ['0']

/-- The number that digits of a base stand for. -/
def ofBase? (base : Nat) (cs : List Char) : Option Int := do
  let isDigit (c : Char) := (Text.hexValue? c).any (· < base)
  let ds ← plainDigits? isDigit cs
  return ds.foldl (fun n c => base * n + (Text.hexValue? c).getD 0) 0

/-- The integer that a word stands for. -/
def integer? (cs : List Char) : Option Int :=
  Option.filter Setting.fits64 <|
    match cs with
    | '0' :: 'x' :: ds => ofBase? 16 ds
    | '0' :: 'o' :: ds => ofBase? 8 ds
    | '0' :: 'b' :: ds => ofBase? 2 ds
    | cs =>
      let (negative, ds) := Decimal.splitSign cs
      (wholeDigits? ds).map (Decimal.signed negative)

/-- The digits of a fraction behind the point, none where there is no point. -/
def fractionDigits? : List Char → Option (List Char)
  | [] => some []
  | _ :: ds => plainDigits? Char.isDigit ds

/-- The power of ten behind its letter, zero where there is no letter. -/
def powerOfTen? : List Char → Option Int
  | [] => some 0
  | _ :: cs =>
    let (negative, ds) := Decimal.splitSign cs
    (plainDigits? Char.isDigit ds).map (Decimal.signed negative)

/-- The double nearest to the number of a text without its sign. It has a fraction or a power of
ten, and it is not too large. -/
def finite? (negative : Bool) (cs : List Char) : Option Binary64 := do
  let isMantissa (c : Char) := c ≠ 'e' && c ≠ 'E'
  let mantissa := cs.takeWhile isMantissa
  if mantissa.all (· ≠ '.') && cs.all isMantissa then none
  else
    let whole ← wholeDigits? (mantissa.takeWhile (· ≠ '.'))
    let fraction ← fractionDigits? (mantissa.dropWhile (· ≠ '.'))
    let power ← powerOfTen? (cs.dropWhile isMantissa)
    let d := Decimal.ofParts negative whole fraction
    let x := Binary64.ofDecimal { d with exponent := d.exponent + power }
    if x.isFinite then some x else none

/-- The double that a text stands for. -/
def real? (cs : List Char) : Option Binary64 :=
  match Decimal.splitSign cs with
  | (negative, ['i', 'n', 'f']) => some (.infinite negative)
  | (_, ['n', 'a', 'n']) => some .nan
  | (negative, cs) => finite? negative cs

/-- The value that a text without quotes stands for; a date or a time is kept as a text. -/
def scalar? (cs : List Char) : Option Setting :=
  if cs = ['t', 'r', 'u', 'e'] then some (.bool true)
  else if cs = ['f', 'a', 'l', 's', 'e'] then some (.bool false)
  else
    match integer? cs, real? cs, Moment.read? cs with
    | some n, _, _ => some (.integer n)
    | none, some x, _ => some (.real x)
    | none, none, some m => some (.text (String.ofList m.render))
    | none, none, none => none

end Eligibility.Toml
