/-
Doubles from text as people write them: digits around a point, either side of which may be empty, a
power of ten, and the words for infinity and not-a-number in any letter case.
-/
import Eligibility.Binary64.Rounding

namespace Eligibility.Binary64

/-- The power of ten at the end of a number's text. -/
def powerOfTen? : List Char → Option Int
  | [] => some 0
  | c :: cs =>
    let (negative, digits) := Decimal.splitSign cs
    if c.toLower ≠ 'e' || digits.isEmpty || !digits.all Char.isDigit then none
    else some (Decimal.signed negative digits)

/-- The double nearest to the number of a text without its sign. -/
def ofUnsigned? (negative : Bool) (cs : List Char) : Option Binary64 := do
  let whole := cs.takeWhile Char.isDigit
  let rest := cs.dropWhile Char.isDigit
  let (fraction, rest) := match rest with
    | '.' :: rest => (rest.takeWhile Char.isDigit, rest.dropWhile Char.isDigit)
    | rest => ([], rest)
  if whole.isEmpty && fraction.isEmpty then none
  else
    let power ← powerOfTen? rest
    let d := Decimal.ofParts negative whole fraction
    return ofDecimal { d with exponent := d.exponent + power }

/-- The double that a text stands for. -/
def ofText? (cs : List Char) : Option Binary64 :=
  let (negative, unsigned) := Decimal.splitSign cs
  let word := String.ofList (unsigned.map Char.toLower)
  if word = "nan" then some .nan
  else if word = "inf" ∨ word = "infinity" then some (.infinite negative)
  else ofUnsigned? negative unsigned

end Eligibility.Binary64
