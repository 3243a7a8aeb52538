/-
Decimal numbers as they are written: a sign, a coefficient and a power of ten. The positional text
of a decimal, and the digits that read back to a coefficient.
-/
namespace Eligibility

/-- The number `± coefficient · 10 ^ exponent`. -/
structure Decimal where
  negative : Bool
  coefficient : Nat
  exponent : Int
deriving DecidableEq

namespace Decimal

/-- The decimal digits of a natural number, most significant first. -/
def digits (n : Nat) : List Char := Nat.toDigits 10 n

/-- The natural number that decimal digits stand for; no digits stand for zero. -/
def ofDigits (cs : List Char) : Nat := Nat.ofDigitChars 10 cs 0

theorem ofDigits_digits (n : Nat) : ofDigits (digits n) = n :=
  Nat.ofDigitChars_toDigits (by decide) (by decide)

/-- A text without the sign in front, and whether that was a minus. -/
def splitSign : List Char → Bool × List Char
  | '+' :: cs => (false, cs)
  | '-' :: cs => (true, cs)
  | cs => (false, cs)

theorem splitSign_length_le (cs : List Char) : (splitSign cs).2.length ≤ cs.length := by
  unfold splitSign
  split <;> simp

/-- The integer of a sign and digits. -/
def signed (negative : Bool) (digits : List Char) : Int :=
  if negative then -(ofDigits digits : Int) else ofDigits digits

/-- A decimal written as whole digits, a point and fraction digits. -/
def ofParts (negative : Bool) (whole fraction : List Char) : Decimal :=
  ⟨negative, ofDigits (whole ++ fraction), -fraction.length⟩

/-- The same number without zeros at the end of the coefficient. -/
def trimZeros (d : Decimal) : Decimal :=
  if _h : d.coefficient ≠ 0 ∧ d.coefficient % 10 = 0 then
    trimZeros { d with coefficient := d.coefficient / 10, exponent := d.exponent + 1 }
  else d
termination_by d.coefficient
decreasing_by omega

/-- The sign as it is written. -/
def sign (d : Decimal) : List Char := if d.negative then ['-'] else []

/-- The digits before and after the point in positional notation; there is at least one before. -/
def positionalParts (d : Decimal) : List Char × List Char :=
  let ds := digits d.coefficient
  if 0 ≤ d.exponent then (ds ++ List.replicate d.exponent.toNat '0', [])
  else
    let places := (-d.exponent).toNat
    let padded := List.replicate (places + 1 - ds.length) '0' ++ ds
    (padded.take (padded.length - places), padded.drop (padded.length - places))

/-- Positional notation, never with an exponent; a whole number has no point. -/
def positional (d : Decimal) : List Char :=
  match d.positionalParts with
  | (whole, []) => d.sign ++ whole
  | (whole, fraction) => d.sign ++ whole ++ '.' :: fraction

end Decimal
end Eligibility
