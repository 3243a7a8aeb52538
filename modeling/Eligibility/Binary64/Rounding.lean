/-
Rounding to double precision: the number nearest to an exact ratio, a tie going to the even
significand. Decimals and whole numbers are read through it. The rank of a magnitude grows by one
from each magnitude to the next, so a significand that rounds up to 2 ^ 53 carries by itself.
-/
import Eligibility.Binary64.Basic
import Eligibility.Decimal

namespace Eligibility

/-- The whole number nearest to `n / d`, a tie going to the even one. -/
def roundDiv (n d : Nat) : Nat :=
  let q := n / d
  let r := n % d
  if 2 * r < d then q else if d < 2 * r then q + 1 else q + q % 2

/-- The greatest `e` with `2 ^ e ≤ n / d`, for positive `n` and `d`. -/
def floorLogTwo (n d : Nat) : Int :=
  let e : Int := (n.log2 : Int) - d.log2
  if d <<< e.toNat ≤ n <<< (-e).toNat then e else e - 1

namespace Binary64

/-- The number nearest to `n / d` for a positive `d`, with a sign put before it. -/
def ofRatio (negative : Bool) (n d : Nat) : Binary64 :=
  if n = 0 then zero negative
  else
    let e := max (floorLogTwo n d - 52) (-1074)
    let q := roundDiv (n <<< (-e).toNat) (d <<< e.toNat)
    ofRank negative ((e + 1074).toNat <<< 52 + q)

/-- The number nearest to a decimal. A power of ten far outside the range decides alone, so it is
never computed: a coefficient is at least 1, and below `2 ^ (log2 + 1)`. -/
def ofDecimal (d : Decimal) : Binary64 :=
  if d.coefficient = 0 then zero d.negative
  else if 400 < d.exponent then .infinite d.negative
  else if (d.coefficient.log2 : Int) + 1 + 3 * d.exponent < -1076 then zero d.negative
  else ofRatio d.negative (d.coefficient * Nat.pow 10 d.exponent.toNat) (Nat.pow 10 (-d.exponent).toNat)

/-- The number nearest to a whole number. -/
def ofInt (n : Int) : Binary64 := ofRatio (n < 0) n.natAbs 1

/-- The number nearest to a natural number. -/
def ofNat (n : Nat) : Binary64 := ofRatio false n 1

instance (n : Nat) : OfNat Binary64 n := ⟨ofNat n⟩

end Binary64
end Eligibility
