/-
The shortest decimal of a number: the fewest digits that read back to it, and of those the nearest.
Reading back is part of the search itself, and the exact decimal stands behind it, so what is
printed always reads back.
-/
import Eligibility.Binary64.Rounding

namespace Eligibility

/-- The greatest `e` with `10 ^ e ≤ n / d`, for positive `n` and `d`. -/
def floorLogTen (n d : Nat) : Int :=
  if d ≤ n then (Decimal.digits (n / d)).length - 1
  else Int.negOfNat (Decimal.digits ((d + n - 1) / n - 1)).length

/-- Which of two equally near decimals is taken. -/
inductive Tie where
  | up
  | toEven
deriving DecidableEq

namespace Magnitude

/-- Whether a decimal is read as the magnitude. -/
def readsBack (m : Magnitude) (d : Decimal) : Bool :=
  match Binary64.ofDecimal { d with negative := false } with
  | .finite _ m' => m' = m
  | _ => false

/-- All digits of the value. -/
def exactDecimal (m : Magnitude) : Decimal :=
  ⟨false, m.significand <<< m.exponent.toNat * Nat.pow 5 (-m.exponent).toNat, min m.exponent 0⟩

/-- The decimal on the grid of `10 ^ exponent` that reads back, if one does. Of the value's two
neighbours on the grid the nearer one is taken, and `tie` decides between equally near ones. -/
def onGrid? (tie : Tie) (m : Magnitude) (exponent : Int) : Option Decimal :=
  let (n, d) := m.ratio
  let n := n * Nat.pow 10 (-exponent).toNat
  let d := d * Nat.pow 10 exponent.toNat
  let below : Decimal := ⟨false, n / d, exponent⟩
  let above : Decimal := ⟨false, n / d + 1, exponent⟩
  let r := n % d
  let takeAbove := d < 2 * r || 2 * r = d && (tie = .up || n / d % 2 = 1)
  match m.readsBack below, m.readsBack above with
  | true, true => some (if takeAbove then above else below)
  | true, false => some below
  | false, true => some above
  | false, false => none

/-- The first grid with a decimal that reads back, from coarse to fine. -/
def search (tie : Tie) (m : Magnitude) (exponent : Int) : Nat → Decimal
  | 0 => m.exactDecimal
  | steps + 1 => (onGrid? tie m exponent).getD (search tie m (exponent - 1) steps)

/-- The shortest decimal that reads back. Seventeen digits suffice for every magnitude. -/
def shortest (tie : Tie) (m : Magnitude) : Decimal :=
  if m.significand = 0 then ⟨false, 0, 0⟩
  else (search tie m (floorLogTen m.ratio.1 m.ratio.2) 17).trimZeros

end Magnitude
end Eligibility
