/-
Double-precision numbers as exact values: a sign with a magnitude `significand · 2 ^ exponent`, the
two infinities, and not-a-number. Every finite value has one form, magnitudes stand in one row from
zero upwards, and comparison reads that row.
-/
namespace Eligibility

/-- A finite magnitude `significand · 2 ^ exponent`. The significand fills 53 bits unless the
exponent is the least one, so each value has exactly one form. -/
structure Magnitude where
  significand : Nat
  exponent : Int
  significand_lt : significand < 1 <<< 53
  least_le : -1074 ≤ exponent
  le_greatest : exponent ≤ 971
  full : exponent = -1074 ∨ 1 <<< 52 ≤ significand
deriving DecidableEq

namespace Magnitude

/-- The number of magnitudes; an infinity stands right after the last. -/
def count : Nat := 2047 <<< 52

/-- The place of a magnitude among all of them, counted from zero. -/
def rank (m : Magnitude) : Nat := (m.exponent + 1074).toNat <<< 52 + m.significand

/-- The magnitude at a place of the row. -/
def ofRank? (r : Nat) : Option Magnitude :=
  if low : r < 1 <<< 53 then some ⟨r, -1074, low, by omega, by omega, .inl rfl⟩
  else if high : r < count then
    some ⟨1 <<< 52 + r % 1 <<< 52, (r >>> 52 : Nat) - 1075,
      by have := Nat.mod_lt r (show 0 < 1 <<< 52 by decide); omega, by omega,
      by unfold count at high; omega, .inr (by omega)⟩
  else none

/-- A magnitude is found again at its place in the row. -/
theorem ofRank?_rank (m : Magnitude) : ofRank? m.rank = some m := by
  obtain ⟨s, e, hs, hl, hg, hf⟩ := m
  unfold ofRank? rank count
  simp only [Nat.shiftLeft_eq, Nat.one_mul, Nat.shiftRight_eq_div_pow] at *
  by_cases h : (e + 1074).toNat * 2 ^ 52 + s < 2 ^ 53
  · rw [dif_pos h]
    by_cases he : e = -1074
    · subst he; simp
    · exfalso; omega
  · rw [dif_neg h, dif_pos (by omega)]
    congr 1
    simp only [mk.injEq]
    omega

/-- The numerator and the denominator of the value. -/
def ratio (m : Magnitude) : Nat × Nat :=
  (m.significand <<< m.exponent.toNat, 1 <<< (-m.exponent).toNat)

/-- The magnitude zero. -/
def zero : Magnitude := ⟨0, -1074, by omega, by omega, by omega, .inl rfl⟩

end Magnitude

/-- A double-precision number. -/
inductive Binary64 where
  | nan
  | infinite (negative : Bool)
  | finite (negative : Bool) (magnitude : Magnitude)

namespace Binary64

/-- Whether the number is neither an infinity nor not-a-number. -/
def isFinite : Binary64 → Bool
  | .finite .. => true
  | _ => false

/-- The zero of a sign. -/
def zero (negative : Bool) : Binary64 := .finite negative .zero

/-- The magnitude at a place of the row, or the infinity after it. -/
def ofRank (negative : Bool) (rank : Nat) : Binary64 :=
  match Magnitude.ofRank? rank with
  | some m => .finite negative m
  | none => .infinite negative

/-- Reads the 64 bits of the interchange format: the sign, then the place among the magnitudes,
where places after that of the infinity are not-a-number. -/
def ofBits (bits : UInt64) : Binary64 :=
  let negative := bits.toNat >>> 63 == 1
  let rank := bits.toNat % 1 <<< 63
  if rank ≤ Magnitude.count then ofRank negative rank else .nan

/-- The place of a number on the line, both zeros at 0; not-a-number has none. -/
def place? : Binary64 → Option Int
  | .nan => none
  | .infinite false => some Magnitude.count
  | .infinite true => some (-Magnitude.count)
  | .finite false m => some m.rank
  | .finite true m => some (-m.rank)

/-- Whether `r` holds between the places of two numbers; it never does with not-a-number. -/
def related (r : Int → Int → Bool) (a b : Binary64) : Bool :=
  match a.place?, b.place? with
  | some x, some y => r x y
  | _, _ => false

/-- Numeric order. -/
def less (a b : Binary64) : Bool := related (· < ·) a b

/-- Numeric order, equality included. -/
def atMost (a b : Binary64) : Bool := related (· ≤ ·) a b

/-- Equality of values: the two zeros are equal, and not-a-number differs from itself. -/
instance : BEq Binary64 := ⟨related (· == ·)⟩

end Binary64
end Eligibility
