/-
Values of settings before they are given to their fields, a value over one of an earlier layer, and
how a value of one type is taken for another. Tables are merged key by key, all else is replaced.
-/
import Eligibility.Attributes.Basic
import Eligibility.Comparison

namespace Eligibility

/-- A value of a settings source. `nothing` stands where a list has been lengthened. -/
inductive Setting where
  | nothing
  | bool (b : Bool)
  | integer (n : Int)
  | real (x : Binary64)
  | text (s : String)
  | list (items : List Setting)
  | table (entries : List (String × Setting))

namespace Setting

/-- The entries of a table; any other value has none. -/
def entries : Setting → Record Setting
  | table es => es
  | _ => []

/-- The items of a list; any other value has none. -/
def items : Setting → List Setting
  | list xs => xs
  | _ => []

mutual

/-- A value over one of an earlier layer. -/
def overlay (old : Setting) : Setting → Setting
  | table es => table (overlayEntries old.entries es)
  | v => v

/-- The entries of a table over those of an earlier layer. -/
def overlayEntries (old : Record Setting) : List (String × Setting) → Record Setting
  | [] => old
  | (k, v) :: es => overlayEntries (old.set k (overlay ((old.get? k).getD nothing) v)) es

end

/-- The words for a truth value. -/
def truthWord? (s : String) : Option Bool :=
  let word := String.ofList (s.toList.map Char.toLower)
  if word ∈ ["true", "on", "yes"] then some true
  else if word ∈ ["false", "off", "no"] then some false
  else none

/-- The integer that digits stand for, after a sign if there is one. -/
def integer? (cs : List Char) : Option Int :=
  let (negative, digits) := Decimal.splitSign cs
  if digits.isEmpty || !digits.all Char.isDigit then none else some (Decimal.signed negative digits)

/-- The natural number that digits stand for, after a plus if there is one. -/
def natural? (cs : List Char) : Option Nat :=
  if (Decimal.splitSign cs).1 then none else (integer? cs).map Int.toNat

/-- Whether an integer fits 64 bits with a sign. -/
def fits64 (n : Int) : Bool := Int64.minValue.toInt ≤ n && n ≤ Int64.maxValue.toInt

/-- A value taken for a truth value. -/
def toBool? : Setting → Option Bool
  | bool b => some b
  | integer n => some (n != 0)
  | real x => some !(x == .zero false)
  | text s => if s = "1" then some true else if s = "0" then some false else truthWord? s
  | nothing | list _ | table _ => none

/-- The natural number nearest to a double, a half going up, kept within 64 bits. -/
def roundToNatural : Binary64 → Nat
  | .finite false m => min ((2 * m.ratio.1 + m.ratio.2) / (2 * m.ratio.2)) (UInt64.size - 1)
  | .infinite false => UInt64.size - 1
  | _ => 0

/-- A value taken for a natural number. -/
def toNatural? : Setting → Option Nat
  | bool b => some b.toNat
  | integer n => if 0 ≤ n then some n.toNat else none
  | real x => some (roundToNatural x)
  | text s =>
    match truthWord? s with
    | some b => some b.toNat
    | none => (natural? s.toList).filter (· < UInt64.size)
  | nothing | list _ | table _ => none

/-- A value taken for a text. -/
def toText? : Setting → Option String
  | bool b => some (toString b)
  | integer n => some (toString n)
  | real x => some (String.ofList x.render)
  | text s => some s
  | nothing | list _ | table _ => none

end Setting
end Eligibility
