/-
JSON documents. A number is kept as a 64-bit integer where it was written as one, and a value that
nobody looks at may hold a number or a text that could not be used; `isSound` says that none does.
-/
import Eligibility.Binary64.Rounding

namespace Eligibility

/-- A number of a document. -/
inductive Json.Number where
  /-- A number written without fraction or exponent that fits 64 bits, signed or unsigned. -/
  | integer (n : Int)
  /-- Any other number, as the nearest double. -/
  | real (x : Binary64)
  /-- A number beyond the range of doubles. -/
  | beyond

/-- The content of a quoted text, or `none` where an escape is half of a surrogate pair. -/
abbrev Json.Text := Option String

/-- A JSON document. Members of an object stand as written, repeated keys included. -/
inductive Json where
  | null
  | bool (b : Bool)
  | number (n : Json.Number)
  | text (t : Json.Text)
  | list (elements : List Json)
  | object (members : List (Json.Text × Json))

namespace Json

/-- The double nearest to a number, if it is in range. -/
def Number.value? : Number → Option Binary64
  | integer n => some (.ofInt n)
  | real x => some x
  | beyond => none

/-- The number that a decimal of a document is; `whole` says that it had neither fraction nor
exponent. A minus before zero is kept, so `-0` is no integer. -/
def Number.ofDecimal (d : Decimal) (whole : Bool) : Number :=
  if whole && !d.negative && d.coefficient < UInt64.size then .integer d.coefficient
  else if whole && d.negative && d.coefficient ≠ 0 && Int64.minValue.toInt ≤ -d.coefficient then .integer (-d.coefficient)
  else
    match Binary64.ofDecimal d with
    | .infinite _ => .beyond
    | x => .real x

/-- A text that has its content. -/
def string (s : String) : Json := .text (some s)

mutual

/-- How deep containers are nested: 0 for a scalar. -/
def nesting : Json → Nat
  | .list es => elementsNesting es + 1
  | .object ms => membersNesting ms + 1
  | _ => 0

/-- The deepest nesting among elements. -/
def elementsNesting : List Json → Nat
  | [] => 0
  | e :: es => max e.nesting (elementsNesting es)

/-- The deepest nesting among members. -/
def membersNesting : List (Text × Json) → Nat
  | [] => 0
  | (_, v) :: ms => max v.nesting (membersNesting ms)

end

mutual

/-- Whether every number is in range and every text, key or value, has its content. -/
def isSound : Json → Bool
  | .number n => n.value?.isSome
  | .text t => t.isSome
  | .list es => elementsSound es
  | .object ms => membersSound ms
  | _ => true

/-- Whether all elements are sound. -/
def elementsSound : List Json → Bool
  | [] => true
  | e :: es => e.isSound && elementsSound es

/-- Whether all members are sound. -/
def membersSound : List (Text × Json) → Bool
  | [] => true
  | (k, v) :: ms => k.isSome && v.isSound && membersSound ms

end

end Json
end Eligibility
