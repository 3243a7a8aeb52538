/-
The two sides of a joined rule, and paths from the root of a rule to a part of it.
-/
namespace Eligibility

/-- A side of a joined rule. -/
inductive Branch where
  | left
  | right
deriving DecidableEq

/-- The sides to take from the root of a rule to a part of it. -/
abbrev Path := List Branch

namespace Branch

/-- The word for a side. -/
def word : Branch → String
  | left => "left"
  | right => "right"

/-- The side that a word names. -/
def ofWord? (w : String) : Option Branch :=
  if w = "left" then some left else if w = "right" then some right else none

end Branch
end Eligibility
