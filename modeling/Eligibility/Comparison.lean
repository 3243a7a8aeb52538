/-
Comparisons, the leaves of a rule: an attribute, a comparator and a literal, with their text.
-/
import Eligibility.Binary64.Shortest
import Eligibility.Comparator
import Eligibility.Text.Quoted

namespace Eligibility

/-- What an attribute is compared with. -/
inductive Literal where
  | number (x : Binary64)
  | text (s : String)
deriving BEq

/-- An attribute, a comparator and a literal. -/
structure Comparison where
  name : String
  comparator : Comparator
  literal : Literal
deriving BEq

/-- The text of a number in rules: the shortest digits that read back, never with an exponent, and
without a point when it is whole. Of two equally near decimals the upper one is taken. -/
def Binary64.render : Binary64 → List Char
  | .nan => ['N', 'a', 'N']
  | .infinite negative => (if negative then ['-'] else []) ++ ['i', 'n', 'f']
  | .finite negative m => { m.shortest .up with negative }.positional

/-- The text of a literal: a number as it is, a text in single quotes. -/
def Literal.render : Literal → List Char
  | .number x => x.render
  | .text s => Text.quote s.toList

namespace Comparison

/-- The text of a comparison, its parts one space apart. -/
def renderChars (c : Comparison) : List Char :=
  c.name.toList ++ ' ' :: c.comparator.symbol.toList ++ ' ' :: c.literal.render

/-- The text of a comparison. -/
def render (c : Comparison) : String := String.ofList c.renderChars

end Comparison
end Eligibility
