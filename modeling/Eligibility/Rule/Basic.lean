/-
Rules: comparisons joined by connectives. Depth, size and the attributes that a rule names; equality
takes numbers by value, so the two zeros are equal and not-a-number makes a rule differ from itself.
-/
import Eligibility.Fault

namespace Eligibility

/-- A rule. -/
inductive Rule where
  | test (c : Comparison)
  | join (k : Connective) (left right : Rule)
deriving BEq

/-- The greatest depth of a rule where a caller names no limit. -/
def defaultDepthLimit : Nat := 256

/-- Puts a name into an ordered list of names, once. -/
def insertName (n : String) : List String → List String
  | [] => [n]
  | m :: ms => if n < m then n :: m :: ms else if n = m then m :: ms else m :: insertName n ms

namespace Rule

/-- Whether the rule is a single comparison. -/
def isTest : Rule → Bool
  | test _ => true
  | join .. => false

/-- The comparisons of a rule from left to right. -/
def leaves : Rule → List Comparison
  | test c => [c]
  | join _ l r => l.leaves ++ r.leaves

/-- The number of levels; a single comparison has one. -/
def depth : Rule → Nat
  | test _ => 1
  | join _ l r => max l.depth r.depth + 1

/-- The number of comparisons and joins. -/
def size : Rule → Nat
  | test _ => 1
  | join _ l r => l.size + r.size + 1

/-- Adds the attributes that a rule names to an ordered list of names. -/
def addNames : Rule → List String → List String
  | test c, names => insertName c.name names
  | join _ l r, names => r.addNames (l.addNames names)

/-- The attributes that a rule names, in order, each once. -/
def names (r : Rule) : List String := r.addNames []

/-- The depth of a rule, if it is within a limit. -/
def checkDepth (r : Rule) (limit : Nat) : Except Fault Nat :=
  if limit < r.depth then .error (.badValue (.depthOverLimit r.depth limit)) else .ok r.depth

/-- The text of a rule as a part of another: a join has parentheses. -/
def renderPart : Rule → List Char
  | test c => c.renderChars
  | join k l r => '(' :: (l.renderPart ++ ' ' :: k.keyword.toList ++ ' ' :: r.renderPart) ++ [')']

/-- The text of a rule, in which every join inside another has parentheses of its own. -/
def renderChars : Rule → List Char
  | test c => c.renderChars
  | join k l r => l.renderPart ++ ' ' :: k.keyword.toList ++ ' ' :: r.renderPart

/-- The text of a rule. -/
def render (r : Rule) : String := String.ofList r.renderChars

theorem depth_pos (r : Rule) : 0 < r.depth := by cases r <;> simp [depth]

theorem checkDepth_eq_ok {r : Rule} {limit d : Nat} :
    r.checkDepth limit = .ok d ↔ r.depth = d ∧ d ≤ limit := by
  unfold checkDepth
  split <;> simp <;> omega

end Rule
end Eligibility
