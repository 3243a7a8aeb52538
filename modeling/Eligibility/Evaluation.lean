/-
Evaluation of rules on attributes, from left to right; the right side of a join is passed over where
the left one settles it. The traced evaluation notes the same steps as events.
-/
import Eligibility.Attributes.Basic
import Eligibility.Rule.Path

namespace Eligibility

/-! ## Comparisons -/

/-- Whether a value is the one of a literal; values of different types never are. -/
def Literal.equals : Literal → Value → Bool
  | number y, .number x => x == y
  | text t, .text s => s == t
  | _, _ => false

/-- The order that an ordering comparator asks for. -/
def Comparator.orders : Comparator → Binary64 → Binary64 → Bool
  | greater, x, y => y.less x
  | atLeast, x, y => y.atMost x
  | less, x, y => x.less y
  | atMost, x, y => x.atMost y
  | equal, x, y => x == y
  | notEqual, x, y => !(x == y)

namespace Comparison

/-- The verdict of a comparison on the value of its attribute. Order needs numbers on both sides. -/
def holds (c : Comparison) (value? : Option Value) : Except EvaluationFault Bool :=
  match value? with
  | none => .error (.missingAttribute c.name)
  | some v =>
    match c.comparator with
    | .equal => .ok (c.literal.equals v)
    | .notEqual => .ok (!c.literal.equals v)
    | ordering =>
      match v, c.literal with
      | .number x, .number y => .ok (ordering.orders x y)
      | .number _, .text _ => .error (.typeMismatch c "string literal")
      | v, _ => .error (.typeMismatch c v.typeName)

/-- The verdict of a comparison on attributes. -/
def evaluate (c : Comparison) (a : Attributes) : Except EvaluationFault Bool := c.holds (a.get? c.name)

end Comparison

/-! ## Rules -/

/-- A step of an evaluation. -/
inductive Event where
  /-- A comparison was evaluated. -/
  | tested (path : Path) (c : Comparison) (matched : Bool)
  /-- The left side of a join settled it. -/
  | settled (path : Path) (k : Connective) (left : Bool)

namespace Event

/-- The line of an event in a trace. -/
def render : Event → String
  | tested path c matched =>
    let verdict := if matched then "MATCHED" else "NOT_MATCHED"
    s!"{path.render}: {c.render} => {verdict}"
  | settled path k left => s!"{path.render}: {k.keyword} 短路 - 左子树为 {left}"

/-- The line of a comparison that matched. -/
def matched? : Event → Option String
  | tested path c true => some s!"{path.render}: {c.render}"
  | _ => none

end Event

namespace Rule

/-- The verdict of a rule on attributes. -/
def evaluate (a : Attributes) : Rule → Except EvaluationFault Bool
  | test c => c.evaluate a
  | join k l r => do
    let left ← l.evaluate a
    if k.settledBy left then return left
    r.evaluate a

/-- The verdict of the part of a rule at a path, with the events on the way. -/
def trace (a : Attributes) (path : Path) : Rule → Except EvaluationFault (Bool × List Event)
  | test c => do
    let matched ← c.evaluate a
    return (matched, [.tested path c matched])
  | join k l r => do
    let (left, events) ← l.trace a (path ++ [.left])
    if k.settledBy left then return (left, events ++ [.settled path k left])
    let (right, more) ← r.trace a (path ++ [.right])
    return (right, events ++ more)

end Rule

/-- What an evaluation found. -/
structure Explanation where
  matched : Bool
  matchedConditions : List String
  evaluationTrace : List String

namespace Rule

/-- Evaluates a rule and tells how, unless the trace is off. -/
def explain (traced : Bool) (r : Rule) (a : Attributes) : Except Fault Explanation :=
  if traced then
    match r.trace a [] with
    | .ok (matched, events) => .ok ⟨matched, events.filterMap Event.matched?, events.map Event.render⟩
    | .error fault => .error (.evaluation fault)
  else
    match r.evaluate a with
    | .ok matched => .ok ⟨matched, [], []⟩
    | .error fault => .error (.evaluation fault)

/-- The verdict of a rule on attributes, as an answer to a request. -/
def verdict (r : Rule) (a : Attributes) : Except Fault Bool := (r.evaluate a).mapError .evaluation

end Rule
end Eligibility
