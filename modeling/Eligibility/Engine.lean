/-
The engine that answers requests: it reads and combines rules as it was set up to, and evaluates a
rule that is given or one of its catalog.
-/
import Eligibility.Catalog
import Eligibility.Target

namespace Eligibility

/-- A catalog, and how rules are combined and evaluated. -/
structure Engine where
  catalog : Catalog
  combiner : Combiner
  traced : Bool

namespace Engine

/-- The rule that a text stands for, within the limit of the engine. -/
def createRule (e : Engine) (text : String) : Except Fault Rule := Rule.parse e.combiner.depthLimit text

/-- The combination of the rules that texts stand for. -/
def combineRules (e : Engine) (texts : List String) : Except Fault Rule := e.combiner.combine texts

/-- The rule of a target. -/
def rule (e : Engine) : Target → Except Fault Rule
  | .tree r => .ok r
  | .reference id => e.catalog.rule id

/-- The verdict on attributes. -/
def evaluate (e : Engine) (target : Target) (a : Attributes) : Except Fault Bool := do
  (← e.rule target).verdict a

/-- The verdict on attributes and how it came about. -/
def explain (e : Engine) (target : Target) (a : Attributes) : Except Fault Explanation := do
  (← e.rule target).explain e.traced a

end Engine
end Eligibility
