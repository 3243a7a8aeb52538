/-
Combining rules: the rules of a list joined by one connective, to the left, within a depth limit.
With `dedup` a rule that equals an earlier one is left out.
-/
import Eligibility.Rule.Grammar

namespace Eligibility

/-- How rules are combined. -/
structure Combiner where
  policy : Connective
  dedup : Bool
  depthLimit : Nat

namespace Combiner

/-- Rules are combined with OR, all of them, within the default limit. -/
def default : Combiner := ⟨.or, false, defaultDepthLimit⟩

/-- The rules of a list without those that equal one kept before. -/
def distinct (rules : List Rule) : List Rule :=
  rules.foldl (fun kept r => if kept.contains r then kept else kept ++ [r]) []

/-- Joins rules to one that has been built and has some depth. -/
def joinAll (c : Combiner) (built : Rule) (depth : Nat) : List Rule → Except Fault Rule
  | [] => .ok built
  | r :: rest => do
    let next ← r.checkDepth c.depthLimit
    let depth := max depth next + 1
    if c.depthLimit < depth then .error (.badValue (.combinationOverLimit c.depthLimit))
    else c.joinAll (.join c.policy built r) depth rest

/-- The combination of rules. -/
def combineRules (c : Combiner) (rules : List Rule) : Except Fault Rule :=
  match if c.dedup then distinct rules else rules with
  | [] => .error (.badValue .nothingToCombine)
  | r :: rest => do c.joinAll r (← r.checkDepth c.depthLimit) rest

/-- The combination of the rules that texts stand for. All are read before any is combined. -/
def combine (c : Combiner) (texts : List String) : Except Fault Rule :=
  if texts.isEmpty then .error (.badValue .nothingToCombine)
  else do c.combineRules (← texts.mapM (Rule.parse c.depthLimit))

end Combiner
end Eligibility
