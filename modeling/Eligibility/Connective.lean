/-
The two connectives, and the text that names a combination policy.
-/
import Eligibility.Text.Blank

namespace Eligibility

/-- How two rules are joined. -/
inductive Connective where
  | and
  | or
deriving DecidableEq

namespace Connective

/-- The keyword of a connective. -/
def keyword : Connective → String
  | and => "AND"
  | or => "OR"

/-- Whether a verdict of the left side settles the whole: false under AND, true under OR. -/
def settledBy : Connective → Bool → Bool
  | and, left => !left
  | or, left => left

/-- A policy text in the form in which it is looked up: no white space around it, ASCII letters in
upper case. -/
def policyKey (text : String) : String :=
  String.ofList ((Text.trim text.toList).map Char.toUpper)

/-- The connective that a policy text names, in any letter case. -/
def ofPolicy? (text : String) : Option Connective :=
  match policyKey text with
  | "AND" => some and
  | "OR" => some or
  | _ => none

end Connective
end Eligibility
