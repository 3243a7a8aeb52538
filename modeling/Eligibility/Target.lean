/-
What a request asks to evaluate: a rule that it brings, or one of the catalog by its id.
-/
import Eligibility.Rule.Json
import Eligibility.Attributes.Json

namespace Eligibility

/-- What is to be evaluated. -/
inductive Target where
  | tree (r : Rule)
  | reference (id : String)

namespace Target

/-- A target as a document. -/
def toJson : Target → Json
  | tree r => .object [(some "tree", r.toJson)]
  | reference id => .object [(some "reference", .string id)]

/-- The room for containers inside the object of a target. -/
def room : Node.Room := some (Json.nestingLimit - 1)

/-- The target of one member. -/
def ofMember (key : Json.Text) (j : Json) : Except Fault Target :=
  match key, j with
  | some "tree", j => (Node.read room j).map tree
  | some "reference", .text (some id) => .ok (reference id)
  | _, _ => .error .badDocument

/-- The target that a document is: an object with one member. More members are refused after the
first has been read. -/
def ofDocument : Json → Except Fault Target
  | .object ((key, j) :: more) => do
    let target ← ofMember key j
    if more.isEmpty then return target else throw .badDocument
  | _ => .error .badDocument

/-- Why a text that goes wrong inside these containers, outermost first, is no target. -/
def faultOf : List Json.Partial → Fault
  | .object members key? :: inner =>
    match members.reverse, key? with
    | (key, j) :: _, _ =>
      match ofMember key j with
      | .error fault => fault
      | .ok _ => .badDocument
    | [], some (some "tree") => Node.faultOf room inner
    | [], _ => .badDocument
  | _ => .badDocument

/-- The target that a JSON text holds. Its nesting is limited, the depth of its rule is not. -/
def ofJson (text : String) : Except Fault Target :=
  match Json.read text with
  | .broken containers => .error (faultOf containers)
  | .complete document trailing => do
    let target ← ofDocument document
    if trailing then throw .badDocument
    return target

end Target
end Eligibility
