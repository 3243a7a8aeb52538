/-
Attributes as JSON. There are two readers: the general one reads the whole document first and then
looks at the values in the order of the names, so only the last value of a repeated name counts; the
strict one looks at every member as it comes.
-/
import Eligibility.Attributes.Basic
import Eligibility.Fault
import Eligibility.Json.Reading

namespace Eligibility

/-- A value as a document. -/
def Value.toJson : Value → Json
  | bool b => .bool b
  | number x => .ofDouble x
  | text s => .string s

/-- The value that a document is. -/
def Value.ofJson? : Json → Option Value
  | .bool b => some (.bool b)
  | .number n => n.value?.map .number
  | .text t => t.map .text
  | _ => none

namespace Json

/-- The greatest nesting of containers where it is limited. -/
def nestingLimit : Nat := 127

/-- The document of a text, if all of it is sound and its nesting within the limit. -/
def soundDocument? (text : String) : Option Json :=
  (document? text).filter fun j => j.isSound && j.nesting ≤ nestingLimit

mutual

/-- A document in which the members of every object stand in the order of their keys, the last of
each key. -/
def sorted : Json → Json
  | .list es => .list (sortedElements es)
  | .object ms => .object ((Record.ofList (sortedMembers ms)).map fun (k, v) => (some k, v))
  | j => j

/-- Elements with the members of every object sorted. -/
def sortedElements : List Json → List Json
  | [] => []
  | e :: es => e.sorted :: sortedElements es

/-- Members with the members of every object in them sorted. -/
def sortedMembers : List (Text × Json) → List (String × Json)
  | [] => []
  | (k, v) :: ms => (k.getD "", v.sorted) :: sortedMembers ms

end

end Json

namespace Attributes

/-- Attributes as a document. -/
def toJson (a : Attributes) : Json := .object (a.entries.map fun (n, v) => (some n, v.toJson))

/-- Reads the values of a sorted record in their order. -/
def ofRecord (members : Record Json) : Except Fault Attributes := do
  let entries ← members.mapM fun (n, j) =>
    match Value.ofJson? j with
    | some v => .ok (n, v)
    | none => .error (.badValue (.unsupportedAttribute n j))
  return ⟨entries⟩

/-- The attributes that a JSON text holds. -/
def ofJson (text : String) : Except Fault Attributes :=
  match (Json.soundDocument? text).map Json.sorted with
  | none => .error .badDocument
  | some (.object ms) => ofRecord (ms.map fun (k, v) => (k.getD "", v))
  | some j => .error (.badValue (.attributesNotObject j))

/-- The attributes that a JSON text holds, if every member is one. -/
def ofStrictJson? (text : String) : Option Attributes :=
  match Json.soundDocument? text with
  | some (.object ms) => do
    let entries ← ms.mapM fun (k, j) => do return (← k, ← Value.ofJson? j)
    return .ofList entries
  | _ => none

end Attributes
end Eligibility
