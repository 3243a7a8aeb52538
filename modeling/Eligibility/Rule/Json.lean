/-
Rules as JSON. A node is an object with `type`, `value`, `left` and `right`, or a list of these in
order; its value is a predicate or a text. Nodes are judged where they end, children first, in the
order in which they are written, so the first fault of the text decides what is reported, also when
the text goes wrong behind it.
-/
import Eligibility.Json.Reading
import Eligibility.Rule.Grammar

namespace Eligibility

/-! ## Writing -/

/-- A literal as a document. -/
def Literal.toJson : Literal → Json
  | number x => .ofDouble x
  | text s => .string s

/-- A comparison as a document, a predicate. -/
def Comparison.toJson (c : Comparison) : Json :=
  .object [(some "attribute", .string c.name), (some "comparator", .string c.comparator.symbol),
    (some "literal", c.literal.toJson)]

/-- A rule as a document. -/
def Rule.toJson : Rule → Json
  | test c =>
    .object [(some "type", .string "operand"), (some "value", c.toJson), (some "left", .null), (some "right", .null)]
  | join k l r =>
    .object [(some "type", .string "operator"), (some "value", .string k.keyword), (some "left", l.toJson),
      (some "right", r.toJson)]

/-! ## Predicates -/

/-- The only member with a key. A second one of the key is refused. -/
def Json.member? (key : String) (members : List (Json.Text × Json)) : Option Json :=
  match members.filter (·.1 = some key) with
  | [(_, v)] => some v
  | _ => none

/-- The word of an enumeration: a text, or an object whose one member has that key and no value. -/
def Json.word? : Json → Option String
  | .text t => t
  | .object [(k, .null)] => k
  | _ => none

/-- The literal that a document is. -/
def Literal.ofJson? : Json → Option Literal
  | .number n => n.value?.map .number
  | .text t => t.map .text
  | _ => none

/-- The comparison of the three parts of a predicate. -/
def Comparison.ofParts? (name comparator literal : Json) : Option Comparison := do
  let .text (some name) := name | none
  let comparator ← Comparator.ofSymbol? (← comparator.word?)
  return ⟨name, comparator, ← Literal.ofJson? literal⟩

/-- The comparison that a document is, as an object or a list of three. Other members are passed
over. -/
def Comparison.ofJson? : Json → Option Comparison
  | .object ms => do
    Comparison.ofParts? (← Json.member? "attribute" ms) (← Json.member? "comparator" ms) (← Json.member? "literal" ms)
  | .list [name, comparator, literal] => Comparison.ofParts? name comparator literal
  | _ => none

/-! ## Nodes -/

namespace Node

/-- The two types of node. -/
inductive Form where
  | operator
  | operand

/-- The value of a node. -/
inductive Value where
  | predicate (c : Comparison)
  | text (s : String)

/-- The fields of a node. -/
inductive Field where
  | form
  | value
  | child (side : Branch)

/-- The field of a key. -/
def Field.ofKey? : String → Option Field
  | "type" => some .form
  | "value" => some .value
  | "left" => some (.child .left)
  | "right" => some (.child .right)
  | _ => none

/-- The field at a place of a node that is written as a list. -/
def Field.ofIndex? : Nat → Option Field
  | 0 => some .form
  | 1 => some .value
  | 2 => some (.child .left)
  | 3 => some (.child .right)
  | _ => none

/-- What has been read of a node. A child that is `null` has been read but is none. -/
structure Draft where
  form : Option Form
  value : Option Value
  left : Option (Option Rule)
  right : Option (Option Rule)

/-- A node of which nothing has been read. -/
def Draft.empty : Draft := ⟨none, none, none, none⟩

/-- Whether a field has been read. -/
def Draft.has (d : Draft) : Field → Bool
  | .form => d.form.isSome
  | .value => d.value.isSome
  | .child .left => d.left.isSome
  | .child .right => d.right.isSome

/-- The type that a document names. -/
def Form.ofJson? (j : Json) : Option Form :=
  match j.word? with
  | some "operator" => some .operator
  | some "operand" => some .operand
  | _ => none

/-- The value that a document is. All of it must be sound, passed over or not. -/
def Value.ofJson? (j : Json) : Option Value :=
  if j.isSound then
    match Comparison.ofJson? j, j with
    | some c, _ => some (.predicate c)
    | none, .text (some s) => some (.text s)
    | none, _ => none
  else none

/-- How many more containers may be opened, if that is limited. -/
abbrev Room := Option Nat

/-- Whether a document of some nesting fits. -/
def Room.fits (room : Room) (nesting : Nat) : Bool := room.all (nesting ≤ ·)

/-- The room inside one more container. -/
def Room.enter : Room → Except Fault Room
  | none => .ok none
  | some 0 => .error .badDocument
  | some (n + 1) => .ok (some n)

/-- Turns what could not be read into the fault of a document. -/
def orBadDocument {α : Type} : Option α → Except Fault α
  | some a => .ok a
  | none => .error .badDocument

/-- The child that a document is, read by `read` unless it is `null`. -/
def childOf (j : Json) (read : Unit → Except Fault Rule) : Except Fault (Option Rule) :=
  match j with
  | .null => .ok none
  | _ => (read ()).map some

/-- Adds a field that is written a first time. `read` reads the document as a rule. -/
def Draft.add (d : Draft) (room : Room) (field : Field) (j : Json) (read : Unit → Except Fault Rule) :
    Except Fault Draft :=
  if d.has field then .error .badDocument
  else
    match field with
    | .form => do
      let form ← orBadDocument (if room.fits j.nesting then Form.ofJson? j else none)
      return { d with form := some form }
    | .value => do
      let value ← orBadDocument (if room.fits j.nesting then Value.ofJson? j else none)
      return { d with value := some value }
    | .child .left => do return { d with left := some (← childOf j read) }
    | .child .right => do return { d with right := some (← childOf j read) }

/-- The rule of a node of which all has been read, or why there is none. -/
def Draft.judge (form : Form) (value : Value) (left right : Option Rule) : Except Fault Rule :=
  match form with
  | .operator =>
    match value with
    | .predicate c => .error (.badValue (.predicateOnOperator c))
    | .text s =>
      match Connective.ofPolicy? s with
      | none => .error (.badValue (.unknownPolicy (Connective.policyKey s)))
      | some k =>
        match left, right with
        | some l, some r => .ok (.join k l r)
        | _, _ => .error (.badValue (.missingChild k))
  | .operand =>
    if left.isSome || right.isSome then .error (.badValue .childOfOperand)
    else
      match value with
      | .predicate c => if Token.isName c.name then .ok (.test c) else .error (.badValue (.badAttributeName c.name))
      | .text s => (Comparison.parse s).map .test

/-- The rule of a node that ends here. -/
def Draft.finish (d : Draft) : Except Fault Rule :=
  match d.form, d.value with
  | some form, some value => (Draft.judge form value d.left.join d.right.join).mapError .badNode
  | _, _ => .error .badDocument

mutual

/-- The rule that a document is. -/
def read (room : Room) : Json → Except Fault Rule
  | .object ms => do (← addMembers (← room.enter) .empty ms).finish
  | .list es => do (← addElements (← room.enter) .empty 0 es).finish
  | _ => .error .badDocument

/-- Adds the members of a node. A key that names no field is passed over with its value. -/
def addMembers (room : Room) (d : Draft) : List (Json.Text × Json) → Except Fault Draft
  | [] => .ok d
  | (none, _) :: _ => .error .badDocument
  | (some k, v) :: ms =>
    match Field.ofKey? k with
    | some field => do addMembers room (← d.add room field v fun _ => read room v) ms
    | none => addMembers room d ms

/-- Adds the elements of a node that is written as a list, from a place on. -/
def addElements (room : Room) (d : Draft) (index : Nat) : List Json → Except Fault Draft
  | [] => .ok d
  | e :: es =>
    match Field.ofIndex? index with
    | some field => do addElements room (← d.add room field e fun _ => read room e) (index + 1) es
    | none => .error .badDocument

end

/-- Why a text that goes wrong inside these containers, outermost first, is no node: the first child
that ended and makes no rule, or else the fault of the text. -/
def faultOf (room : Room) : List Json.Partial → Fault
  | [] => .badDocument
  | container :: inner =>
    let read := do
      let room ← room.enter
      match container with
      | .object ms key? =>
        let d ← addMembers room .empty ms.reverse
        return (room, d, (key?.join.bind Field.ofKey?))
      | .list es =>
        let d ← addElements room .empty 0 es.reverse
        return (room, d, Field.ofIndex? es.length)
    match read with
    | .error fault => fault
    | .ok (room, d, some (.child side)) => if d.has (.child side) then .badDocument else faultOf room inner
    | .ok _ => .badDocument

end Node

/-- The rule that a JSON text holds, of any depth. -/
def Rule.ofJsonText (text : String) : Except Fault Rule :=
  match Json.read text with
  | .broken containers => .error (Node.faultOf none containers)
  | .complete document trailing => do
    let r ← Node.read none document
    if trailing then throw .badDocument
    return r

/-- The rule that a JSON text holds, if its depth is within the limit. -/
def Rule.ofJson (limit : Nat) (text : String) : Except Fault Rule := do
  let r ← Rule.ofJsonText text
  let _ ← r.checkDepth limit
  return r

end Eligibility
