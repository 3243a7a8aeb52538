/-
Reading JSON text. The reader keeps the containers that are still open, so that a text which breaks
off or goes wrong leaves everything that had been read before.
-/
import Eligibility.Json.Lexeme

namespace Eligibility.Json

/-- A container whose end has not been reached: what is complete of it, latest first, and in an
object the key whose value comes next. -/
inductive Partial where
  | list (elements : List Json)
  | object (members : List (Text × Json)) (key? : Option Text)

/-- What may come next in a text. -/
inductive Expected where
  | value
  | firstElement
  | firstKey
  | key
  | colon
  | separator

/-- What a text turned out to hold. -/
inductive Reading where
  /-- A document, and whether anything but space follows it. -/
  | complete (document : Json) (trailing : Bool)
  /-- No document; the containers that were open at the fault, outermost first. -/
  | broken (containers : List Partial)

/-- Where a reader stands: inside containers, innermost first, or behind the document. -/
inductive Standing where
  | inside (containers : List Partial) (expected : Expected)
  | behind (document : Json)

/-- Puts a value that has ended into the innermost container. -/
def place (v : Json) : List Partial → Option Standing
  | [] => some (.behind v)
  | .list es :: outer => some (.inside (.list (v :: es) :: outer) .separator)
  | .object ms (some k) :: outer => some (.inside (.object ((k, v) :: ms) none :: outer) .separator)
  | .object _ none :: _ => none

/-- Closes the innermost container with a bracket of its kind. -/
def close (isList : Bool) : List Partial → Option Standing
  | .list es :: outer => if isList then place (.list es.reverse) outer else none
  | .object ms _ :: outer => if isList then none else place (.object ms.reverse) outer
  | [] => none

/-- Takes a lexeme where a value may stand. -/
def startValue (containers : List Partial) : Lexeme → Option Standing
  | .null => place .null containers
  | .bool b => place (.bool b) containers
  | .number n => place (.number n) containers
  | .text t => place (.text t) containers
  | .openList => some (.inside (.list [] :: containers) .firstElement)
  | .openObject => some (.inside (.object [] none :: containers) .firstKey)
  | _ => none

/-- Takes a key into the innermost object. -/
def startMember (containers : List Partial) (key : Text) : Option Standing :=
  match containers with
  | .object ms _ :: outer => some (.inside (.object ms (some key) :: outer) .colon)
  | _ => none

/-- Takes one lexeme; `none` where it cannot stand. -/
def take (containers : List Partial) : Expected → Lexeme → Option Standing
  | .value, x => startValue containers x
  | .firstElement, .closeList => close true containers
  | .firstElement, x => startValue containers x
  | .firstKey, .closeObject => close false containers
  | .firstKey, .text k => startMember containers k
  | .key, .text k => startMember containers k
  | .colon, .colon => some (.inside containers .value)
  | .separator, .closeList => close true containers
  | .separator, .closeObject => close false containers
  | .separator, .comma =>
    match containers with
    | .list _ :: _ => some (.inside containers .value)
    | _ => some (.inside containers .key)
  | _, _ => none

/-- Takes lexemes until the document ends or a lexeme cannot stand where it does. -/
def readLexemes (toEnd : Bool) (containers : List Partial) (expected : Expected) : List Lexeme → Reading
  | [] => .broken containers.reverse
  | x :: xs =>
    match take containers expected x with
    | none => .broken containers.reverse
    | some (.behind v) => .complete v (!(xs.isEmpty && toEnd))
    | some (.inside containers expected) => readLexemes toEnd containers expected xs

/-- Reads a text. -/
def read (text : String) : Reading :=
  let (xs, toEnd) := lexemes text.toList
  readLexemes toEnd [] .value xs

/-- The document that a text holds, with nothing but space around it. -/
def document? (text : String) : Option Json :=
  match read text with
  | .complete v false => some v
  | _ => none

end Eligibility.Json
