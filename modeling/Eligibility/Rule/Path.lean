/-
Paths into a rule: their text, the part of a rule at a path, and a rule with that part replaced.
-/
import Eligibility.Rule.Basic

namespace Eligibility

namespace Path

/-- The pieces of a text between points. -/
def segments : List Char → List (List Char)
  | [] => [[]]
  | c :: cs =>
    if c = '.' then [] :: segments cs
    else
      match segments cs with
      | [] => [[c]]
      | s :: ss => (c :: s) :: ss

/-- A path text without the word for the root and the point after it. -/
def withoutRoot : List Char → List Char
  | 'r' :: 'o' :: 'o' :: 't' :: '.' :: rest => rest
  | 'r' :: 'o' :: 'o' :: 't' :: rest => rest
  | cs => cs

/-- The side that a segment names. -/
def branch (segment : List Char) : Except Fault Branch :=
  match Branch.ofWord? (String.ofList segment) with
  | some b => .ok b
  | none => .error (.badValue (.badPathSegment (String.ofList segment)))

/-- The path that a text names; nothing, or the root alone, names the whole rule. -/
def parse (text : String) : Except Fault Path :=
  match withoutRoot (Text.trim text.toList) with
  | [] => .ok []
  | cs => (segments cs).mapM branch

/-- The text of a path from the root. -/
def render (p : Path) : String := p.foldl (fun text b => text ++ "." ++ b.word) "root"

end Path

namespace Rule

/-- The part of a rule at a path. -/
def at? : Rule → Path → Option Rule
  | r, [] => some r
  | join _ l _, .left :: p => l.at? p
  | join _ _ r, .right :: p => r.at? p
  | test _, _ :: _ => none

/-- A rule with another in the place of the part at a path. -/
def replace : Rule → Path → Rule → Except Fault Rule
  | _, [], s => .ok s
  | join k l r, .left :: p, s => (l.replace p s).map (join k · r)
  | join k l r, .right :: p, s => (r.replace p s).map (join k l)
  | test c, b :: _, _ => .error (.badValue (.pathLeavesRule c b))

end Rule
end Eligibility
