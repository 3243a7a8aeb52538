/-
Rules from tokens. A rule is a chain of conjunctions under OR, a conjunction a chain of terms under
AND, and a term a comparison or a rule in parentheses. Chains lean to the left. Every reader leaves
fewer tokens than it was given, and the room for parentheses shrinks with each that is opened.
-/
import Eligibility.Rule.Basic
import Eligibility.Token.Piece

namespace Eligibility.Rule

/-- What a reader read at the start of some tokens, and the tokens it left. -/
structure Step (α : Type) (ts : List Token) where
  value : α
  rest : List Token
  shorter : rest.length < ts.length

/-- A rule with its depth. -/
structure Measured where
  rule : Rule
  depth : Nat

/-- A reader of rules. -/
abbrev Reader := (ts : List Token) → Except Fault (Step Measured ts)

/-- Reads a comparison: an attribute, a comparator and a literal. `stop` is the end of the text. -/
def comparison (stop : Nat) : (ts : List Token) → Except Fault (Step Comparison ts)
  | [] => .error (.badRule stop .missingComparison)
  | [⟨.name n, _⟩] => .error (.badRule stop (.missingComparator n))
  | [⟨.name n, _⟩, ⟨.comparator c, _⟩] => .error (.badRule stop (.missingLiteral n c))
  | ⟨.name n, _⟩ :: ⟨.comparator c, _⟩ :: ⟨kind, position⟩ :: rest =>
    match kind with
    | .number x => .ok ⟨⟨n, c, .number x⟩, rest, by simp; omega⟩
    | .text s => .ok ⟨⟨n, c, .text s⟩, rest, by simp; omega⟩
    | _ => .error (.badRule position (.expectedLiteral kind))
  | ⟨.name n, _⟩ :: ⟨kind, position⟩ :: _ =>
    match kind with
    | .name _ => .error (.badRule position (.adjacentNames kind))
    | _ => .error (.badRule position (.expectedComparator n kind))
  | ⟨kind, position⟩ :: _ => .error (.badRule position (.expectedAttribute kind))

/-- Joins two rules, if the join is within the limit. -/
def joinWithin (limit : Nat) (k : Connective) (position : Nat) (l r : Measured) : Except Fault Measured :=
  let depth := max l.depth r.depth + 1
  if limit < depth then .error (.badRule position (.tooDeep limit)) else .ok ⟨.join k l.rule r.rule, depth⟩

/-- Joins what follows to a rule that has been read, as long as the connective comes next. -/
def chainRest (limit : Nat) (k : Connective) (operand : Reader) (left : Measured) (ts : List Token) :
    Except Fault { read : Measured × List Token // read.2.length ≤ ts.length } :=
  match ts with
  | ⟨.connective c, position⟩ :: rest =>
    if c = k then do
      let right ← operand rest
      let joined ← joinWithin limit k position left right.value
      let ⟨read, le⟩ ← chainRest limit k operand joined right.rest
      return ⟨read, by have := right.shorter; simp only [List.length_cons]; omega⟩
    else .ok ⟨(left, ⟨.connective c, position⟩ :: rest), Nat.le_refl _⟩
  | ts => .ok ⟨(left, ts), Nat.le_refl _⟩
termination_by ts.length
decreasing_by have := right.shorter; simp only [List.length_cons]; omega

/-- Reads operands joined by one connective. -/
def chain (limit : Nat) (k : Connective) (operand : Reader) : Reader := fun ts => do
  let first ← operand ts
  let ⟨read, le⟩ ← chainRest limit k operand first.value first.rest
  return ⟨read.1, read.2, Nat.lt_of_le_of_lt le first.shorter⟩

/-- Reads terms joined by AND. -/
def conjunction (limit : Nat) (term : Reader) : Reader := chain limit .and term

/-- Reads conjunctions joined by OR. -/
def disjunction (limit : Nat) (term : Reader) : Reader := chain limit .or (conjunction limit term)

/-- Reads a comparison, or a rule in parentheses while there is room for them. -/
def term (limit stop : Nat) : (room : Nat) → Reader
  | _, [] => .error (.badRule stop .missingRule)
  | room, ⟨kind, position⟩ :: rest =>
    match kind with
    | .openParen =>
      match room with
      | 0 => .error (.badRule position (.nestedTooDeep limit))
      | room + 1 => do
        let inner ← disjunction limit (term limit stop room) rest
        match h : inner.rest with
        | [] => .error (.badRule position .unclosedParen)
        | ⟨.closeParen, _⟩ :: after =>
          .ok ⟨inner.value, after, by have := inner.shorter; simp [h] at *; omega⟩
        | ⟨found, position⟩ :: _ => .error (.badRule position (.expectedCloseParen found))
    | .name n => do
      let c ← comparison stop (⟨.name n, position⟩ :: rest)
      return ⟨⟨.test c.value, 1⟩, c.rest, c.shorter⟩
    | .connective k => .error (.badRule position (.missingOperand k))
    | .closeParen => .error (.badRule position .emptyParens)
    | .comparator c => .error (.badRule position (.missingAttribute c))
    | .number x => .error (.badRule position (.literalFirst (.number x)))
    | .text s => .error (.badRule position (.literalFirst (.text s)))

/-- Refuses tokens that are left over. -/
def expectEnd : List Token → Except Fault Unit
  | [] => .ok ()
  | ⟨.closeParen, position⟩ :: _ => .error (.badRule position .strayCloseParen)
  | ⟨.number x, position⟩ :: _ => .error (.badRule position (.adjacentLiterals (.number x)))
  | ⟨.text s, position⟩ :: _ => .error (.badRule position (.adjacentLiterals (.text s)))
  | ⟨kind, position⟩ :: _ => .error (.badRule position (.expectedConnective kind))

/-- The rule that tokens make up; `stop` is the end of their text. -/
def ofTokens (limit stop : Nat) (ts : List Token) : Except Fault Rule := do
  if ts.isEmpty then throw (.badRule 0 .noRule)
  let read ← disjunction limit (term limit stop limit) ts
  expectEnd read.rest
  return read.value.rule

/-- The rule that a text stands for. Neither its depth nor the nesting of its parentheses may pass
the limit. -/
def parse (limit : Nat) (text : String) : Except Fault Rule := do
  ofTokens limit (Text.byteLength text.toList) (← Token.tokenize text)

end Eligibility.Rule

namespace Eligibility

/-- The comparison that a text stands for. -/
def Comparison.parse (text : String) : Except Fault Comparison := do
  let read ← Rule.comparison (Text.byteLength text.toList) (← Token.tokenize text)
  Rule.expectEnd read.rest
  return read.value

end Eligibility
