/-
Writing JSON text, compact or indented. A number that is no integer has a point or an exponent, so
that it is read as the same kind of number again.
-/
import Eligibility.Json.Basic
import Eligibility.Binary64.Shortest

namespace Eligibility.Json

/-! ## Scalars -/

/-- A decimal with a point or an exponent: positional while the first digit stands for `10 ^ -5` to
`10 ^ 15`, else one digit before the point and a signed exponent. -/
def decimalText (d : Decimal) : List Char :=
  let ds := Decimal.digits d.coefficient
  let leading := ds.length - 1 + d.exponent
  if -5 ≤ leading ∧ leading ≤ 15 then
    if 0 ≤ d.exponent then d.positional ++ ['.', '0'] else d.positional
  else
    let fraction := ds.drop 1
    d.sign ++ ds.take 1 ++ (if fraction.isEmpty then [] else '.' :: fraction) ++
      'e' :: (if leading < 0 then '-' else '+') :: Decimal.digits leading.natAbs

/-- The shortest text of a double; an infinity and not-a-number have none. Of two equally near
decimals the one with an even last digit is taken. -/
def doubleText? : Binary64 → Option (List Char)
  | .finite negative m => some (decimalText { m.shortest .toEven with negative })
  | _ => none

/-- A number as a document; an infinity and not-a-number are written `null`. -/
def ofDouble (x : Binary64) : Json := if x.isFinite then .number (.real x) else .null

/-- A keyword of JSON text. -/
def keyword : Bool → List Char
  | true => ['t', 'r', 'u', 'e']
  | false => ['f', 'a', 'l', 's', 'e']

/-- The keyword for no value. -/
def nullText : List Char := ['n', 'u', 'l', 'l']

/-- The text of a number. -/
def numberText : Number → List Char
  | .integer n => (if n < 0 then ['-'] else []) ++ Decimal.digits n.natAbs
  | .real x => (doubleText? x).getD nullText
  | .beyond => nullText

/-- A hexadecimal digit. -/
def hexDigit (n : Nat) : Char := Nat.digitChar n

/-- A character inside quotes. -/
def escape (c : Char) : List Char :=
  match c with
  | '"' => ['\\', '"']
  | '\\' => ['\\', '\\']
  | '\x08' => ['\\', 'b']
  | '\x0c' => ['\\', 'f']
  | '\n' => ['\\', 'n']
  | '\r' => ['\\', 'r']
  | '\t' => ['\\', 't']
  | c => if c < ' ' then ['\\', 'u', '0', '0', hexDigit (c.toNat / 16), hexDigit (c.toNat % 16)] else [c]

/-- A text in quotes. -/
def quote (s : String) : List Char := '"' :: s.toList.flatMap escape ++ ['"']

/-- A text that has its content in quotes, and the empty text for any other. -/
def quoteText (t : Text) : List Char := quote (t.getD "")

/-! ## Compact text -/

mutual

/-- The text of a document without any space. -/
def compactChars : Json → List Char
  | .null => nullText
  | .bool b => keyword b
  | .number n => numberText n
  | .text t => quoteText t
  | .list [] => ['[', ']']
  | .list (e :: es) => '[' :: (compactChars e ++ compactElements es)
  | .object [] => ['\x7b', '\x7d']
  | .object ((k, v) :: ms) => '\x7b' :: (quoteText k ++ ':' :: (compactChars v ++ compactMembers ms))

/-- The elements after the first, and the closing bracket. -/
def compactElements : List Json → List Char
  | [] => [']']
  | e :: es => ',' :: (compactChars e ++ compactElements es)

/-- The members after the first, and the closing bracket. -/
def compactMembers : List (Text × Json) → List Char
  | [] => ['\x7d']
  | (k, v) :: ms => ',' :: (quoteText k ++ ':' :: (compactChars v ++ compactMembers ms))

end

/-- The text of a document without any space. -/
def compact (j : Json) : String := String.ofList j.compactChars

/-! ## Indented text -/

/-- A line break, and two spaces for each level. -/
def newline (level : Nat) : List Char := '\n' :: List.replicate (2 * level) ' '

mutual

/-- The text of a document with each element and member on a line of its own, and no lines in an
empty container. -/
def prettyChars (level : Nat) : Json → List Char
  | .null => nullText
  | .bool b => keyword b
  | .number n => numberText n
  | .text t => quoteText t
  | .list [] => ['[', ']']
  | .list (e :: es) => '[' :: (newline (level + 1) ++ prettyChars (level + 1) e ++ prettyElements level es)
  | .object [] => ['\x7b', '\x7d']
  | .object ((k, v) :: ms) =>
    '\x7b' :: (newline (level + 1) ++ quoteText k ++ ':' :: ' ' ::
      (prettyChars (level + 1) v ++ prettyMembers level ms))

/-- The elements after the first, and the closing bracket. -/
def prettyElements (level : Nat) : List Json → List Char
  | [] => newline level ++ [']']
  | e :: es => ',' :: (newline (level + 1) ++ prettyChars (level + 1) e ++ prettyElements level es)

/-- The members after the first, and the closing bracket. -/
def prettyMembers (level : Nat) : List (Text × Json) → List Char
  | [] => newline level ++ ['\x7d']
  | (k, v) :: ms =>
    ',' :: (newline (level + 1) ++ quoteText k ++ ':' :: ' ' ::
      (prettyChars (level + 1) v ++ prettyMembers level ms))

end

/-- The indented text of a document. -/
def pretty (j : Json) : String := String.ofList (j.prettyChars 0)

end Eligibility.Json
