/-
Words of rule text: keywords, numbers and attribute names. A word that looks like a number in
digits of another script is refused as a number, not as an unknown word.
-/
import Eligibility.Fault
import Eligibility.Text.DecimalDigit

namespace Eligibility.Token

/-- Whether a character may start an attribute name. -/
def isNameStart (c : Char) : Bool := c.isAlpha || c = '_'

/-- Whether a character may stand in an attribute name. -/
def isNameChar (c : Char) : Bool := c.isAlphanum || c = '_' || c = '.'

/-- Whether a word has the form of an attribute name; the keywords have it too. -/
def hasNameForm : List Char → Bool
  | [] => false
  | c :: cs => isNameStart c && cs.all isNameChar

/-- The connective of which a word is the keyword. -/
def keyword? (word : List Char) : Option Connective :=
  if word = ['A', 'N', 'D'] then some .and else if word = ['O', 'R'] then some .or else none

/-- Whether a text is an attribute name. -/
def isName (s : String) : Bool := (keyword? s.toList).isNone && hasNameForm s.toList

/-- The digits before and after the point of a word that has the form of a number, after its sign. -/
def numberParts? (cs : List Char) : Option (List Char × List Char) :=
  let whole := cs.takeWhile Text.isDecimalDigit
  if whole.isEmpty then none
  else
    match cs.dropWhile Text.isDecimalDigit with
    | [] => some (whole, [])
    | c :: fraction => if c = '.' && fraction.all Text.isDecimalDigit then some (whole, fraction) else none

/-- What a word is. -/
def classify (word : List Char) : Except SyntaxFault Kind :=
  match keyword? word with
  | some c => .ok (.connective c)
  | none =>
    let (negative, unsigned) := Decimal.splitSign word
    match numberParts? unsigned with
    | some (whole, fraction) =>
      if (whole ++ fraction).all Char.isDigit then
        let x := Binary64.ofDecimal (.ofParts negative whole fraction)
        if x.isFinite then .ok (.number x) else .error (.numberOutOfRange (String.ofList word))
      else .error (.foreignDigits (String.ofList word))
    | none =>
      if hasNameForm word then .ok (.name (String.ofList word))
      else .error (.unknownWord (String.ofList word))

end Eligibility.Token
