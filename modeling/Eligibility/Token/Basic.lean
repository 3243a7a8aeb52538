/-
The tokens of rule text, each with its place in bytes, and how a message names one.
-/
import Eligibility.Comparison
import Eligibility.Connective

namespace Eligibility

/-- What a token is. -/
inductive Token.Kind where
  | openParen
  | closeParen
  | connective (c : Connective)
  | comparator (c : Comparator)
  | name (n : String)
  | number (x : Binary64)
  | text (s : String)

/-- A token and the byte of the text at which it starts. -/
structure Token where
  kind : Token.Kind
  position : Nat

namespace Token.Kind

/-- How a message names a token. -/
def display : Kind → String
  | openParen => "'('"
  | closeParen => "')'"
  | connective c => c.keyword
  | comparator c => s!"比较运算符 '{c.symbol}'"
  | name n => s!"标识符 '{n}'"
  | number x => s!"数字 {String.ofList x.render}"
  | text s => s!"字符串 '{s}'"

end Token.Kind
end Eligibility
