/-
The six comparators and their symbols.
-/
namespace Eligibility

/-- How an attribute is compared with a literal. -/
inductive Comparator where
  | greater
  | less
  | atLeast
  | atMost
  | equal
  | notEqual
deriving DecidableEq

namespace Comparator

/-- All comparators. -/
def all : List Comparator := [greater, less, atLeast, atMost, equal, notEqual]

/-- The symbol of a comparator. -/
def symbol : Comparator → String
  | greater => ">"
  | less => "<"
  | atLeast => ">="
  | atMost => "<="
  | equal => "="
  | notEqual => "!="

/-- The comparator of a symbol. -/
def ofSymbol? (symbol : String) : Option Comparator := all.find? (·.symbol = symbol)

/-- Whether the comparator asks for numbers on both sides. -/
def isOrdering : Comparator → Bool
  | equal | notEqual => false
  | _ => true

theorem ofSymbol?_symbol (c : Comparator) : ofSymbol? c.symbol = some c := by
  cases c <;> simp [ofSymbol?, all, symbol]

theorem symbol_of_ofSymbol? {s : String} {c : Comparator} (h : ofSymbol? s = some c) : c.symbol = s := by
  simpa using List.find?_some h

end Comparator
end Eligibility
