/-
Addresses of settings, such as `engine.max_depth` or `names[0]`: a key, and steps into tables and
lists. Putting a value at an address makes the tables and lists on the way.
-/
import Eligibility.Settings.Value

namespace Eligibility

/-- One step to a value: to an entry of a table, or to an item of a list, where an index below zero
counts from the end. -/
inductive AddressStep where
  | key (k : String)
  | index (i : Int)
deriving DecidableEq

/-- Where a value stands below the settings as a whole. -/
abbrev Address := List AddressStep

namespace Address

/-- Whether a character may stand in a key without quotes. -/
def isBareChar (c : Char) : Bool := c.isAlphanum || c = '_' || c = '-'

/-- The key that a text without quotes is. -/
def bareKey? (cs : List Char) : Option String :=
  if !cs.isEmpty && cs.all isBareChar then some (String.ofList cs) else none

/-- The pieces of a text, each of which but the first begins with a point or an opening bracket. -/
def pieces : List Char → List (List Char)
  | [] => [[]]
  | c :: cs =>
    if c = '.' ∨ c = '[' then [] :: (pieces cs).modifyHead (c :: ·) else (pieces cs).modifyHead (c :: ·)

/-- The index that stands between brackets; space around it does not count. -/
def index? (cs : List Char) : Option Int :=
  let isSpace (c : Char) := c = ' ' || c = '\t'
  let cs := ((cs.dropWhile isSpace).reverse.dropWhile isSpace).reverse
  if cs.head? = some '+' then none else (Setting.integer? cs).filter Setting.fits64

/-- The step that a piece of an address is. -/
def step? : List Char → Option AddressStep
  | '.' :: cs => (bareKey? cs).map .key
  | '[' :: cs => if cs.getLast? = some ']' then (index? cs.dropLast).map .index else none
  | _ => none

/-- The address that a text has the form of. -/
def parse? (cs : List Char) : Option Address :=
  match pieces cs with
  | [] => none
  | first :: rest => do
    let k ← bareKey? first
    let steps ← rest.mapM step?
    return .key k :: steps

/-- The address that a text is; a text of any other form is a key as it stands. -/
def ofText (cs : List Char) : Address := (parse? cs).getD [.key (String.ofList cs)]

end Address

namespace Setting

/-- A list that has been made long enough for an index, and the place that the index is. -/
def room (xs : List Setting) (i : Int) : List Setting × Nat :=
  if 0 ≤ i then (xs ++ List.replicate (i.toNat + 1 - xs.length) nothing, i.toNat)
  else (List.replicate (i.natAbs - xs.length) nothing ++ xs, xs.length - i.natAbs)

/-- A value with another put at an address below it. -/
def put (v : Setting) : Address → Setting → Setting
  | [], old => overlay old v
  | .key k :: steps, old => table (old.entries.set k (put v steps ((old.entries.get? k).getD nothing)))
  | .index i :: steps, old =>
    let (xs, n) := room old.items i
    list (xs.set n (put v steps (xs[n]?.getD nothing)))

end Setting
end Eligibility
