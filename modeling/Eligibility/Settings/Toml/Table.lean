/-
Tables of a TOML document while it is read. How a table came to be decides what may still be added
to it: a header may complete a table that only longer headers have made so far, and a dotted key may
add to any table but one that has a header of its own.
-/
import Eligibility.Settings.Value

namespace Eligibility.Toml

/-- How a table came to be. -/
inductive Origin where
  /-- By the header of a table inside it. -/
  | implied
  /-- By a dotted key. -/
  | dotted
  /-- By a header of its own. -/
  | header
deriving DecidableEq

/-- What stands at a key of a document. -/
inductive Item where
  /-- A value that nothing is added to. -/
  | value (v : Setting)
  | table (origin : Origin) (entries : List (String × Item))
  /-- Tables of one name; only the last is added to. -/
  | series (earlier : List Setting) (last : List (String × Item))

mutual

/-- The value of an item. -/
def Item.toSetting : Item → Setting
  | .value v => v
  | .table _ es => .table (settingsOf es)
  | .series earlier last => .list (earlier ++ [.table (settingsOf last)])

/-- The values of the items of a table. -/
def settingsOf : List (String × Item) → List (String × Setting)
  | [] => []
  | (k, item) :: es => (k, item.toSetting) :: settingsOf es

end

/-- Changes the table that a part of a header leads to. -/
def enter (change : Record Item → Option (Record Item)) (k : String) (es : Record Item) : Option (Record Item) :=
  match es.get? k with
  | none => (change []).map fun inner => es.set k (.table .implied inner)
  | some (.table origin inner) => (change inner).map fun inner => es.set k (.table origin inner)
  | some (.series earlier last) => (change last).map fun last => es.set k (.series earlier last)
  | some (.value _) => none

/-- Changes the table that the parts of a header lead to. -/
def under (change : Record Item → Option (Record Item)) : List String → Record Item → Option (Record Item)
  | [], es => change es
  | k :: ks, es => enter (under change ks) k es

/-- The entries with the table of a header. -/
def openTable : List String → Record Item → Option (Record Item)
  | [], _ => none
  | [k], es =>
    match es.get? k with
    | none => some (es.set k (.table .header []))
    | some (.table .implied inner) => some (es.set k (.table .header inner))
    | _ => none
  | k :: ks, es => enter (openTable ks) k es

/-- The entries with one more table in the series of a header. -/
def openSeries : List String → Record Item → Option (Record Item)
  | [], _ => none
  | [k], es =>
    match es.get? k with
    | none => some (es.set k (.series [] []))
    | some (.series earlier last) => some (es.set k (.series (earlier ++ [.table (settingsOf last)]) []))
    | _ => none
  | k :: ks, es => enter (openSeries ks) k es

/-- The entries with a value at a dotted key that has none yet. The key may lead through the last
table of a series, but not end in it. -/
def insert (v : Setting) : List String → Record Item → Option (Record Item)
  | [], _ => none
  | [k], es => if (es.get? k).isSome then none else some (es.set k (.value v))
  | k :: ks, es =>
    match es.get? k with
    | none => (insert v ks []).map fun inner => es.set k (.table .dotted inner)
    | some (.table origin inner) =>
      if origin = .header then none else (insert v ks inner).map fun inner => es.set k (.table origin inner)
    | some (.series earlier last) =>
      if ks.length = 1 then none else (insert v ks last).map fun last => es.set k (.series earlier last)
    | some (.value _) => none

end Eligibility.Toml
