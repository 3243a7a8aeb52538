/-
Attributes: named values that a rule is evaluated on, kept in the order of their names. The order is
that of code points, which is also the order of their UTF-8 bytes.
-/
import Eligibility.Binary64.Rounding

namespace Eligibility

/-- Entries in the order of their names, one for each name. -/
abbrev Record (α : Type) := List (String × α)

namespace Record

/-- Sets the entry of a name. -/
def set {α : Type} (name : String) (value : α) : Record α → Record α
  | [] => [(name, value)]
  | (n, v) :: rest =>
    if name < n then (name, value) :: (n, v) :: rest
    else if name = n then (name, value) :: rest
    else (n, v) :: set name value rest

/-- The entry of a name. -/
def get? {α : Type} (r : Record α) (name : String) : Option α := (r.find? (·.1 = name)).map (·.2)

/-- The record of some entries; of two of one name the later counts. -/
def ofList {α : Type} (entries : List (String × α)) : Record α :=
  entries.foldl (fun r (n, v) => r.set n v) []

end Record

/-- The value of an attribute. -/
inductive Value where
  | bool (b : Bool)
  | number (x : Binary64)
  | text (s : String)

/-- The name of the type of a value. -/
def Value.typeName : Value → String
  | bool _ => "boolean"
  | number _ => "number"
  | text _ => "string"

/-- The attributes that a rule is evaluated on. -/
structure Attributes where
  entries : Record Value

namespace Attributes

/-- No attributes. -/
def empty : Attributes := ⟨[]⟩

/-- Sets an attribute. -/
def set (a : Attributes) (name : String) (v : Value) : Attributes := ⟨a.entries.set name v⟩

/-- The value of an attribute. -/
def get? (a : Attributes) (name : String) : Option Value := a.entries.get? name

/-- The attributes of some entries; of two of one name the later counts. -/
def ofList (entries : List (String × Value)) : Attributes := ⟨Record.ofList entries⟩

end Attributes
end Eligibility
