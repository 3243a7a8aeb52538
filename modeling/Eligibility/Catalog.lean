/-
The catalog of rules: entries under their ids, in the order in which they were created. An operation that
is refused gives no new catalog, so the old one stays as it was. The caller names the id of a new entry
and the time of a change.
-/
import Eligibility.Combiner
import Eligibility.Evaluation
import Eligibility.Rule.Json

namespace Eligibility

/-- A rule of the catalog: its text, the rule that the text stands for, and the attributes that the
rule names. -/
structure Entry where
  id : String
  name : String
  text : String
  rule : Rule
  attributes : List String
  createdAt : String
  updatedAt : String

namespace Entry

/-- A new entry. -/
def create (id name text : String) (rule : Rule) (now : String) : Entry :=
  ⟨id, name, text, rule, rule.names, now, now⟩

/-- The entry with another rule. -/
def revise (e : Entry) (text : String) (rule : Rule) (now : String) : Entry :=
  { e with text, rule, attributes := rule.names, updatedAt := now }

/-- An entry as a document. -/
def toJson (e : Entry) : Json :=
  .object [(some "id", .string e.id), (some "name", .string e.name), (some "text", .string e.text),
    (some "root", e.rule.toJson), (some "attributes", .list (e.attributes.map .string)),
    (some "created_at", .string e.createdAt), (some "updated_at", .string e.updatedAt)]

end Entry

/-- The catalog: entries, each under a key. -/
structure Catalog where
  entries : List (String × Entry)

/-- Figures of a catalog. -/
structure Catalog.Stats where
  rules : Nat
  nodes : Nat
  attributesPerRule : Binary64

namespace Catalog

/-- The catalog without entries. -/
def empty : Catalog := ⟨[]⟩

/-- The number of entries. -/
def size (c : Catalog) : Nat := c.entries.length

/-- The entry under an id. -/
def get? (c : Catalog) (id : String) : Option Entry := (c.entries.find? (·.1 = id)).map (·.2)

/-- Whether there is an entry under an id. -/
def contains (c : Catalog) (id : String) : Bool := (c.get? id).isSome

/-- The ids that there are entries under, in the order of creation. -/
def ids (c : Catalog) : List String := c.entries.map (·.1)

/-- Puts an entry under an id, in the place of the one that is there, or else at the end. -/
def put (c : Catalog) (id : String) (e : Entry) : Catalog :=
  if c.contains id then ⟨c.entries.map fun old => if old.1 = id then (id, e) else old⟩
  else ⟨c.entries ++ [(id, e)]⟩

/-- The rule of an id. -/
def rule (c : Catalog) (id : String) : Except Fault Rule :=
  match c.get? id with
  | some e => .ok e.rule
  | none => .error (.ruleNotFound id)

/-- Reads a text and adds it as a rule under a new id. -/
def create (c : Catalog) (id now name text : String) : Except Fault (Entry × Catalog) := do
  let rule ← Rule.parse defaultDepthLimit text
  let e := Entry.create id name text rule now
  return (e, c.put e.id e)

/-- Gives the entry of an id another text and rule. -/
def revise (c : Catalog) (id now : String) (change : Rule → Except Fault (String × Rule)) :
    Except Fault (Entry × Catalog) :=
  match c.get? id with
  | none => .error (.ruleNotFound id)
  | some e => do
    let (text, rule) ← change e.rule
    let e := e.revise text rule now
    return (e, c.put id e)

/-- Replaces the whole rule of an id by the one that a text stands for. -/
def update (c : Catalog) (id now text : String) : Except Fault (Entry × Catalog) := do
  let rule ← Rule.parse defaultDepthLimit text
  c.revise id now fun _ => .ok (text, rule)

/-- Replaces the part at a path of the rule of an id by the rule that a text stands for. The text of
the entry becomes that of the new rule. -/
def modify (c : Catalog) (id now : String) (path : Path) (text : String) : Except Fault (Entry × Catalog) := do
  let part ← Rule.parse defaultDepthLimit text
  c.revise id now fun old => do
    let new ← old.replace path part
    let _ ← new.checkDepth defaultDepthLimit
    return (new.render, new)

/-- Removes the entry of an id. -/
def delete (c : Catalog) (id : String) : Except Fault Catalog :=
  if c.contains id then .ok ⟨c.entries.filter (·.1 ≠ id)⟩ else .error (.ruleNotFound id)

/-- The combination of the rules of some ids, in the order given. -/
def combine (c : Catalog) (ids : List String) (combiner : Combiner) : Except Fault Rule :=
  if ids.isEmpty then .error (.badValue .nothingToCombine)
  else do combiner.combineRules (← ids.mapM c.rule)

/-- The verdict of the rule of an id on attributes. -/
def evaluate (c : Catalog) (id : String) (a : Attributes) : Except Fault Bool := do
  (← c.rule id).verdict a

/-- The figures of the catalog. The mean of no rules is zero. -/
def stats (c : Catalog) : Stats where
  rules := c.size
  nodes := c.entries.foldl (fun n p => n + p.2.rule.size) 0
  attributesPerRule :=
    if c.size = 0 then .zero false
    else .ofRatio false (c.entries.foldl (fun n p => n + p.2.attributes.length) 0) c.size

end Catalog
end Eligibility
