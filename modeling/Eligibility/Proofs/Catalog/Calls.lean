/-
The calls that change a catalog, and runs of them. Each operation is described once, by what it has
found and what it has done whenever it is not refused; a refused call leaves the catalog as it was.
-/
import Eligibility.Catalog
import Eligibility.Proofs.Outcome

namespace Eligibility

namespace Catalog

/-! ## Entries -/

theorem mem_of_get? {c : Catalog} {id : String} {e : Entry} (h : c.get? id = some e) : (id, e) ∈ c.entries := by
  obtain ⟨⟨key, e⟩, hfind, rfl⟩ := Option.map_eq_some_iff.1 h
  obtain rfl : key = id := by simpa using List.find?_some hfind
  exact List.mem_of_find?_eq_some hfind

/-- An entry of a catalog after one was put is that one, or was there before. -/
theorem mem_put {c : Catalog} {id : String} {e : Entry} {p : String × Entry} (h : p ∈ (c.put id e).entries) :
    p = (id, e) ∨ p ∈ c.entries := by
  unfold put at h
  split at h
  · obtain ⟨old, hold, rfl⟩ := List.mem_map.1 h
    -- only the entry of this id gives way
    by_cases hid : old.1 = id
    · exact .inl (if_pos hid)
    · exact .inr (if_neg hid ▸ hold)
  · rcases List.mem_append.1 h with h | h
    · exact .inr h
    · exact .inl (List.mem_singleton.1 h)

/-! ## What an operation does -/

variable {c c' : Catalog} {id now text : String} {e' : Entry}

/-- An entry is created if its text is read as a rule. -/
theorem create_eq_ok {name : String} :
    c.create id now name text = .ok (e', c') ↔ ∃ rule, Rule.parse defaultDepthLimit text = .ok rule ∧
      e' = .create id name text rule now ∧ c' = c.put id e' := by
  unfold create
  rw [bind_eq_ok]
  constructor
  · rintro ⟨rule, hp, h⟩
    cases h
    exact ⟨rule, hp, rfl, rfl⟩
  · rintro ⟨rule, hp, rfl, rfl⟩
    exact ⟨rule, hp, rfl⟩

/-- An entry is given another rule if it is there and the change can be made to its rule. -/
theorem revise_eq_ok {change : Rule → Except Fault (String × Rule)} :
    c.revise id now change = .ok (e', c') ↔ ∃ e text rule, c.get? id = some e ∧
      change e.rule = .ok (text, rule) ∧ e' = e.revise text rule now ∧ c' = c.put id e' := by
  unfold revise
  cases hget : c.get? id with
  | none => simp
  | some e =>
    dsimp only
    rw [bind_eq_ok]
    constructor
    · rintro ⟨⟨text, rule⟩, hc, h⟩
      cases h
      exact ⟨e, text, rule, rfl, hc, rfl, rfl⟩
    · rintro ⟨_, text, rule, ⟨⟩, hc, rfl, rfl⟩
      exact ⟨(text, rule), hc, rfl⟩

theorem update_eq_ok :
    c.update id now text = .ok (e', c') ↔ ∃ e rule, c.get? id = some e ∧
      Rule.parse defaultDepthLimit text = .ok rule ∧ e' = e.revise text rule now ∧ c' = c.put id e' := by
  unfold update
  simp only [bind_eq_ok, revise_eq_ok]
  constructor
  · rintro ⟨rule, hp, e, _, _, hget, ⟨⟩, he, hc⟩
    exact ⟨e, rule, hget, hp, he, hc⟩
  · rintro ⟨e, rule, hget, hp, he, hc⟩
    exact ⟨rule, hp, e, text, rule, hget, rfl, he, hc⟩

/-- A part of a rule is replaced if the text is read, the path leads to a part and the outcome is not too deep; the
text of the entry is then that of the whole. -/
theorem modify_eq_ok {path : Path} :
    c.modify id now path text = .ok (e', c') ↔ ∃ e part rule, c.get? id = some e ∧
      Rule.parse defaultDepthLimit text = .ok part ∧ e.rule.replace path part = .ok rule ∧
      rule.depth ≤ defaultDepthLimit ∧ e' = e.revise rule.render rule now ∧ c' = c.put id e' := by
  unfold modify
  simp only [bind_eq_ok, revise_eq_ok, Rule.checkDepth_eq_ok]
  constructor
  · rintro ⟨part, hp, e, _, rule, hget, ⟨_, hr, d, ⟨rfl, hd⟩, ⟨⟩⟩, he, hc⟩
    exact ⟨e, part, rule, hget, hp, hr, hd, he, hc⟩
  · rintro ⟨e, part, rule, hget, hp, hr, hd, he, hc⟩
    exact ⟨part, hp, e, rule.render, rule, hget, ⟨rule, hr, rule.depth, ⟨rfl, hd⟩, rfl⟩, he, hc⟩

theorem delete_eq_ok :
    c.delete id = .ok c' ↔ c.contains id = true ∧ c' = ⟨c.entries.filter (·.1 ≠ id)⟩ := by
  unfold delete
  split
  · rename_i h
    simp [h, eq_comm]
  · rename_i h
    simp [h]

/-! ## Runs -/

/-- A call that changes the catalog. The caller names the id of a new entry and the time. -/
inductive Call where
  | create (id now name text : String)
  | update (id now text : String)
  | modify (id now : String) (path : Path) (text : String)
  | delete (id : String)
  | clear
deriving DecidableEq

/-- The catalog that a call makes of another, unless it is refused. -/
def perform (c : Catalog) : Call → Except Fault Catalog
  | .create id now name text => (c.create id now name text).map (·.2)
  | .update id now text => (c.update id now text).map (·.2)
  | .modify id now path text => (c.modify id now path text).map (·.2)
  | .delete id => c.delete id
  | .clear => .ok empty

/-- The catalog after a call, refused or not. -/
def step (c : Catalog) (call : Call) : Catalog := (c.perform call).toOption.getD c

/-- The catalog after some calls from an empty one. -/
def run (calls : List Call) : Catalog := calls.foldl step empty

/-- A call leaves the catalog as it is, or is granted. -/
theorem step_cases (c : Catalog) (call : Call) : c.step call = c ∨ c.perform call = .ok (c.step call) := by
  unfold step
  cases c.perform call with
  | error e => exact .inl rfl
  | ok c' => exact .inr rfl

theorem run_append (calls : List Call) (call : Call) : run (calls ++ [call]) = (run calls).step call := by
  simp [run]

end Catalog
end Eligibility
