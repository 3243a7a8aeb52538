/-
What a catalog says of a rule, it says three times: as text, as a rule and as the attributes that the
rule names. The three agree after any run of calls. Creation and update keep the text of the caller, so
it is what the rule was read from; a modification prints the new rule, so its text has to read back.
-/
import Eligibility.Proofs.Catalog.Calls
import Eligibility.Proofs.Rule.Rendering

namespace Eligibility

/-- An entry that fits the id it is stored under: its text stands for its rule, its attributes are those
that the rule names, and the rule is within the limit of depth. -/
structure Entry.Consistent (id : String) (e : Entry) : Prop where
  id : e.id = id
  text : Rule.parse defaultDepthLimit e.text = .ok e.rule
  attributes : e.attributes = e.rule.names
  depth : e.rule.depth ≤ defaultDepthLimit

theorem Entry.consistent_create {id name text now : String} {rule : Rule}
    (h : Rule.parse defaultDepthLimit text = .ok rule) : (Entry.create id name text rule now).Consistent id :=
  ⟨rfl, h, rfl, Rule.depth_le_of_parse h (by decide)⟩

theorem Entry.Consistent.revise {id text now : String} {e : Entry} {rule : Rule} (he : e.Consistent id)
    (h : Rule.parse defaultDepthLimit text = .ok rule) : (e.revise text rule now).Consistent id :=
  ⟨he.id, h, rfl, Rule.depth_le_of_parse h (by decide)⟩

/-- A rule that a part was put into prints as a text that stands for it. -/
theorem Entry.Consistent.parse_replace {id text : String} {e : Entry} {path : Path} {part rule : Rule}
    (he : e.Consistent id) (hpart : Rule.parse defaultDepthLimit text = .ok part)
    (hreplace : e.rule.replace path part = .ok rule) (hdepth : rule.depth ≤ defaultDepthLimit) :
    Rule.parse defaultDepthLimit rule.render = .ok rule := by
  have old := Rule.wellFormed_of_parse he.text
  have new := Rule.wellFormed_of_parse hpart
  exact Rule.parse_render (Rule.wellFormed_of_replace hreplace old new) hdepth

namespace Catalog

/-- Every entry fits the id it is stored under. -/
def Consistent (c : Catalog) : Prop := ∀ id e, (id, e) ∈ c.entries → e.Consistent id

theorem consistent_empty : empty.Consistent := by rintro _ _ ⟨⟩

theorem Consistent.put {c : Catalog} {id : String} {e : Entry} (h : c.Consistent) (he : e.Consistent id) :
    (c.put id e).Consistent := by
  intro key old hold
  rcases mem_put hold with heq | hold
  · cases heq
    exact he
  · exact h key old hold

theorem Consistent.perform {c c' : Catalog} {call : Call} (h : c.Consistent) (hc : c.perform call = .ok c') :
    c'.Consistent := by
  cases call with
  | create id now name text =>
    obtain ⟨⟨e', _⟩, hcreate, rfl⟩ := map_eq_ok.1 hc
    obtain ⟨rule, hp, rfl, rfl⟩ := create_eq_ok.1 hcreate
    exact h.put (Entry.consistent_create hp)
  | update id now text =>
    obtain ⟨⟨e', _⟩, hupdate, rfl⟩ := map_eq_ok.1 hc
    obtain ⟨e, rule, hget, hp, rfl, rfl⟩ := update_eq_ok.1 hupdate
    exact h.put ((h id e (mem_of_get? hget)).revise hp)
  | modify id now path text =>
    obtain ⟨⟨e', _⟩, hmodify, rfl⟩ := map_eq_ok.1 hc
    obtain ⟨e, part, rule, hget, hp, hr, hd, rfl, rfl⟩ := modify_eq_ok.1 hmodify
    -- the text of the entry is printed, so it is its reading back that keeps the entry consistent
    have he := h id e (mem_of_get? hget)
    exact h.put (he.revise (he.parse_replace hp hr hd))
  | delete id =>
    obtain ⟨-, rfl⟩ := delete_eq_ok.1 hc
    intro key old hold
    exact h key old (List.mem_filter.1 hold).1
  | clear =>
    cases hc
    exact consistent_empty

theorem Consistent.step {c : Catalog} (h : c.Consistent) (call : Call) : (c.step call).Consistent := by
  rcases step_cases c call with heq | hc
  · rw [heq]
    exact h
  · exact h.perform hc

/-- After any calls from an empty catalog, refused ones among them, every entry fits its id. -/
theorem consistent_run (calls : List Call) : (run calls).Consistent := by
  -- on the last call, since a run goes on from the catalog it has reached
  induction calls using List.reverseRecOn with
  | nil => exact consistent_empty
  | append_singleton calls call ih =>
    rw [run_append]
    exact ih.step call

end Catalog
end Eligibility
