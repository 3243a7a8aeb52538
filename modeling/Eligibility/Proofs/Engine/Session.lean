/-
Sessions: rules are obtained from text and from JSON, rules that were obtained before are combined, taken apart
and put together again, and catalogs keep rules and give them out. Whatever the order in which this happens, and
whatever is refused on the way, every rule that is ever obtained is of the form that text can express.
-/
import Eligibility.Engine
import Eligibility.Proofs.Catalog.Calls
import Eligibility.Proofs.Rule.Origin

namespace Eligibility

/-- The rules that have been obtained, in order, and any number of catalogs. -/
structure Session where
  rules : List Rule
  catalogs : ℕ → Catalog

namespace Session

/-! ## Operations -/

/-- An operation that gives a rule or changes a catalog. Rules that were obtained before are named by their
places, catalogs by their numbers. -/
inductive Operation where
  | parse (limit : ℕ) (text : String)
  | parseComparison (text : String)
  | readJson (limit : ℕ) (text : String)
  | readTarget (text : String)
  | combineTexts (combiner : Combiner) (texts : List String)
  | combineRules (combiner : Combiner) (places : List ℕ)
  | part (place : ℕ) (path : Path)
  | replace (place : ℕ) (path : Path) (new : ℕ)
  | create (catalog : ℕ) (id now name text : String)
  | update (catalog : ℕ) (id now text : String)
  | modify (catalog : ℕ) (id now : String) (path : Path) (text : String)
  | delete (catalog : ℕ) (id : String)
  | clear (catalog : ℕ)
  | rule (catalog : ℕ) (id : String)
  | combineEntries (catalog : ℕ) (combiner : Combiner) (ids : List String)

/-- Nothing has been obtained, and every catalog is empty. -/
def empty : Session := ⟨[], fun _ => .empty⟩

/-- The session after a rule was obtained. -/
def keep (s : Session) (r : Rule) : Session := { s with rules := s.rules ++ [r] }

/-- The session after a target was read, which need not hold a rule. -/
def keepTarget (s : Session) : Target → Session
  | .tree r => s.keep r
  | .reference _ => s

/-- The session with another catalog under a number. -/
def setCatalog (s : Session) (n : ℕ) (c : Catalog) : Session := { s with catalogs := Function.update s.catalogs n c }

/-- The session after a catalog took an entry, whose rule is handed out with it. -/
def keepEntry (s : Session) (n : ℕ) (changed : Entry × Catalog) : Session :=
  (s.setCatalog n changed.2).keep changed.1.rule

/-- The session after an operation, unless it is refused or names a rule that there is not. Of several places,
those of no rule are passed over. -/
def perform (s : Session) : Operation → Option Session
  | .parse limit text => (Rule.parse limit text).toOption.map s.keep
  | .parseComparison text => (Comparison.parse text).toOption.map fun c => s.keep (.test c)
  | .readJson limit text => (Rule.ofJson limit text).toOption.map s.keep
  | .readTarget text => (Target.ofJson text).toOption.map s.keepTarget
  | .combineTexts combiner texts => (combiner.combine texts).toOption.map s.keep
  | .combineRules combiner places => (combiner.combineRules (places.filterMap (s.rules[·]?))).toOption.map s.keep
  | .part place path => do
    let r ← s.rules[place]?
    (r.at? path).map s.keep
  | .replace place path new => do
    let r ← s.rules[place]?
    let part ← s.rules[new]?
    (r.replace path part).toOption.map s.keep
  | .create n id now name text => ((s.catalogs n).create id now name text).toOption.map (s.keepEntry n)
  | .update n id now text => ((s.catalogs n).update id now text).toOption.map (s.keepEntry n)
  | .modify n id now path text => ((s.catalogs n).modify id now path text).toOption.map (s.keepEntry n)
  | .delete n id => ((s.catalogs n).delete id).toOption.map (s.setCatalog n)
  | .clear n => some (s.setCatalog n .empty)
  | .rule n id => ((s.catalogs n).rule id).toOption.map s.keep
  | .combineEntries n combiner ids => ((s.catalogs n).combine ids combiner).toOption.map s.keep

/-- The session after an operation, refused or not. -/
def step (s : Session) (op : Operation) : Session := (s.perform op).getD s

/-- The session after some operations, from nothing. -/
def run (ops : List Operation) : Session := ops.foldl step empty

theorem run_append (ops : List Operation) (op : Operation) : run (ops ++ [op]) = (run ops).step op := by
  simp [run]

/-! ## What has been obtained is well formed -/

/-- Every rule that was obtained is well formed, and so is every rule that a catalog keeps. -/
structure WellFormed (s : Session) : Prop where
  rules : ∀ r ∈ s.rules, r.WellFormed
  entries : ∀ n, ∀ p ∈ (s.catalogs n).entries, p.2.rule.WellFormed

theorem wellFormed_empty : empty.WellFormed := ⟨by rintro _ ⟨⟩, by rintro _ _ ⟨⟩⟩

section WellFormed

variable {s : Session} (hs : s.WellFormed)
include hs

theorem WellFormed.keep {r : Rule} (hr : r.WellFormed) : (s.keep r).WellFormed := by
  refine ⟨fun r' hr' => ?_, hs.entries⟩
  rcases List.mem_append.1 hr' with hr' | hr'
  · exact hs.rules r' hr'
  · obtain rfl := List.mem_singleton.1 hr'
    exact hr

theorem WellFormed.setCatalog {n : ℕ} {c : Catalog} (hc : ∀ p ∈ c.entries, p.2.rule.WellFormed) :
    (s.setCatalog n c).WellFormed := by
  refine ⟨hs.rules, fun m => ?_⟩
  by_cases hm : m = n
  · subst hm
    simpa [Session.setCatalog] using hc
  · simpa [Session.setCatalog, hm] using hs.entries m

/-- An entry with a well-formed rule may be put into a catalog, and its rule handed out. -/
theorem WellFormed.keepEntry {n : ℕ} {id : String} {e : Entry} (he : e.rule.WellFormed) :
    (s.keepEntry n (e, (s.catalogs n).put id e)).WellFormed := by
  refine (hs.setCatalog fun p hp => ?_).keep he
  rcases Catalog.mem_put hp with rfl | hp
  · exact he
  · exact hs.entries n p hp

theorem WellFormed.of_get? {n : ℕ} {id : String} {e : Entry} (h : (s.catalogs n).get? id = some e) :
    e.rule.WellFormed :=
  hs.entries n _ (Catalog.mem_of_get? h)

theorem WellFormed.of_rule {n : ℕ} {id : String} {r : Rule} (h : (s.catalogs n).rule id = .ok r) : r.WellFormed := by
  unfold Catalog.rule at h
  split at h <;> cases h
  exact hs.of_get? ‹_›

/-- The entries of a catalog are combined as they are kept, and so into a well-formed rule. -/
theorem WellFormed.of_combine {n : ℕ} {combiner : Combiner} {ids : List String} {r : Rule}
    (h : (s.catalogs n).combine ids combiner = .ok r) : r.WellFormed := by
  unfold Catalog.combine at h
  split at h
  · cases h
  · obtain ⟨rules, hrules, h⟩ := bind_eq_ok.1 h
    refine Combiner.wellFormed_of_combineRules h fun r hr => ?_
    obtain ⟨id, -, hid⟩ := exists_of_mem_mapM hrules r hr
    exact hs.of_rule hid

/-- Each operation gives well-formed rules if those that it is given are. -/
theorem WellFormed.perform {s' : Session} {op : Operation} (h : s.perform op = some s') : s'.WellFormed := by
  cases op with
  | parse limit text =>
    obtain ⟨r, hr, rfl⟩ := toOption_map_eq_some.1 h
    exact hs.keep (Rule.wellFormed_of_parse hr)
  | parseComparison text =>
    obtain ⟨c, hc, rfl⟩ := toOption_map_eq_some.1 h
    exact hs.keep (Rule.wellFormed_test.2 (Comparison.wellFormed_of_parse hc))
  | readJson limit text =>
    obtain ⟨r, hr, rfl⟩ := toOption_map_eq_some.1 h
    exact hs.keep (Rule.wellFormed_of_ofJson hr)
  | readTarget text =>
    obtain ⟨r | id, htarget, rfl⟩ := toOption_map_eq_some.1 h
    · exact hs.keep (Target.wellFormed_of_ofJson htarget)
    · exact hs
  | combineTexts combiner texts =>
    obtain ⟨r, hr, rfl⟩ := toOption_map_eq_some.1 h
    exact hs.keep (Combiner.wellFormed_of_combine hr)
  | combineRules combiner places =>
    obtain ⟨r, hr, rfl⟩ := toOption_map_eq_some.1 h
    refine hs.keep (Combiner.wellFormed_of_combineRules hr fun r hr => ?_)
    obtain ⟨place, -, hplace⟩ := List.mem_filterMap.1 hr
    exact hs.rules r (List.mem_of_getElem? hplace)
  | part place path =>
    obtain ⟨r, hplace, h⟩ := Option.bind_eq_some_iff.1 h
    obtain ⟨part, hpart, rfl⟩ := Option.map_eq_some_iff.1 h
    exact hs.keep ((hs.rules r (List.mem_of_getElem? hplace)).at? hpart)
  | replace place path new =>
    obtain ⟨r, hplace, h⟩ := Option.bind_eq_some_iff.1 h
    obtain ⟨part, hnew, h⟩ := Option.bind_eq_some_iff.1 h
    obtain ⟨r', hr', rfl⟩ := toOption_map_eq_some.1 h
    -- the rule and its new part were both obtained before
    have old := hs.rules r (List.mem_of_getElem? hplace)
    have inserted := hs.rules part (List.mem_of_getElem? hnew)
    exact hs.keep (Rule.wellFormed_of_replace hr' old inserted)
  | create n id now name text =>
    obtain ⟨⟨e, c⟩, hcreate, rfl⟩ := toOption_map_eq_some.1 h
    obtain ⟨rule, hrule, rfl, rfl⟩ := Catalog.create_eq_ok.1 hcreate
    exact hs.keepEntry (Rule.wellFormed_of_parse hrule)
  | update n id now text =>
    obtain ⟨⟨e, c⟩, hupdate, rfl⟩ := toOption_map_eq_some.1 h
    obtain ⟨old, rule, -, hrule, rfl, rfl⟩ := Catalog.update_eq_ok.1 hupdate
    exact hs.keepEntry (Rule.wellFormed_of_parse hrule)
  | modify n id now path text =>
    obtain ⟨⟨e, c⟩, hmodify, rfl⟩ := toOption_map_eq_some.1 h
    obtain ⟨old, part, rule, hget, hpart, hrule, -, rfl, rfl⟩ := Catalog.modify_eq_ok.1 hmodify
    -- the rule was kept by the catalog, and the part comes from the text
    exact hs.keepEntry (Rule.wellFormed_of_replace hrule (hs.of_get? hget) (Rule.wellFormed_of_parse hpart))
  | delete n id =>
    obtain ⟨c, hdelete, rfl⟩ := toOption_map_eq_some.1 h
    obtain ⟨-, rfl⟩ := Catalog.delete_eq_ok.1 hdelete
    exact hs.setCatalog fun p hp => hs.entries n p (List.mem_filter.1 hp).1
  | clear n =>
    cases h
    exact hs.setCatalog (by rintro _ ⟨⟩)
  | rule n id =>
    obtain ⟨r, hr, rfl⟩ := toOption_map_eq_some.1 h
    exact hs.keep (hs.of_rule hr)
  | combineEntries n combiner ids =>
    obtain ⟨r, hr, rfl⟩ := toOption_map_eq_some.1 h
    exact hs.keep (hs.of_combine hr)

theorem WellFormed.step (op : Operation) : (s.step op).WellFormed := by
  unfold Session.step
  cases h : s.perform op with
  | none => exact hs
  | some s' => exact hs.perform h

end WellFormed

/-- Whatever is done, and whatever of it is refused, all that has been obtained is well formed. -/
theorem wellFormed_run (ops : List Operation) : (run ops).WellFormed := by
  -- on the last operation, since a run goes on from the session it has reached
  induction ops using List.reverseRecOn with
  | nil => exact wellFormed_empty
  | append_singleton ops op ih =>
    rw [run_append]
    exact ih.step op

/-- Every rule that is obtained in a session is well formed: its attributes have the form of names and its numbers
are finite. None of its attributes is a keyword. -/
theorem rules_of_run_wellFormed (ops : List Operation) :
    (∀ r ∈ (run ops).rules, r.WellFormed) ∧
    ∀ r ∈ (run ops).rules, ∀ c ∈ r.leaves, ∀ k : Connective, c.name ≠ k.keyword := by
  have obtained := (wellFormed_run ops).rules
  refine ⟨obtained, fun r hr c hc k hk => ?_⟩
  have name := (obtained r hr c hc).1
  rw [hk] at name
  cases k <;> cases name

example : (run [.parse 3 "a > 1 OR b = 'x'", .parseComparison "AND = 1", .part 0 [.left],
    .combineRules ⟨.and, true, 4⟩ [0, 1, 0], .create 0 "id" "now" "name" "c = 2",
    .modify 0 "id" "later" [] "d = 3 AND e = 4", .rule 0 "id"]).rules.map Rule.size = [3, 1, 5, 1, 3, 3] := by
  decide +kernel

end Session
end Eligibility
