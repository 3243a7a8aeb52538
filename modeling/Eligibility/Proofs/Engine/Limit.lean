/-
The limit of depth at every way in. Three checks enforce it: the reader of JSON measures the rule that it
has read, the combiner carries a depth along, and the reader of text looks at the limit where it joins two
rules. A single comparison has no join, so the reader of text never holds it against the limit: a limit of
zero is the one that text can pass, and a single comparison the one rule that passes it.
-/
import Eligibility.Engine
import Eligibility.Proofs.Combination.Folding
import Eligibility.Proofs.Rule.Document
import Eligibility.Proofs.Rule.Rendering

namespace Eligibility

variable {limit : Nat} {r : Rule}

theorem Rule.depth_le_of_ofJson {text : String} (h : ofJson limit text = .ok r) : r.depth ≤ limit := by
  obtain ⟨r', -, h⟩ := bind_eq_ok.1 h
  obtain ⟨d, hd, h⟩ := bind_eq_ok.1 h
  cases h
  obtain ⟨rfl, within⟩ := checkDepth_eq_ok.1 hd
  exact within

theorem Combiner.depth_le_of_combineRules {c : Combiner} {rules : List Rule} (h : c.combineRules rules = .ok r) :
    r.depth ≤ c.depthLimit := by
  obtain ⟨_, _, -, -, within⟩ := combineRules_eq_ok.1 h
  exact within

theorem Combiner.depth_le_of_combine {c : Combiner} {texts : List String} (h : c.combine texts = .ok r) :
    r.depth ≤ c.depthLimit := by
  obtain ⟨rules, -, hr⟩ := combine_eq_ok h
  exact depth_le_of_combineRules hr

/-- Nothing but a comparison is read within a limit of zero. -/
theorem Rule.isTest_of_parse_zero {text : String} (h : parse 0 text = .ok r) : r.isTest = true := by
  obtain ⟨_, -, -, -, joins⟩ := parse_eq_ok.1 h
  cases r with
  | test c => rfl
  | join k left right =>
    -- a join is held against the limit, and has a depth above zero
    have within := joinsWithin_join.1 joins
    have pos := (join k left right).depth_pos
    omega

/-- Text keeps to every limit but zero. -/
theorem Rule.depth_le_iff_of_parse {text : String} (h : parse limit text = .ok r) : r.depth ≤ limit ↔ 0 < limit := by
  constructor
  · intro within
    exact Nat.lt_of_lt_of_le r.depth_pos within
  · exact depth_le_of_parse h

/-- The text of a single comparison is read within every limit, zero included. -/
theorem Rule.parse_render_test {c : Comparison} (h : c.WellFormed) (limit : Nat) :
    parse limit (test c).render = .ok (test c) :=
  (parse_render_eq_ok (wellFormed_test.2 h)).2 ⟨rfl, nestedWithin_kinds limit c, joinsWithin_test limit c⟩

namespace Engine

/-- Whatever is read from JSON, combined from rules or combined from texts is within the limit. What is read
from text is so just if the limit is positive; within a limit of zero it is a single comparison. -/
theorem depth_at_every_entry (limit : Nat) :
    (∀ text r, Rule.ofJson limit text = .ok r → r.depth ≤ limit) ∧
    (∀ c : Combiner, c.depthLimit = limit → ∀ rules r, c.combineRules rules = .ok r → r.depth ≤ limit) ∧
    (∀ c : Combiner, c.depthLimit = limit → ∀ texts r, c.combine texts = .ok r → r.depth ≤ limit) ∧
    (∀ e : Engine, e.combiner.depthLimit = limit → ∀ texts r, e.combineRules texts = .ok r → r.depth ≤ limit) ∧
    (∀ text r, Rule.parse limit text = .ok r → (r.depth ≤ limit ↔ 0 < limit) ∧ (limit = 0 → r.isTest = true)) ∧
    ∀ e : Engine, e.combiner.depthLimit = limit → ∀ text r, e.createRule text = .ok r →
      (r.depth ≤ limit ↔ 0 < limit) ∧ (limit = 0 → r.isTest = true) := by
  have text : ∀ text r, Rule.parse limit text = .ok r →
      (r.depth ≤ limit ↔ 0 < limit) ∧ (limit = 0 → r.isTest = true) := by
    intro text r h
    refine ⟨Rule.depth_le_iff_of_parse h, ?_⟩
    rintro rfl
    exact Rule.isTest_of_parse_zero h
  refine ⟨fun _ _ h => Rule.depth_le_of_ofJson h, ?_, ?_, ?_, text, ?_⟩
  · rintro c rfl rules r h
    exact Combiner.depth_le_of_combineRules h
  · rintro c rfl texts r h
    exact Combiner.depth_le_of_combine h
  · rintro e rfl texts r h
    exact Combiner.depth_le_of_combine h
  · rintro e rfl t r h
    exact text t r h

/-- A rule as deep as the limit, by every way in. -/
theorem depth_at_every_entry_two :
    let dept : Rule := .test ⟨"dept", .equal, .text "Sales"⟩
    let city : Rule := .test ⟨"city", .notEqual, .text "Rome"⟩
    let r : Rule := .join .and dept city
    let e : Engine := ⟨.empty, ⟨.and, true, 2⟩, true⟩
    (Rule.ofJson 2 r.toJson.compact = .ok r ∧ e.combiner.combineRules [dept, city] = .ok r ∧
      e.combineRules [dept.render, city.render] = .ok r ∧ e.createRule r.render = .ok r) ∧ r.depth ≤ 2 := by
  intro dept city r e
  have hdept : dept.WellFormed := Rule.wellFormed_test.2 ⟨by decide, by rintro _ ⟨⟩⟩
  have hcity : city.WellFormed := Rule.wellFormed_test.2 ⟨by decide, by rintro _ ⟨⟩⟩
  have h : r.WellFormed := Rule.wellFormed_join.2 ⟨hdept, hcity⟩
  have json : Rule.ofJson 2 r.toJson.compact = .ok r := by
    rw [Rule.ofJson, Rule.ofJsonText_written h (by simp)]
    rfl
  have rules : e.combiner.combineRules [dept, city] = .ok r := rfl
  have texts : e.combineRules [dept.render, city.render] = .ok r := by
    have read : [dept.render, city.render].mapM (Rule.parse 2) = .ok [dept, city] := by
      rw [List.mapM_cons, List.mapM_cons, Rule.parse_render hdept (by decide), Rule.parse_render hcity (by decide)]
      rfl
    show Combiner.combine ⟨.and, true, 2⟩ [dept.render, city.render] = _
    rw [Combiner.combine, read]
    rfl
  have text : e.createRule r.render = .ok r := Rule.parse_render h (by decide)
  obtain ⟨-, -, -, -, -, created⟩ := depth_at_every_entry 2
  exact ⟨⟨json, rules, texts, text⟩, ((created e rfl r.render r text).1).2 (by decide)⟩

/-- A single comparison, which has a depth of one, is read within a limit of zero. -/
theorem parse_exceeds_limit_zero :
    Rule.parse 0 "a = 'x'" = .ok (.test ⟨"a", .equal, .text "x"⟩) ∧
      ¬ (Rule.test ⟨"a", .equal, .text "x"⟩).depth ≤ 0 := by
  have written : (Rule.test ⟨"a", .equal, .text "x"⟩).render = "a = 'x'" := by decide
  have read := Rule.parse_render_test (c := ⟨"a", .equal, .text "x"⟩) ⟨by decide, by rintro _ ⟨⟩⟩ 0
  rw [written] at read
  exact ⟨read, by decide⟩

end Engine
end Eligibility
