/-
The ways in which a rule can be spelled as JSON. A comparison is a predicate or its own text, the children that a
comparison does not have are left out or `null`, and a connective stands in any letter case with any white space
around it; each node chooses for itself. Main statement: every spelling of a rule that text can express is read as
that rule, exactly within the limits that admit its depth.
-/
import Eligibility.Proofs.Rule.Document
import Eligibility.Proofs.Rule.PathText
import Eligibility.Proofs.Rule.Shape

namespace Eligibility

/-! ## Spellings -/

/-- The text is the keyword in any mix of letter cases, with white space around it. -/
def Connective.Spelling (k : Connective) (s : String) : Prop :=
  ∃ word, Text.Surrounds s.toList word ∧ List.Forall₂ (fun c upper => c = upper ∨ c = upper.toLower) word k.keyword.toList

/-- The document is the predicate of the comparison, or its text. -/
inductive Comparison.Spelling (c : Comparison) : Json → Prop
  | predicate : Spelling c c.toJson
  | text : Spelling c (.string c.render)

/-- The members say that there is no child of the key: there is none of that key, or it is `null`. -/
inductive Json.NoChild (key : String) : List (Json.Text × Json) → Prop
  | omitted : NoChild key []
  | null : NoChild key [(some key, .null)]

/-- The document spells the rule. -/
inductive Rule.Spelling : Rule → Json → Prop
  | test {c : Comparison} {value : Json} {left right : List (Json.Text × Json)} (value_spelling : c.Spelling value)
      (noLeft : Json.NoChild "left" left) (noRight : Json.NoChild "right" right) :
      Spelling (.test c) (.object ((some "type", .string "operand") :: (some "value", value) :: (left ++ right)))
  | join {k : Connective} {policy : String} {l r : Rule} {left right : Json} (policy_spelling : k.Spelling policy)
      (left_spelling : Spelling l left) (right_spelling : Spelling r right) :
      Spelling (.join k l r) (.object [(some "type", .string "operator"), (some "value", .string policy),
        (some "left", left), (some "right", right)])

/-! ## Connectives -/

namespace Connective

variable {k : Connective}

/-- A letter of a keyword is no white space and is made upper case again, in whatever case it is written. -/
theorem letter_of_mem_keyword {c upper : Char} (h : upper ∈ k.keyword.toList) (hc : c = upper ∨ c = upper.toLower) :
    Text.isBlank c = false ∧ c.toUpper = upper := by
  have letters : k.keyword.toList.all (fun u => !Text.isBlank u && !Text.isBlank u.toLower && u.toUpper = u &&
      u.toLower.toUpper = u) = true := by cases k <;> decide
  have letter := List.all_eq_true.1 letters upper h
  simp only [Bool.and_eq_true, Bool.not_eq_true', decide_eq_true_eq] at letter
  obtain ⟨⟨⟨noBlank, noBlankLower⟩, same⟩, sameLower⟩ := letter
  rcases hc with rfl | rfl
  · exact ⟨noBlank, same⟩
  · exact ⟨noBlankLower, sameLower⟩

theorem letters_of_forall₂ {word letters : List Char} (hmem : ∀ u ∈ letters, u ∈ k.keyword.toList)
    (h : List.Forall₂ (fun c upper => c = upper ∨ c = upper.toLower) word letters) :
    (∀ c ∈ word, Text.isBlank c = false) ∧ word.map Char.toUpper = letters := by
  induction h with
  | nil => exact ⟨nofun, rfl⟩
  | cons hc _ ih =>
    obtain ⟨here, later⟩ := List.forall_mem_cons.1 hmem
    obtain ⟨noBlank, upper⟩ := letter_of_mem_keyword here hc
    obtain ⟨noBlanks, uppers⟩ := ih later
    exact ⟨List.forall_mem_cons.2 ⟨noBlank, noBlanks⟩, by rw [List.map_cons, upper, uppers]⟩

theorem Spelling.ofPolicy? {s : String} (h : k.Spelling s) : ofPolicy? s = some k := by
  obtain ⟨word, surrounds, letters⟩ := h
  obtain ⟨noBlank, upper⟩ := letters_of_forall₂ (fun _ hu => hu) letters
  rw [ofPolicy?_eq_some, policyKey, surrounds.trim_eq noBlank, upper, String.ofList_toList]

end Connective

/-! ## Comparisons -/

/-- The text of a comparison stands for the comparison. -/
theorem Comparison.WellFormed.parse_render {c : Comparison} (h : c.WellFormed) : Comparison.parse c.render = .ok c := by
  obtain ⟨ts, tokens, kinds⟩ := h.spells.tokenize
  exact parse_eq_ok.2 ⟨ts, tokens, kinds⟩

/-- A spelling of a comparison is read as its predicate or as its text. -/
theorem Comparison.Spelling.read {c : Comparison} {j : Json} (h : c.Spelling j) (hc : c.WellFormed) :
    (j.isSound = true ∧ ofJson? j = some c) ∧ Token.isName c.name = true ∨
      ∃ s, j = .string s ∧ Comparison.parse s = .ok c := by
  cases h with
  | predicate => exact .inl ⟨⟨c.isSound_toJson, ofJson?_toJson hc⟩, hc.1⟩
  | text => exact .inr ⟨_, rfl, hc.parse_render⟩

/-! ## Nodes -/

namespace Json

variable {key : String} {ms : List (Text × Json)}

theorem NoChild.eq_null (h : NoChild key ms) {m : Text × Json} (hm : m ∈ ms) : m = (some key, .null) := by
  cases h with
  | omitted => cases hm
  | null => exact List.mem_singleton.1 hm

end Json

namespace Rule

variable {r : Rule} {j : Json}

theorem Spelling.ne_null (h : r.Spelling j) : j ≠ .null := by
  cases h <;> exact nofun

theorem Spelling.expressible (h : r.Spelling j) (hr : r.WellFormed) : j.Expressible := by
  induction h with
  | @test c value left right spelling noLeft noRight =>
    have expressibleValue : value.Expressible := by
      cases spelling with
      | predicate => exact (wellFormed_test.1 hr).expressible
      | text => exact Json.expressible_string _
    refine Json.expressible_object ?_
    simp only [List.forall_mem_cons, List.forall_mem_append, Option.isSome_some, true_and]
    refine ⟨Json.expressible_string _, expressibleValue, fun m hm => ?_, fun m hm => ?_⟩
    · rw [noLeft.eq_null hm]
      exact ⟨rfl, Json.expressible_null⟩
    · rw [noRight.eq_null hm]
      exact ⟨rfl, Json.expressible_null⟩
  | join _ _ _ ihl ihr =>
    obtain ⟨hl, hr⟩ := wellFormed_join.1 hr
    refine Json.expressible_object ?_
    simp only [List.forall_mem_cons, Option.isSome_some, true_and]
    exact ⟨Json.expressible_string _, Json.expressible_string _, ihl hl, ihr hr, List.forall_mem_nil _⟩

/-- A spelling of a rule is read as the rule: by induction on the spelling, since each node is spelled for itself. -/
theorem Spelling.read (h : r.Spelling j) (hr : r.WellFormed) : Node.read none j = .ok r := by
  induction h with
  | @test c value left right spelling noLeft noRight =>
    have value_read := spelling.read (wellFormed_test.1 hr)
    -- the children that are not there may be left out each for itself
    cases noLeft <;> cases noRight <;>
    · rw [Node.read_eq_test (by simp) (by simp)]
      exact ⟨⟨.string "operand", by simp, rfl⟩, ⟨value, by simp, value_read⟩, by simp, by simp⟩
  | @join k policy l r left right spelling leftSpelling rightSpelling ihl ihr =>
    obtain ⟨hl, hr⟩ := wellFormed_join.1 hr
    rw [Node.read_eq_join (by simp) (by simp)]
    exact ⟨⟨.string "operator", by simp, rfl⟩, ⟨policy, by simp, spelling.ofPolicy?⟩,
      ⟨left, by simp, leftSpelling.ne_null, ihl hl⟩, right, by simp, rightSpelling.ne_null, ihr hr⟩

/-! ## Texts -/

/-- Every spelling of a rule is read as the rule, from any text of it and whatever its nodes chose, within a limit that
admits the depth of the rule; a lower limit refuses it for its depth. Each spelling has a compact and an indented
text. -/
theorem ofJson_spelling (r : Rule) (h : r.WellFormed) (j : Json) (spelling : r.Spelling j) :
    (∀ write ∈ [Json.compact, Json.pretty], Json.document? (write j) = some j) ∧
    ∀ text, Json.document? text = some j → ∀ limit,
      (r.depth ≤ limit → ofJson limit text = .ok r ∧ (r == r) = true) ∧
      (limit < r.depth → ofJson limit text = .error (.badValue (.depthOverLimit r.depth limit))) := by
  constructor
  · intro write hw
    rw [Json.document?, Json.read_written (spelling.expressible h) hw]
  · intro text document limit
    rw [ofJson_eq_read document, spelling.read h, ok_bind, checkDepth]
    refine ⟨fun within => ?_, fun deeper => ?_⟩
    · rw [if_neg (by omega)]
      exact ⟨rfl, beq_self h.nanFree⟩
    · rw [if_pos deeper]
      rfl

/-- A predicate and a text, children left out and `null`, and connectives in odd letter cases between white space, at
the limits on either side of the depth. -/
theorem ofJson_spelling_mixed :
    let tag : Comparison := ⟨"user.tag", .notEqual, .text "it's \\ \n 中"⟩
    let debt : Comparison := ⟨"debt", .atMost, .number (.zero true)⟩
    let r : Rule := .join .and (.test tag) (.join .or (.test debt) (.test tag))
    let spelledTag : Json := .object [(some "type", .string "operand"), (some "value", .string tag.render),
      (some "right", .null)]
    let spelledDebt : Json := .object [(some "type", .string "operand"), (some "value", debt.toJson)]
    let j : Json := .object [(some "type", .string "operator"), (some "value", .string "\tanD\u3000"),
      (some "left", spelledTag), (some "right", .object [(some "type", .string "operator"), (some "value", .string "oR"),
        (some "left", spelledDebt), (some "right", spelledTag)])]
    r.WellFormed ∧ r.Spelling j ∧ Json.document? j.compact = some j ∧ Json.document? j.pretty = some j ∧
      ofJson 3 j.pretty = .ok r ∧ ofJson 2 j.pretty = .error (.badValue (.depthOverLimit 3 2)) := by
  intro tag debt r spelledTag spelledDebt j
  have htag : tag.WellFormed := ⟨by decide, by rintro _ ⟨⟩⟩
  have hdebt : debt.WellFormed := ⟨by decide, by rintro _ ⟨⟩; rfl⟩
  have h : r.WellFormed := wellFormed_join.2 ⟨wellFormed_test.2 htag,
    wellFormed_join.2 ⟨wellFormed_test.2 hdebt, wellFormed_test.2 htag⟩⟩
  have spellingTag : (Rule.test tag).Spelling spelledTag := .test .text .omitted .null
  have spellingDebt : (Rule.test debt).Spelling spelledDebt := .test .predicate .omitted .omitted
  have tab : ∀ c ∈ ['\t'], Text.isBlank c = true := List.forall_mem_singleton.2 rfl
  have wide : ∀ c ∈ ['\u3000'], Text.isBlank c = true := List.forall_mem_singleton.2 rfl
  have and : Connective.and.Spelling "\tanD\u3000" := ⟨['a', 'n', 'D'], ⟨['\t'], ['\u3000'], rfl, tab, wide⟩, by decide⟩
  have or : Connective.or.Spelling "oR" := ⟨['o', 'R'], ⟨[], [], rfl, nofun, nofun⟩, by decide⟩
  have spelling : r.Spelling j := .join and spellingTag (.join or spellingDebt spellingTag)
  obtain ⟨documents, reading⟩ := ofJson_spelling r h j spelling
  have compact := documents Json.compact (by simp)
  have pretty := documents Json.pretty (by simp)
  exact ⟨h, spelling, compact, pretty, ((reading _ pretty 3).1 (by decide)).1, (reading _ pretty 2).2 (by decide)⟩

end Rule

end Eligibility
