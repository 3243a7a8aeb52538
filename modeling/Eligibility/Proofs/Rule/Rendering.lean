/-
Rules printed and read back. The text of a rule is spelled by the tokens that the grammar derives the
rule from, with parentheses around every join inside another, and those open no deeper than the rule
itself. So the text reads back within every limit that admits the rule's depth, and within no lower one.
-/
import Eligibility.Proofs.Rule.WellFormed
import Eligibility.Proofs.Token.Number

namespace Eligibility

/-! ## The tokens of a printed rule -/

namespace Rule

/-- The tokens of a rule as a part of another: a join has parentheses. -/
def partKinds : Rule → List Token.Kind
  | test c => c.kinds
  | join k l r => .openParen :: (l.partKinds ++ .connective k :: r.partKinds) ++ [.closeParen]

/-- The tokens of a rule, in which every join inside another has parentheses of its own. -/
def kinds : Rule → List Token.Kind
  | test c => c.kinds
  | join k l r => l.partKinds ++ .connective k :: r.partKinds

theorem Derives.join_terms {k : Connective} {ks ls : List Token.Kind} {l r : Rule} (hl : Derives .term ks l)
    (hr : Derives .term ls r) : Derives (.chain .or) (ks ++ .connective k :: ls) (.join k l r) := by
  cases k with
  | and => exact .single (.joined (.single hl) hr)
  | or => exact .joined (.single (.single hl)) (.single hr)

theorem derives_partKinds (r : Rule) : Derives .term r.partKinds r := by
  induction r with
  | test c => exact .comparison c
  | join k l r ihl ihr => exact .parens (ihl.join_terms ihr)

theorem derives_kinds (r : Rule) : Derives (.chain .or) r.kinds r := by
  cases r with
  | test c => exact .single (.single (.comparison c))
  | join k l r => exact l.derives_partKinds.join_terms r.derives_partKinds

/-- A part opens as many parentheses as its depth, less the level of its comparisons. -/
theorem nestedWithin_partKinds {r : Rule} {limit : Nat} (h : r.depth ≤ limit + 1) :
    NestedWithin limit r.partKinds := by
  induction r generalizing limit with
  | test c => exact nestedWithin_kinds limit c
  | join k l r ihl ihr =>
    simp only [depth] at h
    -- the sides take a level at least, so there is room for the parentheses around them
    have := l.depth_pos
    obtain ⟨room, rfl⟩ : ∃ room, limit = room + 1 := ⟨limit - 1, by omega⟩
    refine nestedWithin_parens.2 ⟨room, rfl, ?_⟩
    rw [nestedWithin_joined l.derives_partKinds.openParens_eq_zero]
    exact ⟨ihl (by omega), ihr (by omega)⟩

theorem nestedWithin_rendered {r : Rule} {limit : Nat} (h : r.depth ≤ limit) : NestedWithin limit r.kinds := by
  cases r with
  | test c => exact nestedWithin_kinds limit c
  | join k l r =>
    simp only [depth] at h
    rw [kinds, nestedWithin_joined l.derives_partKinds.openParens_eq_zero]
    exact ⟨nestedWithin_partKinds (by omega), nestedWithin_partKinds (by omega)⟩

end Rule

/-! ## The text spells the tokens -/

theorem Comparison.WellFormed.spells {c : Comparison} (h : c.WellFormed) : Token.Spells c.renderChars c.kinds := by
  have literal : Token.Spells c.literal.render [c.literal.kind] := by
    cases hc : c.literal with
    | number x => exact Token.spells_number (h.2 x hc)
    | text s => exact Token.spells_quote s
  exact ((Token.spells_name h.1).spaced (Token.spells_symbol _)).spaced literal

namespace Rule

theorem spells_join {k : Connective} {cs ds : List Char} {ks ls : List Token.Kind} (hl : Token.Spells cs ks)
    (hr : Token.Spells ds ls) :
    Token.Spells (cs ++ ' ' :: k.keyword.toList ++ ' ' :: ds) (ks ++ .connective k :: ls) := by
  have := (hl.spaced (Token.spells_keyword k)).spaced hr
  rwa [List.append_assoc ks, List.singleton_append] at this

theorem WellFormed.spells_renderPart {r : Rule} (h : r.WellFormed) : Token.Spells r.renderPart r.partKinds := by
  induction r with
  | test c => exact (wellFormed_test.1 h).spells
  | join k l r ihl ihr =>
    obtain ⟨hl, hr⟩ := wellFormed_join.1 h
    exact (spells_join (ihl hl) (ihr hr)).parens

theorem WellFormed.spells {r : Rule} (h : r.WellFormed) : Token.Spells r.renderChars r.kinds := by
  cases r with
  | test c => exact (wellFormed_test.1 h).spells
  | join k l r =>
    obtain ⟨hl, hr⟩ := wellFormed_join.1 h
    exact spells_join hl.spells_renderPart hr.spells_renderPart

/-! ## Reading back -/

/-- A printed rule can be read as nothing else, and the two limits decide whether it is read at all. -/
theorem parse_render_eq_ok {r r' : Rule} (h : r.WellFormed) {limit : Nat} :
    parse limit r.render = .ok r' ↔ r' = r ∧ NestedWithin limit r.kinds ∧ r.JoinsWithin limit := by
  obtain ⟨ts, hts, hks⟩ := h.spells.tokenize
  rw [parse_eq_ok]
  constructor
  · rintro ⟨ts', hts', hd, hn, hj⟩
    obtain rfl : ts = ts' := Except.ok.inj (hts.symm.trans hts')
    rw [hks] at hd hn
    obtain rfl := hd.unique r.derives_kinds
    exact ⟨rfl, hn, hj⟩
  · rintro ⟨rfl, hn, hj⟩
    exact ⟨ts, hts, hks ▸ r'.derives_kinds, hks ▸ hn, hj⟩

theorem parse_render {r : Rule} (h : r.WellFormed) {limit : Nat} (hd : r.depth ≤ limit) :
    parse limit r.render = .ok r :=
  (parse_render_eq_ok h).2 ⟨rfl, nestedWithin_rendered hd, joinsWithin_of_depth_le hd⟩

/-- The text of a rule reads back as the rule within a limit that admits its depth; within a lower one
the text of a join is refused with a fault of rule text. -/
theorem parse_render_at_limit (r : Rule) (h : r.WellFormed) (limit : Nat) :
    (r.depth ≤ limit → parse limit r.render = .ok r) ∧
    (limit < r.depth → r.isTest = false →
      ∃ position fault, parse limit r.render = .error (.badRule position fault)) := by
  refine ⟨parse_render h, fun hd hj => ?_⟩
  cases hp : parse limit r.render with
  | error e =>
    obtain ⟨position, fault, rfl⟩ := syntaxOnly_parse limit _ e hp
    exact ⟨position, fault, rfl⟩
  | ok r' =>
    obtain ⟨-, -, joins⟩ := (parse_render_eq_ok h).1 hp
    cases r with
    | test c => cases hj
    | join k left right => exact absurd (joinsWithin_join.1 joins) (Nat.not_le.2 hd)

/-- A quoted text with both escapes, a keyword inside a name, a number with a fraction, and conjunctions
that lean to the right. -/
theorem parse_render_mixed_rule :
    let tag : Rule := .test ⟨"user.tag", .notEqual, .text "it's \\ \n 中"⟩
    let level : Rule := .test ⟨"ORDER", .atLeast, .number (.ofDecimal ⟨true, 1, -1⟩)⟩
    let r : Rule := .join .and tag (.join .and level (.join .or tag level))
    r.WellFormed ∧ parse 4 r.render = .ok r ∧
      ∃ position fault, parse 3 r.render = .error (.badRule position fault) := by
  intro tag level r
  have htag : tag.WellFormed := wellFormed_test.2 ⟨by decide, by rintro _ ⟨⟩⟩
  have hlevel : level.WellFormed := wellFormed_test.2 ⟨by decide, by rintro _ ⟨⟩; decide +kernel⟩
  have h : r.WellFormed :=
    wellFormed_join.2 ⟨htag, wellFormed_join.2 ⟨hlevel, wellFormed_join.2 ⟨htag, hlevel⟩⟩⟩
  exact ⟨h, (parse_render_at_limit r h 4).1 (by decide), (parse_render_at_limit r h 3).2 (by decide) rfl⟩

end Rule
end Eligibility
