/-
Rules that text can express: every attribute is an attribute name and every number finite. Whatever is
read from text is of this form, and so is a rule with a part replaced by another such rule.
-/
import Eligibility.Proofs.Rule.Parsing
import Eligibility.Proofs.Token.Lexeme

namespace Eligibility

/-- The attribute is an attribute name, and the literal, if it is a number, finite. -/
def Comparison.WellFormed (c : Comparison) : Prop :=
  Token.isName c.name = true ∧ ∀ x, c.literal = .number x → x.isFinite = true

theorem Comparison.wellFormed_of_kinds {c : Comparison} (h : ∀ k ∈ c.kinds, k.WellFormed) : c.WellFormed := by
  refine ⟨h (.name c.name) (by simp [kinds]), fun x hx => ?_⟩
  exact h (.number x) (by simp [kinds, hx, Literal.kind])

namespace Rule

/-- Every comparison of the rule is of the form that text can express. -/
def WellFormed (r : Rule) : Prop := ∀ c ∈ r.leaves, c.WellFormed

theorem wellFormed_test {c : Comparison} : (test c).WellFormed ↔ c.WellFormed := by
  simp [WellFormed, leaves]

theorem wellFormed_join {k : Connective} {l r : Rule} :
    (join k l r).WellFormed ↔ l.WellFormed ∧ r.WellFormed := by
  simp only [WellFormed, leaves, List.mem_append]
  constructor
  · intro h
    exact ⟨fun c hc => h c (.inl hc), fun c hc => h c (.inr hc)⟩
  · rintro ⟨hl, hr⟩ c (hc | hc)
    · exact hl c hc
    · exact hr c hc

/-- A phrase of well-formed tokens stands for a well-formed rule. -/
theorem Derives.wellFormed {s : Phrase} {ks : List Token.Kind} {r : Rule} (h : Derives s ks r)
    (hks : ∀ k ∈ ks, k.WellFormed) : r.WellFormed := by
  induction h with
  | comparison c => exact wellFormed_test.2 (Comparison.wellFormed_of_kinds hks)
  | parens _ ih => exact ih fun k hk => hks k (by simp [hk])
  | single _ ih => exact ih hks
  | joined _ _ ihl ihr =>
    refine wellFormed_join.2 ⟨ihl fun k hk => hks k ?_, ihr fun k hk => hks k ?_⟩
    · exact List.mem_append_left _ hk
    · exact List.mem_append_right _ (List.mem_cons_of_mem _ hk)

/-- Whatever text is read, the rule is well formed, as its tokens are. -/
theorem wellFormed_of_parse {limit : Nat} {text : String} {r : Rule} (h : parse limit text = .ok r) :
    r.WellFormed := by
  obtain ⟨ts, hts, hd, -, -⟩ := parse_eq_ok.1 h
  refine hd.wellFormed fun k hk => ?_
  obtain ⟨t, ht, rfl⟩ := List.mem_map.1 hk
  exact Token.wellFormed_of_tokenize hts t ht

/-- A single comparison is within every limit that leaves room for a rule at all. -/
theorem depth_le_of_parse {limit : Nat} {text : String} {r : Rule} (h : parse limit text = .ok r)
    (pos : 0 < limit) : r.depth ≤ limit := by
  obtain ⟨_, -, -, -, hj⟩ := parse_eq_ok.1 h
  cases r with
  | test c => exact pos
  | join k left right => exact joinsWithin_join.1 hj

/-- A rule with a part replaced has its comparisons from the rule and from the part. -/
theorem wellFormed_of_replace {old part new : Rule} {p : Path} (h : old.replace p part = .ok new)
    (ho : old.WellFormed) (hp : part.WellFormed) : new.WellFormed := by
  fun_induction replace old p part generalizing new with
  | case1 => cases h; exact hp
  | case2 k l r p s ih =>
    obtain ⟨left, hleft, rfl⟩ := map_eq_ok.1 h
    obtain ⟨hl, hr⟩ := wellFormed_join.1 ho
    exact wellFormed_join.2 ⟨ih hleft hl hp, hr⟩
  | case3 k l r p s ih =>
    obtain ⟨right, hright, rfl⟩ := map_eq_ok.1 h
    obtain ⟨hl, hr⟩ := wellFormed_join.1 ho
    exact wellFormed_join.2 ⟨hl, ih hright hr hp⟩
  | case4 => cases h

end Rule
end Eligibility
