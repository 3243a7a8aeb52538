/-
Targets through JSON. Texts of targets are read within a limit of nesting, and the document of a target puts one
container around those of its rule: one for each node on the way to the deepest predicate, and the predicate
itself. Main statement: the target of a rule that was read from text is read back from its JSON text just if its
depth and these two are within the limit, and is refused otherwise, although catalogs admit deeper rules.
-/
import Eligibility.Proofs.Rule.Document
import Eligibility.Proofs.Rule.Rendering
import Eligibility.Target

namespace Eligibility.Target

variable {r : Rule} {write : Json → String}

theorem expressible_tree (h : r.WellFormed) : (tree r).toJson.Expressible := by
  refine Json.expressible_object ?_
  simp only [List.forall_mem_cons, Option.isSome_some, true_and]
  exact ⟨h.expressible, by simp⟩

/-- A document with the member of its rule alone is read as the rule is. -/
theorem ofDocument_tree (r : Rule) : ofDocument (tree r).toJson = (Node.read room r.toJson).map tree := by
  rw [toJson, ofDocument, ofMember]
  cases Node.read room r.toJson <;> rfl

/-- The target of a rule is read back where its document nests within the limit. -/
theorem ofJson_tree (h : r.WellFormed) (hw : write ∈ [Json.compact, Json.pretty]) :
    ofJson (write (tree r).toJson) =
      if r.depth + 2 ≤ Json.nestingLimit then .ok (tree r) else .error .badDocument := by
  have fits : room.fits (r.depth + 1) = decide (r.depth + 2 ≤ Json.nestingLimit) := by
    simp only [room, Node.Room.fits, Option.all_some, Json.nestingLimit]
    exact decide_eq_decide.2 (by omega)
  rw [ofJson, Json.read_written (expressible_tree h) hw]
  dsimp only
  rw [ofDocument_tree, Rule.read_toJson h, fits]
  simp only [decide_eq_true_eq]
  split <;> rfl

/-- The target of a rule that was read from text is read back from its JSON text, compact or indented, and is then
equal to itself as numbers are compared, just if its document nests within the limit. A deeper one is refused. -/
theorem ofJson_written_within_nesting {text : String} (h : Rule.parse defaultDepthLimit text = .ok r) :
    ∀ write ∈ [Json.compact, Json.pretty],
      (r.depth + 2 ≤ Json.nestingLimit → ofJson (write (tree r).toJson) = .ok (tree r) ∧ (r == r) = true) ∧
      (Json.nestingLimit < r.depth + 2 → ofJson (write (tree r).toJson) = .error .badDocument) := by
  intro write hw
  have wellFormed := Rule.wellFormed_of_parse h
  rw [ofJson_tree wellFormed hw]
  constructor
  · intro within
    exact ⟨if_pos within, Rule.beq_self wellFormed.nanFree⟩
  · intro deeper
    exact if_neg (Nat.not_le.2 deeper)

/-! ## Chains -/

/-- A comparison in conjunction with itself some times more. -/
def chain : ℕ → Rule
  | 0 => .test ⟨"a", .equal, .text "x"⟩
  | n + 1 => .join .and (chain n) (.test ⟨"a", .equal, .text "x"⟩)

theorem depth_chain (n : ℕ) : (chain n).depth = n + 1 := by
  induction n with
  | zero => rfl
  | succ n ih => simp [chain, Rule.depth, ih]

theorem parse_chain {n : ℕ} (h : n < defaultDepthLimit) :
    Rule.parse defaultDepthLimit (chain n).render = .ok (chain n) := by
  have link : (Rule.test ⟨"a", .equal, .text "x"⟩).WellFormed := Rule.wellFormed_test.2 ⟨by decide, by rintro _ ⟨⟩⟩
  have wellFormed : (chain n).WellFormed := by
    clear h
    induction n with
    | zero => exact link
    | succ n ih => exact Rule.wellFormed_join.2 ⟨ih, link⟩
  exact Rule.parse_render wellFormed (by rwa [depth_chain])

/-- The deepest chain of which the target is read back, and the next one. -/
theorem ofJson_written_chains :
    Rule.parse defaultDepthLimit (chain 124).render = .ok (chain 124) ∧
    Rule.parse defaultDepthLimit (chain 125).render = .ok (chain 125) ∧
    ∀ write ∈ [Json.compact, Json.pretty],
      (ofJson (write (tree (chain 124)).toJson) = .ok (tree (chain 124)) ∧ (chain 124 == chain 124) = true) ∧
      ofJson (write (tree (chain 125)).toJson) = .error .badDocument := by
  have last := parse_chain (n := 124) (by decide)
  have next := parse_chain (n := 125) (by decide)
  refine ⟨last, next, fun write hw => ⟨?_, ?_⟩⟩
  · exact (ofJson_written_within_nesting last write hw).1 (by rw [depth_chain]; decide)
  · exact (ofJson_written_within_nesting next write hw).2 (by rw [depth_chain]; decide)

/-- A rule within the limit of catalogs need not be one that can be sent as a target. -/
theorem target_refused_at_126 :
    Rule.parse defaultDepthLimit (chain 125).render = .ok (chain 125) ∧
    ofJson (tree (chain 125)).toJson.compact = .error .badDocument := by
  have read := parse_chain (n := 125) (by decide)
  refine ⟨read, ?_⟩
  rw [ofJson_tree (Rule.wellFormed_of_parse read) List.mem_cons_self, if_neg (by rw [depth_chain]; decide)]

end Eligibility.Target
