/-
Attribute names. A name is looked at in two ways: the reader of documents tests it as a whole, and the reader of texts
cuts off a word and asks whether it is a keyword, a number or a name. Main statement: the two agree on every text, so
that a name in a document is just what a text of this one word is read as, and wherever a name is cut off as a word it
is read as that name and as nothing else.
-/
import Eligibility.Proofs.Rule.Node
import Eligibility.Proofs.Token.Lexeme

namespace Eligibility.Token

variable {n text : String} {cs word : List Char} {reading : Except SyntaxFault Kind}

/-! ## Words -/

/-- A piece that starts with no boundary is a word, and it is read as one. -/
theorem reading_of_firstPiece {c : Char} {rest : List Char} (h : (firstPiece c rest).1 = .lexeme word reading)
    (hw : ∀ a ∈ word.head?, isBoundary a = false) : reading = classify word := by
  -- every other piece starts with a boundary
  have start : ∀ taken, word = c :: taken → isBoundary c = false := fun taken hword => hw c (by rw [hword]; rfl)
  revert h
  fun_cases firstPiece c rest <;> intro h
  case case7 =>
    obtain ⟨rfl, rfl⟩ := Piece.lexeme.inj h
    rfl
  case case1 => cases h
  all_goals
    obtain ⟨hword, -⟩ := Piece.lexeme.inj h
    have noBoundary := start _ hword.symm
    simp_all [isBoundary]

theorem reading_of_mem_pieces (h : .lexeme word reading ∈ pieces cs) (hw : ∀ a ∈ word.head?, isBoundary a = false) :
    reading = classify word := by
  fun_induction pieces cs with
  | case1 => cases h
  | case2 c rest ih =>
    rcases List.mem_cons.1 h with first | h
    · exact reading_of_firstPiece first.symm hw
    · exact ih h

/-! ## Names -/

theorem classify_eq_name : classify n.toList = .ok (.name n) ↔ isName n = true :=
  ⟨fun h => wellFormed_of_classify h, classify_name⟩

theorem pieces_name (h : isName n = true) : pieces n.toList = [.lexeme n.toList (.ok (.name n))] := by
  have cut := pieces_word (isName_word h).1 (isName_word h).2 apart_nil
  rwa [List.append_nil, classify_name h, pieces] at cut

/-- A text is a name just if it is read as this name alone. -/
theorem tokenize_eq_name : tokenize n = .ok [⟨.name n, 0⟩] ↔ isName n = true := by
  constructor
  · intro h
    exact wellFormed_of_tokenize h _ List.mem_cons_self
  · intro h
    rw [tokenize, pieces_name h]
    rfl

/-- A name that is cut off as a word, wherever it stands, is read as this name. -/
theorem reading_of_name (h : .lexeme n.toList reading ∈ pieces cs) (hn : isName n = true) :
    reading = .ok (.name n) := by
  rw [reading_of_mem_pieces h fun a ha => (isName_word hn).2 a (List.mem_of_mem_head? ha), classify_name hn]

/-- The predicate of an operand is accepted just if its attribute, read as a text, is that name alone. -/
theorem judge_predicate_eq_ok {c : Comparison} {r : Rule} :
    Node.Draft.judge .operand (.predicate c) none none = .ok r ↔ r = .test c ∧ tokenize c.name = .ok [⟨.name c.name, 0⟩] := by
  rw [Node.Draft.judge_operand_eq_ok, tokenize_eq_name]
  simp

/-- A text passes as a name just if it is read as this one name, which then stands at its first byte; so a document may
name an attribute just if a text may. Every name that is read out of a text passes. A text passes just if it is read as
that name when it is a word, and wherever it is cut off as a word it is read as nothing else, so never as a keyword or a
number. -/
theorem name_check_agrees (n : String) :
    (isName n = true ↔ tokenize n = .ok [⟨.name n, 0⟩]) ∧
    (∀ c r, Node.Draft.judge .operand (.predicate c) none none = .ok r ↔
      r = .test c ∧ tokenize c.name = .ok [⟨.name c.name, 0⟩]) ∧
    (∀ text ts, tokenize text = .ok ts → ∀ t ∈ ts, t.kind = .name n → isName n = true) ∧
    (isName n = true ↔ classify n.toList = .ok (.name n)) ∧
    ∀ text reading, .lexeme n.toList reading ∈ pieces text → isName n = true →
      reading = .ok (.name n) ∧ (∀ k, reading ≠ .ok (.connective k)) ∧ ∀ x, reading ≠ .ok (.number x) := by
  refine ⟨tokenize_eq_name.symm, fun c r => judge_predicate_eq_ok, fun text ts h t ht hk => ?_, classify_eq_name.symm, ?_⟩
  · have known : t.kind.WellFormed := wellFormed_of_tokenize h t ht
    rwa [hk] at known
  · intro text reading h hn
    rw [reading_of_name h hn]
    exact ⟨rfl, by rintro _ ⟨⟩, by rintro _ ⟨⟩⟩

/-- A name that begins as a keyword does and ends as a number does, beside a text of the letters of a keyword. -/
theorem name_check_agrees_lookalike :
    let ts : List Token := [⟨.name "OR_9", 0⟩, ⟨.comparator .equal, 4⟩, ⟨.text "OR", 5⟩]
    tokenize "OR_9='OR'" = .ok ts ∧ ⟨.name "OR_9", 0⟩ ∈ ts ∧ isName "OR_9" = true ∧
      tokenize "OR_9" = .ok [⟨.name "OR_9", 0⟩] ∧
      .lexeme "OR_9".toList (classify "OR_9".toList) ∈ pieces "OR_9='OR'".toList ∧
      classify "OR_9".toList = .ok (.name "OR_9") ∧ isName "OR" = false := by
  intro ts
  have read : tokenize "OR_9='OR'" = .ok ts := by with_unfolding_all rfl
  obtain ⟨alone, -, passes, -, asWord⟩ := name_check_agrees "OR_9"
  have name : isName "OR_9" = true := passes _ ts read ⟨.name "OR_9", 0⟩ List.mem_cons_self rfl
  have cut : .lexeme "OR_9".toList (classify "OR_9".toList) ∈ pieces "OR_9='OR'".toList := by
    have begins : Begins "OR_9='OR'".toList _ "='OR'".toList :=
      begins_word (isName_word name).1 (isName_word name).2 (by rintro _ ⟨⟩; decide)
    exact begins.pieces ▸ List.mem_cons_self
  exact ⟨read, List.mem_cons_self, name, alone.1 name, cut, (asWord _ _ cut name).1, by decide⟩

end Eligibility.Token
