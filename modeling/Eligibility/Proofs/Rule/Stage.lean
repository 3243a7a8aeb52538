/-
How far rule text has come. What may come next depends on the last tokens and on how many parentheses are open: a term,
then a comparator and a literal if it began with a name, then a connective or, inside parentheses, their end. A phrase
takes a stage at which a term is expected to one at which a connective is, with as many parentheses open as before,
so that tokens which leave the stages begin no phrase whatever follows them.
-/
import Eligibility.Proofs.Rule.Derivation

namespace Eligibility.Rule

/-! ## Stages -/

/-- What is expected next. With a term, a name or a parenthesis may open it; with a connective, a parenthesis that is
open may be closed in its place. -/
inductive Expected where
  | term
  | comparator
  | literal
  | connective
deriving DecidableEq

/-- What is expected next, and how many parentheses are open. -/
structure Stage where
  expected : Expected
  opened : Nat
deriving DecidableEq

namespace Stage

/-- The stage after one more token, if the token may come next. -/
def next : Stage → Token.Kind → Option Stage
  | ⟨.term, n⟩, .openParen => some ⟨.term, n + 1⟩
  | ⟨.term, n⟩, .name _ => some ⟨.comparator, n⟩
  | ⟨.comparator, n⟩, .comparator _ => some ⟨.literal, n⟩
  | ⟨.literal, n⟩, .number _ => some ⟨.connective, n⟩
  | ⟨.literal, n⟩, .text _ => some ⟨.connective, n⟩
  | ⟨.connective, n⟩, .connective _ => some ⟨.term, n⟩
  | ⟨.connective, n + 1⟩, .closeParen => some ⟨.connective, n⟩
  | _, _ => none

/-- The stage after some tokens, if each of them may come where it does. -/
def after (s : Stage) : List Token.Kind → Option Stage
  | [] => some s
  | k :: ks => (s.next k).bind (·.after ks)

/-- Nothing has been read. -/
def start : Stage := ⟨.term, 0⟩

/-- The text may be over. -/
def done : Stage := ⟨.connective, 0⟩

variable {s t u : Stage}

theorem after_cons (s : Stage) (k : Token.Kind) (ks : List Token.Kind) :
    s.after (k :: ks) = (s.next k).bind (·.after ks) := rfl

theorem after_append (s : Stage) (ks ls : List Token.Kind) : s.after (ks ++ ls) = (s.after ks).bind (·.after ls) := by
  induction ks generalizing s with
  | nil => rfl
  | cons k ks ih =>
    rw [List.cons_append, after_cons, after_cons]
    cases s.next k with
    | none => rfl
    | some t => exact ih t

theorem after_append_eq_some {ks ls : List Token.Kind} :
    s.after (ks ++ ls) = some u ↔ ∃ t, s.after ks = some t ∧ t.after ls = some u := by
  rw [after_append, Option.bind_eq_some_iff]

/-- After a token that may not come next no stage is reached. -/
theorem after_misfit {ks ls : List Token.Kind} {k : Token.Kind} (hs : s.after ks = some t) (hk : t.next k = none) :
    s.after (ks ++ k :: ls) = none := by
  rw [after_append, hs, Option.bind_some, after_cons, hk]
  rfl

end Stage

/-! ## Phrases -/

/-- A phrase leads from where a term is expected to where a connective is, and leaves as many parentheses open. -/
theorem Derives.after_eq {s : Phrase} {ks : List Token.Kind} {r : Rule} (h : Derives s ks r) (n : Nat) :
    (⟨.term, n⟩ : Stage).after ks = some ⟨.connective, n⟩ := by
  induction h generalizing n with
  | comparison c => obtain ⟨name, comparator, x | t⟩ := c <;> rfl
  | parens _ ih =>
    rw [List.cons_append, Stage.after_cons]
    -- inside one parenthesis more is open, which is why the number was left open
    show Stage.after ⟨.term, n + 1⟩ _ = _
    rw [Stage.after_append, ih (n + 1)]
    rfl
  | single _ ih => exact ih n
  | joined _ _ ihl ihr =>
    rw [Stage.after_append, ihl n, Option.bind_some, Stage.after_cons]
    exact ihr n

/-- A term begins where one is expected. -/
theorem Derives.expected_term {ks : List Token.Kind} {r : Rule} (h : Derives .term ks r) {s t : Stage}
    (hs : s.after ks = some t) : s.expected = .term := by
  obtain ⟨e, n⟩ := s
  cases h with
  | comparison c => cases e <;> first | rfl | cases hs
  | parens => cases e <;> first | rfl | cases hs

/-! ## The end of the tokens -/

/-- The tokens end with a comparison or with a rule in parentheses. -/
def EndsWithTerm (ks : List Token.Kind) : Prop := ∃ before last r, ks = before ++ last ∧ Derives .term last r

/-- A phrase ends with a term, whatever is joined before it. -/
theorem Derives.endsWithTerm {s : Phrase} {ks : List Token.Kind} {r : Rule} (h : Derives s ks r) : EndsWithTerm ks := by
  induction h with
  | comparison c => exact ⟨[], _, _, rfl, .comparison c⟩
  | parens inner => exact ⟨[], _, _, rfl, .parens inner⟩
  | single _ ih => exact ih
  | @joined k ks _ _ _ _ _ _ ihr =>
    obtain ⟨before, last, r, rfl, hlast⟩ := ihr
    exact ⟨ks ++ .connective k :: before, last, r, by simp, hlast⟩

theorem EndsWithTerm.append {ks : List Token.Kind} (h : EndsWithTerm ks) (before : List Token.Kind) :
    EndsWithTerm (before ++ ks) := by
  obtain ⟨more, last, r, rfl, hlast⟩ := h
  exact ⟨before ++ more, last, r, (List.append_assoc ..).symm, hlast⟩

/-- After a term a connective is expected. -/
theorem EndsWithTerm.expected {ks : List Token.Kind} (h : EndsWithTerm ks) {s t : Stage} (hs : s.after ks = some t) :
    t.expected = .connective := by
  obtain ⟨before, last, r, rfl, hlast⟩ := h
  obtain ⟨⟨e, n⟩, -, hq⟩ := Stage.after_append_eq_some.1 hs
  obtain rfl : e = .term := hlast.expected_term hq
  rw [hlast.after_eq n] at hq
  cases hq
  rfl

/-- Where the parentheses that are open after one more token were opened, the innermost first. -/
def openAfter (positions : List Nat) : Token → List Nat
  | ⟨.openParen, position⟩ => position :: positions
  | ⟨.closeParen, _⟩ => positions.tail
  | _ => positions

/-- Where the parentheses that are not closed were opened, the innermost first. -/
def unclosed (ts : List Token) : List Nat := ts.foldl openAfter []

/-- A phrase closes each parenthesis that it opens, and none that was open before it. -/
theorem Derives.unclosed_eq {s : Phrase} {ks : List Token.Kind} {r : Rule} (h : Derives s ks r) :
    ∀ {ts : List Token} (positions : List Nat), ts.map Token.kind = ks → ts.foldl openAfter positions = positions := by
  induction h with
  | comparison c =>
    intro ts positions hts
    obtain ⟨p, q, s, rfl⟩ := map_kind_eq_kinds hts
    cases c.literal <;> rfl
  | parens _ ih =>
    intro ts positions hts
    obtain ⟨p, inner, q, rfl, hinner⟩ := map_kind_eq_parens hts
    rw [List.cons_append, List.foldl_cons, List.foldl_append, ih _ hinner]
    rfl
  | single _ ih => exact ih
  | joined _ _ ihl ihr =>
    intro ts positions hts
    obtain ⟨left, p, right, rfl, hleft, hright⟩ := map_kind_eq_joined hts
    rw [List.foldl_append, ihl _ hleft, List.foldl_cons]
    exact ihr _ hright

end Eligibility.Rule
