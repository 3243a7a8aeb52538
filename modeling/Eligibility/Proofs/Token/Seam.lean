/-
Texts one behind the other. Where white space or a parenthesis stands between them, no lexeme goes on from one
text into the other, so that the tokens of the whole are those of the first text and then those of the second, each
as many bytes later as stand before the second text. A fault of the second text is the fault of the whole, at a
position moved in the same way.
-/
import Eligibility.Proofs.Outcome
import Eligibility.Proofs.Token.Cutting

namespace Eligibility

/-! ## Positions in a longer text -/

/-- A token with so many more bytes before it. -/
def Token.shift (n : ℕ) (t : Token) : Token := ⟨t.kind, t.position + n⟩

/-- A fault with so many more bytes before its place, if it has one. -/
def Fault.shift (n : ℕ) : Fault → Fault := Fault.placed fun position _ => position + n

namespace Token

variable {cs : List Char} {n : ℕ}

/-- The tokens of pieces are the same wherever the pieces start, but for their positions. -/
theorem ofPieces_add (n position : ℕ) (ps : List Piece) :
    ofPieces (position + n) ps = ((ofPieces position ps).map (List.map (shift n))).mapError (Fault.shift n) := by
  fun_induction ofPieces position ps with
  | case1 => rfl
  | case2 position c ps ih =>
    rw [ofPieces, Nat.add_right_comm, ih]
  | case3 position text fault ps => rfl
  | case4 position text k ps ih =>
    rw [ofPieces, Nat.add_right_comm, ih]
    cases ofPieces (position + Text.byteLength text) ps <;> rfl

/-! ## The seam -/

/-- A parenthesis. -/
def Kind.IsParen (k : Kind) : Prop := k = .openParen ∨ k = .closeParen

/-- The first character that is no white space is a parenthesis. -/
def BeginsWithParen (cs : List Char) : Prop := ∃ c ∈ (cs.dropWhile Text.isBlank).head?, c = '(' ∨ c = ')'

theorem apart_of_isBlank {c : Char} (h : Text.isBlank c = true) (cs : List Char) : Apart (c :: cs) := by
  rintro _ ⟨⟩
  exact ⟨by simp [isBoundary, h], isComparatorChar_eq_false_of_isBlank h⟩

theorem Blank.apart {gap : List Char} (h : Blank gap) (hne : gap ≠ []) (cs : List Char) : Apart (gap ++ cs) := by
  obtain ⟨c, gap, rfl⟩ := List.exists_cons_of_ne_nil hne
  exact apart_of_isBlank (h c List.mem_cons_self) _

/-- White space or a parenthesis comes first, and neither goes on with a lexeme. -/
theorem BeginsWithParen.apart (h : BeginsWithParen cs) : Apart cs := by
  obtain ⟨c, hc, paren⟩ := h
  cases cs with
  | nil => cases hc
  | cons d cs =>
    by_cases blank : Text.isBlank d = true
    · exact apart_of_isBlank blank cs
    · rw [List.dropWhile_cons_of_neg blank] at hc
      cases hc
      rintro _ ⟨⟩
      rcases paren with rfl | rfl <;> decide

theorem Kind.IsParen.endsBefore {k : Kind} (h : k.IsParen) (rest : List Char) : k.EndsBefore rest := by
  rcases h with rfl | rfl <;> rintro _ ⟨⟩

/-! ## Texts one behind the other -/

/-- Nothing of the first of two texts goes on into the second: white space stands between them, or a parenthesis
on either side. -/
def Seam (a : List Token) (gap t : List Char) : Prop :=
  gap ≠ [] ∨ (∃ last ∈ a.getLast?, last.kind.IsParen) ∨ BeginsWithParen t

/-- At a seam the last lexeme before it has ended. -/
theorem Seam.endsBefore {position : ℕ} {segments : List Segment} {gap t : List Char}
    (h : Seam (tokensFrom position segments) gap t) (blank : Blank gap) :
    ∀ s ∈ segments.getLast?, s.kind.EndsBefore (gap ++ t) := by
  intro s hs
  by_cases hgap : gap = []
  · subst hgap
    rcases h with hne | ⟨last, hlast, paren⟩ | paren
    · exact absurd rfl hne
    · -- the last token is made from the last segment, so that both are of one kind
      have kinds := congrArg List.getLast? (map_kind_tokensFrom position segments)
      rw [List.getLast?_map, List.getLast?_map, Option.mem_def.1 hs, Option.mem_def.1 hlast] at kinds
      have same : last.kind = s.kind := Option.some.inj kinds
      exact (same ▸ paren).endsBefore _
    · exact paren.apart.endsBefore _
  · exact (blank.apart hgap t).endsBefore _

/-- The outcome for a text behind one that is read. -/
theorem tokenize_append {s gap t : String} {a : List Token} (hs : tokenize s = .ok a) (blank : Blank gap.toList)
    (seam : Seam a gap.toList t.toList) :
    tokenize (s ++ gap ++ t) =
      ((tokenize t).map fun b => a ++ b.map (shift (Text.byteLength (s ++ gap).toList))).mapError
        (Fault.shift (Text.byteLength (s ++ gap).toList)) := by
  obtain ⟨segments, tail, cuts, blankTail, rfl⟩ := tokenize_eq_ok.1 hs
  have whole := cuts.append_of_last (t := gap.toList ++ t.toList) fun _ => seam.endsBefore blank
  have length : Text.byteLength (s ++ gap).toList =
      Text.byteLength (segments.flatMap Segment.chars) + Text.byteLength tail + Text.byteLength gap.toList := by
    rw [String.toList_append, cuts.text_eq, Text.byteLength_append, Text.byteLength_append]
  generalize Text.byteLength (s ++ gap).toList = n at length
  have read : tokenize (s ++ gap ++ t) = (ofPieces (0 + n) (pieces t.toList)).map (tokensFrom 0 segments ++ ·) := by
    rw [tokenize, String.toList_append, String.toList_append, List.append_assoc, whole.ofPieces,
      ofPieces_blank blankTail, ofPieces_blank blank, length, Nat.add_assoc, Nat.add_assoc, Nat.add_assoc]
  rw [read, ofPieces_add, ← tokenize]
  cases tokenize t <;> rfl

/-- Reading goes over from a text to the one behind it, where white space stands between them or one of them ends
or begins there with a parenthesis: the tokens are those of both, and the fault of the second is that of the whole.
What belongs to the second text stands as many bytes later as the first text and the white space have. -/
theorem tokenize_across_seam (s gap t : String) (a : List Token) (hs : tokenize s = .ok a)
    (blank : Blank gap.toList) (seam : Seam a gap.toList t.toList) :
    (∀ b, tokenize t = .ok b →
      tokenize (s ++ gap ++ t) = .ok (a ++ b.map (shift (Text.byteLength (s ++ gap).toList)))) ∧
    (∀ position fault, tokenize t = .error (.badRule position fault) →
      tokenize (s ++ gap ++ t) = .error (.badRule (position + Text.byteLength (s ++ gap).toList) fault)) ∧
    ∀ e, tokenize t = .error e → ∃ position fault, e = .badRule position fault := by
  have whole := tokenize_append hs blank seam
  refine ⟨fun b hb => ?_, fun position fault ht => ?_, fun e he => ?_⟩
  · rw [whole, hb]
    rfl
  · rw [whole, ht]
    rfl
  · obtain ⟨_, _, _, fault, -, -, -, rfl⟩ := stuck_of_tokenize he
    exact ⟨_, fault, rfl⟩

/-- Letters and white space of several bytes between two texts, a second text that is refused, and one that begins
with a parenthesis and needs no white space. -/
theorem tokenize_across_wide_space :
    let a : List Token := [⟨.name "n", 0⟩, ⟨.comparator .equal, 2⟩, ⟨.text "é", 4⟩]
    tokenize "n = 'é'" = .ok a ∧ Blank "\u2003\t".toList ∧ Seam a "\u2003\t".toList "OR m".toList ∧
      tokenize ("n = 'é'" ++ "\u2003\t" ++ "OR m") = .ok (a ++ [⟨.connective .or, 12⟩, ⟨.name "m", 15⟩]) ∧
      tokenize ("n = 'é'" ++ "\u2003\t" ++ "OR m => 1") = .error (.badRule 17 (.unknownComparator "=>")) ∧
      Seam a "".toList ") AND".toList ∧
      tokenize ("n = 'é'" ++ "" ++ ") AND") = .ok (a ++ [⟨.closeParen, 8⟩, ⟨.connective .and, 10⟩]) := by
  intro a
  have hs : tokenize "n = 'é'" = .ok a := by with_unfolding_all rfl
  have blank : Blank "\u2003\t".toList := List.all_eq_true.1 (by decide)
  have wide : ∀ t, Seam a "\u2003\t".toList t := fun t => .inl (by decide)
  have paren : Seam a "".toList ") AND".toList := .inr (.inr ⟨')', by decide, .inr rfl⟩)
  have first : tokenize "OR m" = .ok [⟨.connective .or, 0⟩, ⟨.name "m", 3⟩] := by with_unfolding_all rfl
  have refused : tokenize "OR m => 1" = .error (.badRule 5 (.unknownComparator "=>")) := by with_unfolding_all rfl
  have closing : tokenize ") AND" = .ok [⟨.closeParen, 0⟩, ⟨.connective .and, 2⟩] := by with_unfolding_all rfl
  refine ⟨hs, blank, wide _, ?_, ?_, paren, ?_⟩
  · exact (tokenize_across_seam _ _ _ a hs blank (wide _)).1 _ first
  · exact (tokenize_across_seam _ _ _ a hs blank (wide _)).2.1 _ _ refused
  · exact (tokenize_across_seam _ _ _ a hs (by simp [Blank]) paren).1 _ closing

end Token
end Eligibility
