/-
How rule text is cut, one lexeme at a time: a lexeme followed by a character that ends it is cut off as
a piece of its own, whatever comes after. From this the tokens of a text that is put together from
lexemes (`Spells`), and what is known of every token: a name is an attribute name and a number is finite.
-/
import Eligibility.Token.Piece

namespace Eligibility.Token

/-! ## Characters -/

theorem isNameChar_of_isDigit {c : Char} (h : c.isDigit = true) : isNameChar c = true := by
  simp [isNameChar, Char.isAlphanum, h]

theorem toNat_of_isAlpha {c : Char} (h : c.isAlpha = true) :
    (65 ≤ c.toNat ∧ c.toNat ≤ 90) ∨ (97 ≤ c.toNat ∧ c.toNat ≤ 122) := by
  rcases (Bool.or_eq_true _ _).mp h with upper | lower
  · obtain ⟨low, high⟩ : c.val ≥ 'A'.val ∧ c.val ≤ 'Z'.val := of_decide_eq_true upper
    exact .inl ⟨UInt32.le_iff_toNat_le.1 low, UInt32.le_iff_toNat_le.1 high⟩
  · obtain ⟨low, high⟩ := (Bool.and_eq_true _ _).mp lower
    exact .inr ⟨UInt32.le_iff_toNat_le.1 (of_decide_eq_true low), UInt32.le_iff_toNat_le.1 (of_decide_eq_true high)⟩

theorem toNat_of_isDigit {c : Char} (h : c.isDigit = true) : 48 ≤ c.toNat ∧ c.toNat ≤ 57 :=
  Char.isDigit_iff_toNat.1 h

theorem isNameChar_iff {c : Char} :
    isNameChar c = true ↔ c.isAlpha = true ∨ c.isDigit = true ∨ c = '_' ∨ c = '.' := by
  simp [isNameChar, Char.isAlphanum, or_assoc]

/-- No white space stands in a name. -/
theorem isNameChar_eq_false_of_isBlank {c : Char} (h : Text.isBlank c = true) : isNameChar c = false := by
  simp only [Text.isBlank, Bool.or_eq_true, Bool.and_eq_true, decide_eq_true_eq, List.contains_iff_mem] at h
  rcases h with (rfl | ⟨-, high⟩) | wide
  · rfl
  · replace high : c.toNat ≤ 13 := high
    rw [← Bool.not_eq_true, isNameChar_iff]
    rintro (alpha | digit | rfl | rfl)
    · have := toNat_of_isAlpha alpha
      omega
    · have := toNat_of_isDigit digit
      omega
    · exact absurd high (by decide)
    · exact absurd high (by decide)
  · have noName : Text.wideBlanks.all (!isNameChar ·) = true := by decide
    simpa using List.all_eq_true.1 noName c wide

/-- The characters of names, and with them those of numbers without a sign, end no word. -/
theorem isBoundary_eq_false_of_isNameChar {c : Char} (h : isNameChar c = true) : isBoundary c = false := by
  rw [← Bool.not_eq_true]
  intro hb
  simp only [isBoundary, isComparatorChar, Bool.or_eq_true, decide_eq_true_eq] at hb
  rcases hb with ((((blank | rfl) | rfl) | rfl) | rfl) | ((rfl | rfl) | rfl) | rfl
  · rw [isNameChar_eq_false_of_isBlank blank] at h
    cases h
  all_goals cases h

/-- What a word is made of stands in no comparator. -/
theorem isComparatorChar_eq_false {c : Char} (h : isBoundary c = false) : isComparatorChar c = false := by
  simp only [isBoundary, Bool.or_eq_false_iff] at h
  exact h.2

/-- The text is over or goes on with a character at which words and comparators end. -/
def Apart (t : List Char) : Prop := ∀ c ∈ t.head?, isBoundary c = true ∧ isComparatorChar c = false

theorem apart_nil : Apart [] := by rintro c ⟨⟩

theorem apart_blank (t : List Char) : Apart (' ' :: t) := by rintro c ⟨⟩; decide

theorem apart_closeParen (t : List Char) : Apart (')' :: t) := by rintro c ⟨⟩; decide

/-! ## Cutting off one lexeme -/

/-- A run that ends where the rest begins is cut off there. -/
theorem takeWhile_append_of_head {α : Type} {p : α → Bool} {l t : List α} (hl : ∀ a ∈ l, p a = true)
    (ht : ∀ a ∈ t.head?, p a = false) : (l ++ t).takeWhile p = l ∧ (l ++ t).dropWhile p = t := by
  rw [List.takeWhile_append_of_pos hl, List.dropWhile_append_of_pos hl]
  cases t with
  | nil => simp
  | cons a t => simp [ht a rfl]

theorem pieces_cons (c : Char) (rest : List Char) :
    pieces (c :: rest) = (firstPiece c rest).1 :: pieces (firstPiece c rest).2 := by rw [pieces]

theorem pieces_blank {c : Char} (h : Text.isBlank c = true) (t : List Char) : pieces (c :: t) = .gap c :: pieces t := by
  rw [pieces_cons, firstPiece, if_pos h]

theorem pieces_openParen (t : List Char) : pieces ('(' :: t) = .lexeme ['('] (.ok .openParen) :: pieces t := by
  rw [pieces_cons]; rfl

theorem pieces_closeParen (t : List Char) : pieces (')' :: t) = .lexeme [')'] (.ok .closeParen) :: pieces t := by
  rw [pieces_cons]; rfl

/-- A piece is cut off at the start of a text, and leaves the rest. -/
def Begins (cs : List Char) (p : Piece) (rest : List Char) : Prop :=
  ∃ c t, cs = c :: t ∧ firstPiece c t = (p, rest)

/-- What is cut off at the start of a text is its first piece. -/
theorem Begins.pieces {cs rest : List Char} {p : Piece} (h : Begins cs p rest) :
    Token.pieces cs = p :: Token.pieces rest := by
  obtain ⟨c, t, rfl, hp⟩ := h
  rw [pieces_cons, hp]

/-- A word before a boundary is cut off whole, and read as a word. -/
theorem begins_word {word : List Char} (hne : word ≠ []) (hw : ∀ c ∈ word, isBoundary c = false) {t : List Char}
    (ht : ∀ c ∈ t.head?, isBoundary c = true) : Begins (word ++ t) (.lexeme word (classify word)) t := by
  obtain ⟨c, cs, rfl⟩ := List.exists_cons_of_ne_nil hne
  obtain ⟨take, drop⟩ := takeWhile_append_of_head (p := (!isBoundary ·)) (l := cs) (t := t)
    (fun a ha => by simp [hw a (List.mem_cons_of_mem c ha)]) (fun a ha => by simp [ht a ha])
  -- no other piece starts with a character of a word
  have hc := hw c (List.mem_cons_self ..)
  have hrun := isComparatorChar_eq_false hc
  simp only [isBoundary, Bool.or_eq_false_iff, decide_eq_false_iff_not] at hc
  refine ⟨c, cs ++ t, rfl, ?_⟩
  rw [firstPiece, if_neg (by simp [hc]), if_neg hc.1.1.1.1.2, if_neg hc.1.1.1.2, if_neg (by simp [hc]),
    if_neg (by simp [hrun]), take, drop]

/-- A run of comparator characters is cut off whole, before any other character. -/
theorem begins_run {run : List Char} (hne : run ≠ []) (hr : ∀ c ∈ run, isComparatorChar c = true) {t : List Char}
    (ht : ∀ c ∈ t.head?, isComparatorChar c = false) : Begins (run ++ t) (.lexeme run (classifyRun run)) t := by
  obtain ⟨c, cs, rfl⟩ := List.exists_cons_of_ne_nil hne
  obtain ⟨take, drop⟩ := takeWhile_append_of_head (p := isComparatorChar) (l := cs) (t := t)
    (fun a ha => hr a (List.mem_cons_of_mem c ha)) ht
  have hc := hr c (List.mem_cons_self ..)
  refine ⟨c, cs ++ t, rfl, ?_⟩
  -- each of the four characters is passed on by all the tests before that for a run
  have : c = '<' ∨ c = '>' ∨ c = '=' ∨ c = '!' := by simpa [isComparatorChar, or_assoc] using hc
  rcases this with rfl | rfl | rfl | rfl <;> simp [firstPiece, Text.isBlank, Text.wideBlanks, hc, take, drop]

theorem pieces_word {word : List Char} (hne : word ≠ []) (hw : ∀ c ∈ word, isBoundary c = false) {t : List Char}
    (ht : Apart t) : pieces (word ++ t) = .lexeme word (classify word) :: pieces t :=
  (begins_word hne hw fun c hc => (ht c hc).1).pieces

theorem pieces_run {run : List Char} (hne : run ≠ []) (hr : ∀ c ∈ run, isComparatorChar c = true) {t : List Char}
    (ht : Apart t) : pieces (run ++ t) = .lexeme run (classifyRun run) :: pieces t :=
  (begins_run hne hr fun c hc => (ht c hc).2).pieces

/-- A text in quotes is cut off behind its last quote, whatever comes after it. -/
theorem pieces_quote (content t : List Char) : pieces (Text.quote content ++ t) =
    .lexeme (Text.quote content) (.ok (.text (String.ofList content))) :: pieces t := by
  have cut := Text.unquote_escape content t
  have first : firstPiece '\'' (content.flatMap Text.escape ++ '\'' :: t) =
      (.lexeme (Text.quote content) (.ok (.text (String.ofList content))), t) := by
    -- the escapes are taken back, and the quote behind them ends the text
    rw [firstPiece, if_neg (by decide), if_neg (by decide), if_neg (by decide), if_pos (.inl rfl), cut]
    rfl
  have split : Text.quote content ++ t = '\'' :: (content.flatMap Text.escape ++ '\'' :: t) := by simp [Text.quote]
  rw [split, pieces_cons, first]

/-! ## Texts put together from lexemes -/

/-- The pieces hold tokens of these kinds, wherever in the text they start. -/
def Scans (ps : List Piece) (ks : List Kind) : Prop :=
  ∀ position, ∃ ts, ofPieces position ps = .ok ts ∧ ts.map Token.kind = ks

theorem scans_nil : Scans [] [] := fun _ => ⟨[], rfl, rfl⟩

theorem Scans.gap {ps : List Piece} {ks : List Kind} (h : Scans ps ks) (c : Char) : Scans (.gap c :: ps) ks :=
  fun position => h (position + c.utf8Size)

theorem Scans.lexeme {ps : List Piece} {ks : List Kind} (h : Scans ps ks) (text : List Char) (k : Kind) :
    Scans (.lexeme text (.ok k) :: ps) (k :: ks) := by
  intro position
  obtain ⟨ts, hts, rfl⟩ := h (position + Text.byteLength text)
  exact ⟨⟨k, position⟩ :: ts, by rw [ofPieces, hts]; rfl, rfl⟩

/-- A text reads as tokens of these kinds, before any text that keeps apart from it. -/
def Spells (cs : List Char) (ks : List Kind) : Prop :=
  ∀ t ls, Apart t → Scans (pieces t) ls → Scans (pieces (cs ++ t)) (ks ++ ls)

/-- A word that is read as a token spells it. -/
theorem spells_word {word : List Char} {k : Kind} (hne : word ≠ []) (hw : ∀ c ∈ word, isBoundary c = false)
    (h : classify word = .ok k) : Spells word [k] := by
  intro t ls ht hls
  rw [pieces_word hne hw ht, h]
  exact hls.lexeme word k

theorem isComparatorChar_of_mem_symbol (c : Comparator) : ∀ a ∈ c.symbol.toList, isComparatorChar a = true :=
  List.all_eq_true.1 (by cases c <;> decide)

theorem classifyRun_symbol (c : Comparator) : classifyRun c.symbol.toList = .ok (.comparator c) := by
  rw [classifyRun, String.ofList_toList, Comparator.ofSymbol?_symbol]

theorem spells_symbol (c : Comparator) : Spells c.symbol.toList [.comparator c] := by
  intro t ls ht hls
  rw [pieces_run (by cases c <;> decide) (isComparatorChar_of_mem_symbol c) ht, classifyRun_symbol]
  exact hls.lexeme _ _

theorem isBoundary_eq_false_of_mem_keyword (k : Connective) : ∀ a ∈ k.keyword.toList, isBoundary a = false := by
  have word : k.keyword.toList.all (!isBoundary ·) = true := by cases k <;> decide
  simpa using word

theorem classify_keyword (k : Connective) : classify k.keyword.toList = .ok (.connective k) := by cases k <;> rfl

theorem spells_keyword (k : Connective) : Spells k.keyword.toList [.connective k] :=
  spells_word (by cases k <;> decide) (isBoundary_eq_false_of_mem_keyword k) (classify_keyword k)

theorem spells_quote (s : String) : Spells (Text.quote s.toList) [.text s] := by
  intro t ls _ hls
  rw [pieces_quote, String.ofList_toList]
  exact hls.lexeme _ _

/-- Two texts with a space between them spell the tokens of the one and then those of the other. -/
theorem Spells.spaced {cs ds : List Char} {ks ls : List Kind} (hc : Spells cs ks) (hd : Spells ds ls) :
    Spells (cs ++ ' ' :: ds) (ks ++ ls) := by
  intro t more ht hmore
  rw [List.append_assoc, List.append_assoc, List.cons_append]
  -- the space keeps the first text apart, and is itself a gap
  refine hc _ _ (apart_blank _) ?_
  rw [pieces_blank (by decide)]
  exact (hd t more ht hmore).gap ' '

/-- Parentheses around a text are tokens of their own. -/
theorem Spells.parens {cs : List Char} {ks : List Kind} (h : Spells cs ks) :
    Spells ('(' :: cs ++ [')']) (.openParen :: ks ++ [.closeParen]) := by
  intro t ls _ hls
  rw [List.append_assoc, List.cons_append, List.singleton_append, pieces_openParen, List.append_assoc,
    List.cons_append, List.singleton_append]
  refine (h _ _ (apart_closeParen t) ?_).lexeme _ _
  rw [pieces_closeParen]
  exact hls.lexeme _ _

/-- A text that spells tokens is read as tokens of these kinds. -/
theorem Spells.tokenize {cs : List Char} {ks : List Kind} (h : Spells cs ks) :
    ∃ ts, tokenize (String.ofList cs) = .ok ts ∧ ts.map Token.kind = ks := by
  have := h [] [] apart_nil (by rw [pieces]; exact scans_nil) 0
  rwa [List.append_nil, List.append_nil, ← String.toList_ofList (l := cs)] at this

/-! ## Names -/

theorem isName_iff {n : String} : isName n = true ↔ keyword? n.toList = none ∧ hasNameForm n.toList = true := by
  rw [isName, Bool.and_eq_true, Option.isNone_iff_eq_none]

theorem isNameChar_of_isNameStart {c : Char} (h : isNameStart c = true) : isNameChar c = true := by
  simp only [isNameStart, Bool.or_eq_true] at h
  rcases h with h | h <;> simp [isNameChar, Char.isAlphanum, h]

/-- The form of a name: a character that may start one, and characters that may stand in one. -/
theorem hasNameForm_iff {word : List Char} :
    hasNameForm word = true ↔ ∃ c cs, word = c :: cs ∧ isNameStart c = true ∧ ∀ a ∈ word, isNameChar a = true := by
  cases word with
  | nil => simp [hasNameForm]
  | cons c cs =>
    simp only [hasNameForm, Bool.and_eq_true, List.all_eq_true, List.cons.injEq, List.mem_cons, forall_eq_or_imp]
    constructor
    · rintro ⟨hc, hcs⟩
      exact ⟨c, cs, ⟨rfl, rfl⟩, hc, isNameChar_of_isNameStart hc, hcs⟩
    · rintro ⟨_, _, ⟨rfl, rfl⟩, hc, -, hcs⟩
      exact ⟨hc, hcs⟩

/-- The first character of a name is no digit of any script. -/
theorem isDecimalDigit_eq_false_of_isNameStart {c : Char} (h : isNameStart c = true) :
    Text.isDecimalDigit c = false := by
  -- below 128 the only digits are those from 0 to 9, and a letter is none of them
  have range : c.toNat < 128 ∧ ¬ (48 ≤ c.toNat ∧ c.toNat ≤ 57) := by
    simp only [isNameStart, Bool.or_eq_true, decide_eq_true_eq] at h
    rcases h with alpha | rfl
    · have := toNat_of_isAlpha alpha
      omega
    · decide
  rw [← Bool.not_eq_true]
  intro hd
  simp only [Text.isDecimalDigit, Bool.or_eq_true, Bool.and_eq_true, decide_eq_true_eq] at hd
  rcases hd with digit | ⟨wide, -⟩
  · exact range.2 (toNat_of_isDigit digit)
  · omega

/-- A name begins neither with a sign nor with a digit. -/
theorem numberParts?_of_isNameStart {c : Char} (h : isNameStart c = true) (cs : List Char) :
    (Decimal.splitSign (c :: cs)).2 = c :: cs ∧ numberParts? (c :: cs) = none := by
  have noDigit := isDecimalDigit_eq_false_of_isNameStart h
  constructor
  · unfold Decimal.splitSign
    split
    · rename_i heq
      obtain ⟨rfl, -⟩ := List.cons.inj heq
      exact absurd h (by decide)
    · rename_i heq
      obtain ⟨rfl, -⟩ := List.cons.inj heq
      exact absurd h (by decide)
    · rfl
  · simp [numberParts?, noDigit]

/-- A name is read as this name, as it is no keyword and does not look like a number. -/
theorem classify_name {n : String} (h : isName n = true) : classify n.toList = .ok (.name n) := by
  obtain ⟨keyword, form⟩ := isName_iff.1 h
  obtain ⟨c, cs, hn, hc, -⟩ := hasNameForm_iff.1 form
  obtain ⟨unsigned, noNumber⟩ := numberParts?_of_isNameStart hc cs
  rw [classify, keyword]
  dsimp only
  rw [hn, unsigned, noNumber]
  dsimp only
  rw [← hn, if_pos form, String.ofList_toList]

theorem isName_word {n : String} (h : isName n = true) : n.toList ≠ [] ∧ ∀ a ∈ n.toList, isBoundary a = false := by
  obtain ⟨c, cs, hn, -, chars⟩ := hasNameForm_iff.1 (isName_iff.1 h).2
  exact ⟨by simp [hn], fun a ha => isBoundary_eq_false_of_isNameChar (chars a ha)⟩

theorem spells_name {n : String} (h : isName n = true) : Spells n.toList [.name n] :=
  spells_word (isName_word h).1 (isName_word h).2 (classify_name h)

/-! ## Tokens of any text -/

/-- What is known of a token of any text: a name is an attribute name, and a number is finite. -/
def Kind.WellFormed : Kind → Prop
  | .name n => isName n = true
  | .number x => x.isFinite = true
  | _ => True

/-- A word is read as a name only if it is one, and as a number only if its value is finite. -/
theorem wellFormed_of_classify {word : List Char} {k : Kind} (h : classify word = .ok k) : k.WellFormed := by
  unfold classify at h
  split at h
  · cases h
    trivial
  · rename_i keyword
    dsimp only at h
    split at h
    · split at h
      · split at h
        · rename_i finite
          cases h
          exact finite
        · cases h
      · cases h
    · split at h
      · rename_i form
        cases h
        exact isName_iff.2 ⟨by rwa [String.toList_ofList], by rwa [String.toList_ofList]⟩
      · cases h

theorem wellFormed_of_classifyRun {run : List Char} {k : Kind} (h : classifyRun run = .ok k) : k.WellFormed := by
  unfold classifyRun at h
  split at h
  · cases h
    trivial
  · cases h

theorem wellFormed_of_firstPiece {c : Char} {rest text : List Char} {k : Kind}
    (h : (firstPiece c rest).1 = .lexeme text (.ok k)) : k.WellFormed := by
  revert h
  fun_cases firstPiece c rest <;> intro h
  case case1 => cases h
  case case5 => cases h
  case case6 => exact wellFormed_of_classifyRun (Piece.lexeme.inj h).2
  case case7 => exact wellFormed_of_classify (Piece.lexeme.inj h).2
  all_goals
    cases h
    trivial

theorem wellFormed_of_mem_pieces {cs text : List Char} {k : Kind} (h : .lexeme text (.ok k) ∈ pieces cs) :
    k.WellFormed := by
  fun_induction pieces cs with
  | case1 => cases h
  | case2 c rest ih =>
    rcases List.mem_cons.1 h with first | h
    · exact wellFormed_of_firstPiece first.symm
    · exact ih h

/-- Every token is what one of the pieces reads as. -/
theorem exists_piece_of_ofPieces {t : Token} : ∀ {ps : List Piece} {position : Nat} {ts : List Token},
    ofPieces position ps = .ok ts → t ∈ ts → ∃ text, .lexeme text (.ok t.kind) ∈ ps
  | [], _, _, h, ht => by cases h; cases ht
  | .gap _ :: _, _, _, h, ht => by
    rw [ofPieces] at h
    obtain ⟨text, hp⟩ := exists_piece_of_ofPieces h ht
    exact ⟨text, List.mem_cons_of_mem _ hp⟩
  | .lexeme _ (.error _) :: _, _, _, h, _ => by cases h
  | .lexeme text (.ok k) :: ps, position, _, h, ht => by
    rw [ofPieces] at h
    cases hps : ofPieces (position + Text.byteLength text) ps with
    | error e => rw [hps] at h; cases h
    | ok ts =>
      rw [hps] at h
      cases h
      rcases List.mem_cons.1 ht with rfl | ht
      · exact ⟨text, List.mem_cons_self ..⟩
      · obtain ⟨text', hp⟩ := exists_piece_of_ofPieces hps ht
        exact ⟨text', List.mem_cons_of_mem _ hp⟩

/-- Every token of a text is well formed. -/
theorem wellFormed_of_tokenize {text : String} {ts : List Token} (h : tokenize text = .ok ts) :
    ∀ t ∈ ts, t.kind.WellFormed := by
  intro t ht
  obtain ⟨text, hp⟩ := exists_piece_of_ofPieces h ht
  exact wellFormed_of_mem_pieces hp

end Eligibility.Token
