/-
The lexical grammar of rule text. A lexeme is a parenthesis, a quoted text, a symbol, a keyword, a name or a
number, and the last four end where their run of characters ends. Main statements: a lexeme is cut off at the
start of a text just if the text starts with a lexeme of the grammar that ends there; and a run that comes next
begins where its characters do.
-/
import Eligibility.Proofs.Token.Number

namespace Eligibility.Token

/-! ## Lexemes -/

/-- The characters between quotes `q` and the content that they stand for: a backslash gives the character behind
it, and any other character but the quote itself. -/
inductive Units (q : Char) : List Char → List Char → Prop
  | nil : Units q [] []
  | plain {c : Char} {units content : List Char} (quote : c ≠ q) (backslash : c ≠ '\\')
      (more : Units q units content) : Units q (c :: units) (c :: content)
  | escaped {c : Char} {units content : List Char} (more : Units q units content) :
      Units q ('\\' :: c :: units) (c :: content)

/-- The text is a lexeme, and the kind its token. -/
inductive Lexeme : List Char → Kind → Prop
  | openParen : Lexeme ['('] .openParen
  | closeParen : Lexeme [')'] .closeParen
  | quoted {q : Char} {units content : List Char} (quote : q = '\'' ∨ q = '"') (inside : Units q units content) :
      Lexeme (q :: (units ++ [q])) (.text (String.ofList content))
  | comparator (c : Comparator) : Lexeme c.symbol.toList (.comparator c)
  | connective (k : Connective) : Lexeme k.keyword.toList (.connective k)
  | name {n : String} (name : isName n = true) : Lexeme n.toList (.name n)
  | number {sign whole point fraction : List Char} {x : Binary64} (form : Numeral sign whole point fraction)
      (value : x = .nearest (sign = ['-']) (Decimal.ofDigits (whole ++ fraction) / 10 ^ fraction.length))
      (finite : x.isFinite = true) : Lexeme (sign ++ (whole ++ (point ++ fraction))) (.number x)

/-- The characters of which a lexeme is a run. A parenthesis and a quoted text are none. -/
def Kind.run? : Kind → Option (Char → Bool)
  | .comparator _ => some isComparatorChar
  | .connective _ | .name _ | .number _ => some (!isBoundary ·)
  | _ => none

/-- A run goes as far as its characters do. -/
def Kind.EndsBefore (k : Kind) (rest : List Char) : Prop := ∀ p ∈ k.run?, ∀ c ∈ rest.head?, p c = false

/-- A run begins where its characters do. -/
def Kind.StartsAfter (k : Kind) (before : List Char) : Prop := ∀ p ∈ k.run?, ∀ c ∈ before.getLast?, p c = false

/-! ## Quoted texts -/

theorem unquote_units {q : Char} (hq : q ≠ '\\') {units content : List Char} (h : Units q units content)
    (rest : List Char) : Text.unquote q (units ++ q :: rest) = some (content, units ++ [q], rest) := by
  induction h with
  | nil => simp [Text.unquote, hq]
  | plain quote backslash _ ih => simp [Text.unquote, quote, backslash, ih]
  | escaped _ ih => simp [Text.unquote, ih]

theorem units_of_unquote {q : Char} {cs content taken rest : List Char}
    (h : Text.unquote q cs = some (content, taken, rest)) :
    ∃ units, taken = units ++ [q] ∧ Units q units content := by
  fun_induction Text.unquote q cs generalizing content taken rest with
  | case1 => cases h
  | case2 => cases h
  | case3 c cs ih =>
    simp only [Option.map_eq_some_iff, Prod.mk.injEq, Prod.exists] at h
    obtain ⟨_, _, _, h, rfl, rfl, rfl⟩ := h
    obtain ⟨units, rfl, hu⟩ := ih h
    exact ⟨'\\' :: c :: units, rfl, .escaped hu⟩
  | case4 cs =>
    cases h
    exact ⟨[], rfl, .nil⟩
  | case5 c cs lone pair hc ih =>
    have backslash : c ≠ '\\' := fun hb => by
      cases cs with
      | nil => exact lone hb rfl
      | cons d cs => exact pair d cs hb rfl
    simp only [Option.map_eq_some_iff, Prod.mk.injEq, Prod.exists] at h
    obtain ⟨_, _, _, h, rfl, rfl, rfl⟩ := h
    obtain ⟨units, rfl, hu⟩ := ih h
    exact ⟨c :: units, rfl, .plain hc backslash hu⟩

/-! ## Words -/

theorem exists_sign (word : List Char) : ∃ sign, (sign = [] ∨ sign = ['+'] ∨ sign = ['-']) ∧
    word = sign ++ (Decimal.splitSign word).2 ∧ (Decimal.splitSign word).1 = decide (sign = ['-']) := by
  unfold Decimal.splitSign
  split
  · exact ⟨['+'], by simp, rfl, rfl⟩
  · exact ⟨['-'], by simp, rfl, rfl⟩
  · exact ⟨[], by simp, rfl, rfl⟩

theorem keyword_of_keyword? {word : List Char} {k : Connective} (h : keyword? word = some k) :
    word = k.keyword.toList := by
  unfold keyword? at h
  split at h
  · cases h
    assumption
  · split at h <;> cases h
    assumption

/-- A word is read as what the grammar makes of it. -/
theorem lexeme_of_classify {word : List Char} {k : Kind} (h : classify word = .ok k) :
    Lexeme word k ∧ k.run? = some (!isBoundary ·) := by
  unfold classify at h
  split at h
  · rename_i c hc
    cases h
    rw [keyword_of_keyword? hc]
    exact ⟨.connective c, rfl⟩
  · rename_i noKeyword
    dsimp only at h
    obtain ⟨sign, hsign, hword, negative⟩ := exists_sign word
    split at h
    · rename_i whole fraction parts
      obtain ⟨point, hparts, hwhole, -, hpoint⟩ := numberParts?_eq_some.1 parts
      split at h
      · rename_i digits
        split at h
        · rename_i finite
          cases h
          refine ⟨?_, rfl⟩
          rw [negative] at finite ⊢
          rw [hword, hparts]
          exact .number ⟨hsign, hwhole, hpoint, List.all_eq_true.1 digits⟩ (value_ofParts _ _ _) finite
        · cases h
      · cases h
    · split at h
      · rename_i form
        cases h
        have name : isName (String.ofList word) = true := isName_iff.2 (by simp [noKeyword, form])
        have := Lexeme.name name
        rw [String.toList_ofList] at this
        exact ⟨this, rfl⟩
      · cases h

/-! ## Runs -/

theorem Kind.eq_of_mem_run? {k : Kind} {p : Char → Bool} (h : p ∈ k.run?) :
    p = isComparatorChar ∨ p = (!isBoundary ·) := by
  cases k <;> cases h <;> simp

theorem Lexeme.ne_nil {text : List Char} {k : Kind} (h : Lexeme text k) : text ≠ [] := by
  cases h with
  | openParen => simp
  | closeParen => simp
  | quoted => simp
  | comparator c => cases c <;> decide
  | connective k => cases k <;> decide
  | name name => exact (isName_word name).1
  | number form => exact form.ne_nil

theorem Lexeme.run {text : List Char} {k : Kind} (h : Lexeme text k) : ∀ p ∈ k.run?, ∀ c ∈ text, p c = true := by
  cases h with
  | openParen => rintro _ ⟨⟩
  | closeParen => rintro _ ⟨⟩
  | quoted => rintro _ ⟨⟩
  | comparator c =>
    rintro _ ⟨⟩
    exact isComparatorChar_of_mem_symbol c
  | connective k =>
    rintro _ ⟨⟩
    simpa using isBoundary_eq_false_of_mem_keyword k
  | name name =>
    rintro _ ⟨⟩
    simpa using (isName_word name).2
  | number form =>
    rintro _ ⟨⟩ c hc
    simpa using form.isBoundary_eq_false c hc

/-- A lexeme that is no run ends with a character that ends every run. -/
theorem Lexeme.isBoundary_of_mem_getLast? {text : List Char} {k : Kind} (h : Lexeme text k) (none : k.run? = none) :
    ∀ c ∈ text.getLast?, isBoundary c = true ∧ isComparatorChar c = false := by
  cases h with
  | openParen => rintro _ ⟨⟩; decide
  | closeParen => rintro _ ⟨⟩; decide
  | @quoted q units content quote =>
    intro c hc
    rw [← List.cons_append, List.getLast?_concat] at hc
    cases hc
    rcases quote with rfl | rfl <;> decide
  | _ => cases none

/-- A run begins where its characters do, since the lexeme before it would not have ended there otherwise. -/
theorem Lexeme.startsAfter {text text' rest : List Char} {k k' : Kind} (h : Lexeme text k)
    (ends : k.EndsBefore (text' ++ rest)) (h' : Lexeme text' k') : k'.StartsAfter text := by
  intro p hp c hc
  rw [← Bool.not_eq_true]
  intro hpc
  cases hk : k.run? with
  | none =>
    obtain ⟨boundary, noComparator⟩ := h.isBoundary_of_mem_getLast? hk c hc
    rcases Kind.eq_of_mem_run? hp with rfl | rfl <;> simp_all
  | some q =>
    have hqc := h.run q hk c (List.mem_of_getLast? hc)
    have same : q = p := by
      -- no character is of both runs
      rcases Kind.eq_of_mem_run? hk with rfl | rfl <;> rcases Kind.eq_of_mem_run? hp with rfl | rfl
      · rfl
      · have word : isBoundary c = false := by simpa using hpc
        rw [isComparatorChar_eq_false word] at hqc
        cases hqc
      · have word : isBoundary c = false := by simpa using hqc
        rw [isComparatorChar_eq_false word] at hpc
        cases hpc
      · rfl
    obtain ⟨d, ds, rfl⟩ := List.exists_cons_of_ne_nil h'.ne_nil
    have hpd := h'.run p hp d (List.mem_cons_self ..)
    have hqd := ends q hk d rfl
    rw [same, hpd] at hqd
    cases hqd

/-! ## One lexeme -/

theorem begins_quoted {q : Char} (quote : q = '\'' ∨ q = '"') {units content : List Char}
    (inside : Units q units content) (rest : List Char) :
    Begins (q :: (units ++ [q]) ++ rest) (.lexeme (q :: (units ++ [q])) (.ok (.text (String.ofList content)))) rest := by
  have notBackslash : q ≠ '\\' := by rcases quote with rfl | rfl <;> decide
  have cut := unquote_units notBackslash inside rest
  refine ⟨q, units ++ q :: rest, by simp, ?_⟩
  have : Text.isBlank q = false ∧ q ≠ '(' ∧ q ≠ ')' := by rcases quote with rfl | rfl <;> decide
  rw [firstPiece, if_neg (by simp [this.1]), if_neg this.2.1, if_neg this.2.2, if_pos quote, cut]

/-- A lexeme that ends before the rest is cut off, with its token. -/
theorem Lexeme.begins {text rest : List Char} {k : Kind} (h : Lexeme text k) (ends : k.EndsBefore rest) :
    Begins (text ++ rest) (.lexeme text (.ok k)) rest := by
  cases h with
  | openParen => exact ⟨'(', rest, rfl, rfl⟩
  | closeParen => exact ⟨')', rest, rfl, rfl⟩
  | quoted quote inside => exact begins_quoted quote inside rest
  | comparator c =>
    rw [← classifyRun_symbol]
    exact begins_run (by cases c <;> decide) (isComparatorChar_of_mem_symbol c) (ends _ rfl)
  | connective k =>
    rw [← classify_keyword]
    exact begins_word (by cases k <;> decide) (isBoundary_eq_false_of_mem_keyword k) (by simpa using ends _ rfl)
  | name name =>
    rw [← classify_name name]
    exact begins_word (isName_word name).1 (isName_word name).2 (by simpa using ends _ rfl)
  | number form value finite =>
    rw [← form.classify value finite]
    exact begins_word form.ne_nil form.isBoundary_eq_false (by simpa using ends _ rfl)

theorem head?_dropWhile {p : Char → Bool} (cs : List Char) : ∀ c ∈ (cs.dropWhile p).head?, p c = false := by
  intro c hc
  have first := List.head?_dropWhile_not p cs
  rwa [Option.mem_def.1 hc] at first

theorem endsBefore_dropWhile {k : Kind} {p : Char → Bool} (h : k.run? = some p) (t : List Char) :
    k.EndsBefore (t.dropWhile p) := by
  intro q hq
  obtain rfl : p = q := Option.some.inj (h.symm.trans hq)
  exact head?_dropWhile t

theorem lexeme_of_classifyRun {run : List Char} {k : Kind} (h : classifyRun run = .ok k) :
    Lexeme run k ∧ k.run? = some isComparatorChar := by
  unfold classifyRun at h
  split at h
  · rename_i c hc
    cases h
    have symbol := congrArg String.toList (Comparator.symbol_of_ofSymbol? hc)
    rw [String.toList_ofList] at symbol
    exact ⟨symbol ▸ .comparator c, rfl⟩
  · cases h

/-- What is cut off with a token is a lexeme that ends there. -/
theorem lexeme_of_begins {cs text rest : List Char} {k : Kind} (h : Begins cs (.lexeme text (.ok k)) rest) :
    cs = text ++ rest ∧ Lexeme text k ∧ k.EndsBefore rest := by
  obtain ⟨c, t, rfl, hp⟩ := h
  have whole : text ++ rest = c :: t := by
    have := firstPiece_text c t
    rwa [hp] at this
  refine ⟨whole.symm, ?_⟩
  revert hp
  fun_cases firstPiece c t <;> intro hp
  case case1 => cases hp
  case case2 hc =>
    cases hp
    exact ⟨hc ▸ .openParen, by rintro _ ⟨⟩⟩
  case case3 hc =>
    cases hp
    exact ⟨hc ▸ .closeParen, by rintro _ ⟨⟩⟩
  case case4 quote content taken after cut =>
    cases hp
    obtain ⟨units, rfl, inside⟩ := units_of_unquote cut
    exact ⟨.quoted quote inside, by rintro _ ⟨⟩⟩
  case case5 => cases hp
  case case6 =>
    obtain ⟨hlexeme, rfl⟩ := Prod.mk.inj hp
    obtain ⟨rfl, reading⟩ := Piece.lexeme.inj hlexeme
    obtain ⟨lexeme, run⟩ := lexeme_of_classifyRun reading
    exact ⟨lexeme, endsBefore_dropWhile run t⟩
  case case7 =>
    obtain ⟨hlexeme, rfl⟩ := Prod.mk.inj hp
    obtain ⟨rfl, reading⟩ := Piece.lexeme.inj hlexeme
    obtain ⟨lexeme, run⟩ := lexeme_of_classify reading
    exact ⟨lexeme, endsBefore_dropWhile run t⟩

end Eligibility.Token
