/-
The lexemes of TOML. Texts have their escapes resolved; what is neither a text nor a sign of its own
is a word, whose meaning depends on where it stands. Line ends are line feeds, each of which may
have a carriage return before it.
-/
import Eligibility.Text.HexDigit

namespace Eligibility.Toml

/-- A lexeme of TOML. -/
inductive Lexeme where
  | dot
  | equals
  | comma
  | openList
  | closeList
  | openTable
  | closeTable
  /-- Spaces and tabs, or a comment. -/
  | blank (cs : List Char)
  | lineEnd
  | word (cs : List Char)
  /-- A text in quotes, and whether it is of the kind that may have line ends. -/
  | text (cs : List Char) (spansLines : Bool)
deriving DecidableEq

/-- Whether a character is a space or a tab. -/
def isSpace (c : Char) : Bool := c = ' ' || c = '\t'

/-- Whether a character may stand in a text or a comment as it is. -/
def isPlain (c : Char) : Bool := c = '\t' || ' ' ≤ c && c ≠ '\x7f'

/-- The characters that end a word. -/
def wordEnds : List Char :=
  ['.', '=', ',', '[', ']', '\x7b', '\x7d', '#', ' ', '\t', '\r', '\n', '"', '\'']

/-- Whether a character is part of a word. -/
def isWordChar (c : Char) : Bool := !wordEnds.contains c

/-! ## Texts -/

/-- The character of a code point, unless it is none. -/
def codePoint? (cs : List Char) : Option Char := do
  let n ← Text.hexNumber? cs
  if n.isValidChar then some (Char.ofNat n) else none

/-- What a letter or sign after a backslash stands for. -/
def escaped? (c : Char) : Option Char :=
  match c with
  | '"' | '\\' => some c
  | 'b' => some '\x08'
  | 'e' => some '\x1b'
  | 'f' => some '\x0c'
  | 'n' => some '\n'
  | 'r' => some '\r'
  | 't' => some '\t'
  | _ => none

/-- What follows space and line ends. -/
def skipGap : List Char → List Char
  | '\r' :: '\n' :: cs => skipGap cs
  | c :: cs => if isSpace c || c = '\n' then skipGap cs else c :: cs
  | [] => []

/-- What follows a line end, if one comes first. -/
def skipLineEnd? : List Char → Option (List Char)
  | '\n' :: cs => some cs
  | '\r' :: '\n' :: cs => some cs
  | _ => none

/-- The character that an escape stands for, read behind its backslash, and what follows it. -/
def scanEscape : List Char → Option (Char × List Char)
  | 'x' :: a :: b :: rest => (codePoint? [a, b]).map (·, rest)
  | 'u' :: a :: b :: c :: d :: rest => (codePoint? [a, b, c, d]).map (·, rest)
  | 'U' :: a :: b :: c :: d :: e :: f :: g :: h :: rest => (codePoint? [a, b, c, d, e, f, g, h]).map (·, rest)
  | c :: rest => (escaped? c).map (·, rest)
  | [] => none

/-- What follows a backslash at the end of a line: the text goes on at the next character that is
neither space nor a line end. -/
def scanJoint (cs : List Char) : Option (List Char) := (skipLineEnd? (cs.dropWhile isSpace)).map skipGap

/-- The next part of a text, one character or none, and what follows it. Escapes count in double
quotes only, and line ends and joints only in a text of lines. -/
def scanUnit (quote : Char) (spansLines : Bool) : List Char → Option (List Char × List Char)
  | [] => none
  | c :: rest =>
    if c = '\\' ∧ quote = '"' then
      match scanEscape rest with
      | some (c, rest) => some ([c], rest)
      | none => if spansLines then (scanJoint rest).map ([], ·) else none
    else if isPlain c then some ([c], rest)
    else if spansLines && (c = '\n' || c = '\r' && rest.head? = some '\n') then some ([c], rest)
    else none

/-- What follows the quotes that close a text. Of more than three quotes at the end of a text of
lines, up to two belong to the text. -/
def scanClosing (quote : Char) : Bool → List Char → Option (List Char × List Char)
  | false, c :: rest => if c = quote then some ([], rest) else none
  | true, a :: b :: c :: rest =>
    if a = quote ∧ b = quote ∧ c = quote then
      let inner := (rest.take 2).takeWhile (· = quote)
      some (inner, rest.drop inner.length)
    else none
  | _, _ => none

theorem skipGap_length (cs : List Char) : (skipGap cs).length ≤ cs.length := by
  fun_induction skipGap cs <;> grind

theorem skipLineEnd?_length {cs rest : List Char} (h : skipLineEnd? cs = some rest) : rest.length < cs.length := by
  unfold skipLineEnd? at h
  split at h <;> grind

theorem scanEscape_length {cs rest : List Char} {c : Char} (h : scanEscape cs = some (c, rest)) :
    rest.length < cs.length := by
  unfold scanEscape at h
  split at h
  case h_5 => cases h
  all_goals
    obtain ⟨_, _, heq⟩ := Option.map_eq_some_iff.1 h
    simp only [Prod.mk.injEq] at heq
    simp only [← heq.2, List.length_cons]
    omega

theorem scanJoint_length {cs rest : List Char} (h : scanJoint cs = some rest) : rest.length < cs.length := by
  obtain ⟨r, hr, rfl⟩ := Option.map_eq_some_iff.1 h
  have := skipLineEnd?_length hr
  have := skipGap_length r
  have := (List.dropWhile_suffix isSpace (l := cs)).length_le
  omega

theorem scanUnit_length {quote : Char} {spansLines : Bool} {cs unit rest : List Char}
    (h : scanUnit quote spansLines cs = some (unit, rest)) : rest.length < cs.length := by
  unfold scanUnit at h
  split at h
  · cases h
  · split at h
    · split at h
      · rename_i he
        have := scanEscape_length he
        grind
      · split at h
        · obtain ⟨r, hr, heq⟩ := Option.map_eq_some_iff.1 h
          have := scanJoint_length hr
          grind
        · cases h
    · grind

theorem scanClosing_length {quote : Char} {spansLines : Bool} {cs text rest : List Char}
    (h : scanClosing quote spansLines cs = some (text, rest)) : rest.length < cs.length := by
  unfold scanClosing at h
  split at h <;> grind

/-- A text up to its closing quotes, and what follows them. -/
def scanText (quote : Char) (spansLines : Bool) (cs : List Char) : Option (List Char × List Char) :=
  match scanClosing quote spansLines cs with
  | some closed => some closed
  | none =>
    match _h : scanUnit quote spansLines cs with
    | none => none
    | some (unit, rest) => (scanText quote spansLines rest).map fun (text, rest) => (unit ++ text, rest)
termination_by cs.length
decreasing_by exact scanUnit_length _h

theorem scanText_length {quote : Char} {spansLines : Bool} {cs text rest : List Char}
    (h : scanText quote spansLines cs = some (text, rest)) : rest.length < cs.length := by
  fun_induction scanText quote spansLines cs generalizing text rest with
  | case1 _ _ hc => exact scanClosing_length (hc.trans h)
  | case2 => cases h
  | case3 _ _ _ _ hu ih =>
    obtain ⟨_, hs, heq⟩ := Option.map_eq_some_iff.1 h
    have := ih hs
    have := scanUnit_length hu
    grind

/-! ## Lexemes -/

/-- A text of lines behind its opening quotes; a line end that follows them does not count. -/
def scanLines (quote : Char) (cs : List Char) : Option (List Char × List Char) :=
  scanText quote true ((skipLineEnd? cs).getD cs)

/-- Whether a line ends before some characters. -/
def endsLine (cs : List Char) : Bool := cs.isEmpty || (skipLineEnd? cs).isSome

/-- The lexeme at the start of a text, and what follows it. -/
def scanLexeme : List Char → Option (Lexeme × List Char)
  | '\n' :: rest => some (.lineEnd, rest)
  | '\r' :: '\n' :: rest => some (.lineEnd, rest)
  | '.' :: rest => some (.dot, rest)
  | '=' :: rest => some (.equals, rest)
  | ',' :: rest => some (.comma, rest)
  | '[' :: rest => some (.openList, rest)
  | ']' :: rest => some (.closeList, rest)
  | '\x7b' :: rest => some (.openTable, rest)
  | '\x7d' :: rest => some (.closeTable, rest)
  | '"' :: '"' :: '"' :: rest => (scanLines '"' rest).map fun (text, rest) => (.text text true, rest)
  | '\'' :: '\'' :: '\'' :: rest => (scanLines '\'' rest).map fun (text, rest) => (.text text true, rest)
  | '"' :: rest => (scanText '"' false rest).map fun (text, rest) => (.text text false, rest)
  | '\'' :: rest => (scanText '\'' false rest).map fun (text, rest) => (.text text false, rest)
  | '#' :: rest =>
    if endsLine (rest.dropWhile isPlain) then some (.blank ('#' :: rest.takeWhile isPlain), rest.dropWhile isPlain)
    else none
  | c :: rest =>
    if isSpace c then some (.blank (c :: rest.takeWhile isSpace), rest.dropWhile isSpace)
    else if isWordChar c then some (.word (c :: rest.takeWhile isWordChar), rest.dropWhile isWordChar)
    else none
  | [] => none

theorem scanLines_length {quote : Char} {cs text rest : List Char} (h : scanLines quote cs = some (text, rest)) :
    rest.length < cs.length := by
  have := scanText_length h
  cases hs : skipLineEnd? cs with
  | none => simpa [hs] using this
  | some r =>
    have := skipLineEnd?_length hs
    simp only [hs, Option.getD_some] at *
    omega

theorem scanLexeme_length {cs rest : List Char} {x : Lexeme} (h : scanLexeme cs = some (x, rest)) :
    rest.length < cs.length := by
  have drop (p : Char → Bool) (cs : List Char) : (cs.dropWhile p).length ≤ cs.length :=
    (List.dropWhile_suffix p).length_le
  unfold scanLexeme at h
  split at h
  case h_10 | h_11 =>
    obtain ⟨_, hs, heq⟩ := Option.map_eq_some_iff.1 h
    have := scanLines_length hs
    grind
  case h_12 | h_13 =>
    obtain ⟨_, hs, heq⟩ := Option.map_eq_some_iff.1 h
    have := scanText_length hs
    grind
  all_goals grind

/-- The lexemes of a text, unless a character starts none. -/
def lexemes (cs : List Char) : Option (List Lexeme) :=
  if cs.isEmpty then some []
  else
    match _h : scanLexeme cs with
    | none => none
    | some (x, rest) => (lexemes rest).map (x :: ·)
termination_by cs.length
decreasing_by exact scanLexeme_length _h

end Eligibility.Toml
