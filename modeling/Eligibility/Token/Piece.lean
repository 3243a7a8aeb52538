/-
Rule text cut into pieces. Every piece keeps its text, faulty ones included, so that a piece and what
follows it are the text again; the tokens are the pieces that are no white space, and the first faulty
piece refuses the text.
-/
import Eligibility.Token.Word

namespace Eligibility.Token

/-- A piece of rule text: one character of white space, or a lexeme and what it reads as. -/
inductive Piece where
  | gap (c : Char)
  | lexeme (text : List Char) (reading : Except SyntaxFault Kind)

/-- The text of a piece. -/
def Piece.text : Piece → List Char
  | gap c => [c]
  | lexeme text _ => text

/-- Whether comparators are written with a character. -/
def isComparatorChar (c : Char) : Bool := c = '<' || c = '>' || c = '=' || c = '!'

/-- Whether a character ends a word. -/
def isBoundary (c : Char) : Bool :=
  Text.isBlank c || c = '(' || c = ')' || c = '\'' || c = '"' || isComparatorChar c

/-- What a run of comparator characters is. -/
def classifyRun (run : List Char) : Except SyntaxFault Kind :=
  match Comparator.ofSymbol? (String.ofList run) with
  | some c => .ok (.comparator c)
  | none => .error (.unknownComparator (String.ofList run))

/-- The piece at the start of a text, and what follows it. A run of comparator characters and a word
go as far as they can; a quoted text without an end takes all. -/
def firstPiece (c : Char) (rest : List Char) : Piece × List Char :=
  if Text.isBlank c then (.gap c, rest)
  else if c = '(' then (.lexeme [c] (.ok .openParen), rest)
  else if c = ')' then (.lexeme [c] (.ok .closeParen), rest)
  else if c = '\'' ∨ c = '"' then
    match Text.unquote c rest with
    | some (content, taken, rest) => (.lexeme (c :: taken) (.ok (.text (String.ofList content))), rest)
    | none => (.lexeme (c :: rest) (.error .unclosedText), [])
  else if isComparatorChar c then
    let run := c :: rest.takeWhile isComparatorChar
    (.lexeme run (classifyRun run), rest.dropWhile isComparatorChar)
  else
    let word := c :: rest.takeWhile (!isBoundary ·)
    (.lexeme word (classify word), rest.dropWhile (!isBoundary ·))

/-- Nothing of a text is lost where a piece is cut off. -/
theorem firstPiece_text (c : Char) (rest : List Char) :
    (firstPiece c rest).1.text ++ (firstPiece c rest).2 = c :: rest := by
  fun_cases firstPiece c rest
  case case4 h => simp [Piece.text, (Text.unquote_taken h).1]
  case case6 => exact congrArg (c :: ·) List.takeWhile_append_dropWhile
  case case7 => exact congrArg (c :: ·) List.takeWhile_append_dropWhile
  all_goals simp [Piece.text]

theorem firstPiece_text_ne_nil (c : Char) (rest : List Char) : (firstPiece c rest).1.text ≠ [] := by
  fun_cases firstPiece c rest <;> simp_all [Piece.text]

theorem firstPiece_length (c : Char) (rest : List Char) :
    (firstPiece c rest).2.length < (c :: rest).length := by
  have h := congrArg List.length (firstPiece_text c rest)
  have := List.length_pos_iff.2 (firstPiece_text_ne_nil c rest)
  rw [List.length_append] at h
  omega

/-- Cuts a text into pieces. -/
def pieces : List Char → List Piece
  | [] => []
  | c :: rest => (firstPiece c rest).1 :: pieces (firstPiece c rest).2
termination_by cs => cs.length
decreasing_by exact firstPiece_length c rest

/-- The tokens of pieces that start at a byte of the text. -/
def ofPieces (position : Nat) : List Piece → Except Fault (List Token)
  | [] => .ok []
  | .gap c :: ps => ofPieces (position + c.utf8Size) ps
  | .lexeme _ (.error fault) :: _ => .error (.badRule position fault)
  | .lexeme text (.ok kind) :: ps =>
    (ofPieces (position + Text.byteLength text) ps).map (⟨kind, position⟩ :: ·)

/-- The tokens of a text. -/
def tokenize (text : String) : Except Fault (List Token) := ofPieces 0 (pieces text.toList)

end Eligibility.Token
