/-
The lexemes of JSON text: brackets, separators, keywords, numbers and quoted texts. Scanning stops
at the first character that starts none, and says whether it came to the end.
-/
import Eligibility.Json.Basic
import Eligibility.Text.HexDigit

namespace Eligibility.Json

/-- A lexeme of JSON text. -/
inductive Lexeme where
  | openList
  | closeList
  | openObject
  | closeObject
  | comma
  | colon
  | null
  | bool (b : Bool)
  | number (n : Number)
  | text (t : Text)

/-- The characters that may stand between lexemes. -/
def isSpace (c : Char) : Bool := c = ' ' || c = '\t' || c = '\n' || c = '\r'

/-! ## Quoted texts -/

/-- One unit of a quoted text: a character as it stands or escaped by its own sign, or a 16-bit code
from a numeric escape. -/
inductive TextUnit where
  | char (c : Char)
  | code (n : Nat)

/-- The character that follows a backslash, as what it stands for. -/
def escaped? (c : Char) : Option Char :=
  match c with
  | '"' | '\\' | '/' => some c
  | 'b' => some '\x08'
  | 'f' => some '\x0c'
  | 'n' => some '\n'
  | 'r' => some '\r'
  | 't' => some '\t'
  | _ => none

/-- The units up to the closing quote, and what follows it. A control character must be escaped. -/
def scanUnits : List Char → Option (List TextUnit × List Char)
  | [] => none
  | '"' :: rest => some ([], rest)
  | '\\' :: 'u' :: a :: b :: c :: d :: rest => do
    let n ← Text.hexNumber? [a, b, c, d]
    let (units, rest) ← scanUnits rest
    return (.code n :: units, rest)
  | '\\' :: c :: rest => do
    let c ← escaped? c
    let (units, rest) ← scanUnits rest
    return (.char c :: units, rest)
  | c :: rest =>
    if c < ' ' then none
    else do
      let (units, rest) ← scanUnits rest
      return (.char c :: units, rest)

/-- Whether a code is the first half of a surrogate pair. -/
def isHighHalf (n : Nat) : Bool := 0xd800 ≤ n && n < 0xdc00

/-- Whether a code is the second half of a surrogate pair. -/
def isLowHalf (n : Nat) : Bool := 0xdc00 ≤ n && n < 0xe000

/-- The characters that units stand for; two halves make one character, and a lone half none. -/
def decodeUnits : List TextUnit → Option (List Char)
  | [] => some []
  | .char c :: units => (decodeUnits units).map (c :: ·)
  | .code n :: .code m :: units =>
    if isHighHalf n && isLowHalf m then
      (decodeUnits units).map (Char.ofNat (0x10000 + (n - 0xd800) * 1024 + (m - 0xdc00)) :: ·)
    else if isHighHalf n || isLowHalf n then none
    else (decodeUnits (.code m :: units)).map (Char.ofNat n :: ·)
  | .code n :: units =>
    if isHighHalf n || isLowHalf n then none else (decodeUnits units).map (Char.ofNat n :: ·)

/-! ## Numbers -/

/-- The digits at the start of a text, and what follows them. -/
def scanDigits (cs : List Char) : List Char × List Char := (cs.takeWhile Char.isDigit, cs.dropWhile Char.isDigit)

/-- The digits after a point, if there is one; then there must be a digit. -/
def scanFraction : List Char → Option (List Char × List Char)
  | '.' :: rest =>
    match scanDigits rest with
    | ([], _) => none
    | (digits, rest) => some (digits, rest)
  | rest => some ([], rest)

/-- The power of ten after `e` or `E`, if there is one; then there must be a digit. -/
def scanPower : List Char → Option (Option Int × List Char)
  | [] => some (none, [])
  | c :: rest =>
    if c = 'e' ∨ c = 'E' then
      let (negative, unsigned) := Decimal.splitSign rest
      match scanDigits unsigned with
      | ([], _) => none
      | (digits, rest) => some (some (Decimal.signed negative digits), rest)
    else some (none, c :: rest)

/-- A number, after its minus if it has one. Its whole part has no zero in front. -/
def scanNumber (negative : Bool) (cs : List Char) : Option (Number × List Char) :=
  let (whole, rest) := scanDigits cs
  if whole = [] ∨ (whole.head? = some '0' ∧ whole ≠ ['0']) then none
  else do
    let (fraction, rest) ← scanFraction rest
    let (power?, rest) ← scanPower rest
    let d := Decimal.ofParts negative whole fraction
    let isWhole := fraction.isEmpty && power?.isNone
    return (.ofDecimal { d with exponent := d.exponent + power?.getD 0 } isWhole, rest)

/-! ## Lexemes -/

/-- The lexeme at the start of a text, and what follows it. -/
def scanLexeme : List Char → Option (Lexeme × List Char)
  | '[' :: rest => some (.openList, rest)
  | ']' :: rest => some (.closeList, rest)
  | '\x7b' :: rest => some (.openObject, rest)
  | '\x7d' :: rest => some (.closeObject, rest)
  | ',' :: rest => some (.comma, rest)
  | ':' :: rest => some (.colon, rest)
  | 'n' :: 'u' :: 'l' :: 'l' :: rest => some (.null, rest)
  | 't' :: 'r' :: 'u' :: 'e' :: rest => some (.bool true, rest)
  | 'f' :: 'a' :: 'l' :: 's' :: 'e' :: rest => some (.bool false, rest)
  | '"' :: rest => do
    let (units, rest) ← scanUnits rest
    return (.text ((decodeUnits units).map String.ofList), rest)
  | '-' :: rest => do
    let (n, rest) ← scanNumber true rest
    return (.number n, rest)
  | cs => do
    let (n, rest) ← scanNumber false cs
    return (.number n, rest)

theorem length_dropWhile_le {α : Type} (p : α → Bool) (xs : List α) : (xs.dropWhile p).length ≤ xs.length :=
  (List.dropWhile_suffix p).length_le

theorem scanUnits_length {cs rest : List Char} {units : List TextUnit}
    (h : scanUnits cs = some (units, rest)) : rest.length < cs.length := by
  fun_induction scanUnits cs generalizing units rest <;>
    simp_all only [Option.bind_eq_bind, Option.bind_eq_some_iff, Option.pure_def, Option.some.injEq,
      Prod.mk.injEq, Prod.exists, reduceCtorEq, List.length_cons]
  · obtain ⟨-, rfl⟩ := h; omega
  · obtain ⟨_, _, _, _, h, -, rfl⟩ := h; grind
  · obtain ⟨_, _, _, _, h, -, rfl⟩ := h; grind
  · obtain ⟨_, _, h, -, rfl⟩ := h; grind

theorem scanDigits_length {cs digits rest : List Char} (h : scanDigits cs = (digits, rest)) :
    digits.length + rest.length = cs.length := by
  simp only [scanDigits, Prod.mk.injEq] at h
  rw [← h.1, ← h.2, ← List.length_append, List.takeWhile_append_dropWhile]

theorem scanFraction_length {cs digits rest : List Char} (h : scanFraction cs = some (digits, rest)) :
    rest.length ≤ cs.length := by
  unfold scanFraction at h
  split at h
  · split at h
    · cases h
    · rename_i heq
      have := scanDigits_length heq
      grind
  · grind

theorem scanPower_length {cs rest : List Char} {power : Option Int}
    (h : scanPower cs = some (power, rest)) : rest.length ≤ cs.length := by
  unfold scanPower at h
  split at h
  · grind
  · rename_i c tail
    split at h
    · have := Decimal.splitSign_length_le tail
      dsimp only at h
      split at h
      · cases h
      · rename_i heq
        have := scanDigits_length heq
        grind
    · grind

theorem scanNumber_length {negative : Bool} {cs rest : List Char} {n : Number}
    (h : scanNumber negative cs = some (n, rest)) : rest.length < cs.length := by
  simp only [scanNumber] at h
  split at h
  · cases h
  · rename_i hne
    simp only [Option.bind_eq_bind, Option.bind_eq_some_iff, Option.pure_def, Option.some.injEq,
      Prod.mk.injEq, Prod.exists] at h
    obtain ⟨_, _, hf, _, _, hp, -, rfl⟩ := h
    have := List.length_pos_iff.2 fun e => hne (.inl e)
    have := scanDigits_length (Prod.eta (scanDigits cs)).symm
    have := scanFraction_length hf
    have := scanPower_length hp
    omega

theorem scanLexeme_length {cs rest : List Char} {x : Lexeme} (h : scanLexeme cs = some (x, rest)) :
    rest.length < cs.length := by
  unfold scanLexeme at h
  split at h <;>
    simp only [Option.bind_eq_bind, Option.bind_eq_some_iff, Option.pure_def, Option.some.injEq,
      Prod.mk.injEq, Prod.exists] at h
  case h_10 =>
    obtain ⟨_, _, h, -, rfl⟩ := h
    have := scanUnits_length h
    grind
  case h_11 =>
    obtain ⟨_, _, h, -, rfl⟩ := h
    have := scanNumber_length h
    grind
  case h_12 =>
    obtain ⟨_, _, h, -, rfl⟩ := h
    exact scanNumber_length h
  all_goals grind

/-- The lexemes of a text up to the first character that starts none, and whether that is the end. -/
def lexemes (cs : List Char) : List Lexeme × Bool :=
  match _hd : cs.dropWhile isSpace with
  | [] => ([], true)
  | c :: rest =>
    match _hs : scanLexeme (c :: rest) with
    | none => ([], false)
    | some (x, rest') =>
      let (xs, complete) := lexemes rest'
      (x :: xs, complete)
termination_by cs.length
decreasing_by
  have := scanLexeme_length _hs
  have := length_dropWhile_le isSpace cs
  grind

end Eligibility.Json
