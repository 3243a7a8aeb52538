/-
JSON text as it is written, cut into lexemes again. A character inside quotes is read as the one unit that
it was written as, so a quoted text reads as its content. The laws of single lexemes give those of a text that
is put together from them, with any space in between (`Spells`).
-/
import Eligibility.Proofs.Json.Number

namespace Eligibility.Json

/-! ## Quoted texts -/

/-- The unit stands for the character: as it is, or by its code if that is a control character. -/
def TextUnit.StandsFor : TextUnit → Char → Prop
  | .char a, c => a = c
  | .code n, c => n = c.toNat ∧ c < ' '

theorem hexNumber?_control : ∀ n < 32, Text.hexNumber? ['0', '0', hexDigit (n / 16), hexDigit (n % 16)] = some n := by
  decide

theorem toNat_lt_of_lt_space {c : Char} (h : c < ' ') : c.toNat < 32 := h

theorem scanUnits_cons {c : Char} (quote : c ≠ '"') (backslash : c ≠ '\\') (control : ¬ c < ' ') (t : List Char) :
    scanUnits (c :: t) = (scanUnits t).map fun (units, rest) => (.char c :: units, rest) := by
  rw [scanUnits, if_neg control]
  · cases scanUnits t <;> rfl
  · exact quote
  · exact fun _ _ _ _ _ h _ => backslash h
  · exact fun _ _ h _ => backslash h

/-- A character inside quotes is scanned as one unit. -/
theorem scanUnits_escape (c : Char) :
    ∃ u : TextUnit, u.StandsFor c ∧ ∀ t, scanUnits (escape c ++ t) =
      (scanUnits t).map fun (units, rest) => (u :: units, rest) := by
  unfold escape
  split
  case h_8 quote backslash _ _ _ _ _ =>
    by_cases control : c < ' '
    · rw [if_pos control]
      refine ⟨.code c.toNat, ⟨rfl, control⟩, fun t => ?_⟩
      show scanUnits ('\\' :: 'u' :: '0' :: '0' :: _ :: _ :: t) = _
      rw [scanUnits, hexNumber?_control c.toNat (toNat_lt_of_lt_space control)]
      cases scanUnits t <;> rfl
    · rw [if_neg control]
      exact ⟨.char c, rfl, scanUnits_cons quote backslash control⟩
  -- the characters with an escape of their own
  all_goals
    refine ⟨.char _, rfl, fun t => ?_⟩
    simp only [List.cons_append, List.nil_append]
    rw [scanUnits]
    · cases scanUnits t <;> rfl
    · simp

theorem exists_units (cs t : List Char) : ∃ us, List.Forall₂ TextUnit.StandsFor us cs ∧
    scanUnits (cs.flatMap escape ++ '"' :: t) = some (us, t) := by
  induction cs with
  | nil => exact ⟨[], .nil, by rw [List.flatMap_nil, List.nil_append, scanUnits]⟩
  | cons c cs ih =>
    obtain ⟨us, hus, scan⟩ := ih
    obtain ⟨u, hu, first⟩ := scanUnits_escape c
    refine ⟨u :: us, .cons hu hus, ?_⟩
    rw [List.flatMap_cons, List.append_assoc, first, scan]
    rfl

/-- A code that is no half of a pair is decoded by itself, whatever follows it. -/
theorem decodeUnits_code {n : ℕ} (high : isHighHalf n = false) (low : isLowHalf n = false) (us : List TextUnit) :
    decodeUnits (.code n :: us) = (decodeUnits us).map (Char.ofNat n :: ·) := by
  rcases us with _ | ⟨_ | m, us⟩ <;> simp [decodeUnits, high, low]

theorem decodeUnits_eq_some {us : List TextUnit} {cs : List Char} (h : List.Forall₂ TextUnit.StandsFor us cs) :
    decodeUnits us = some cs := by
  induction h with
  | nil => rfl
  | @cons u c us cs hu _ ih =>
    cases u with
    | char a =>
      obtain rfl : a = c := hu
      rw [decodeUnits, ih]
      rfl
    | code n =>
      obtain ⟨rfl, control⟩ := hu
      have small := toNat_lt_of_lt_space control
      rw [decodeUnits_code (by simp [isHighHalf]; omega) (by simp [isLowHalf]; omega), ih, Char.ofNat_toNat]
      rfl

/-- What is written for a text reads as that text, whatever follows it. -/
theorem scanLexeme_quote (s : String) (t : List Char) : scanLexeme (quote s ++ t) = some (.text (some s), t) := by
  obtain ⟨us, hus, scan⟩ := exists_units s.toList t
  have split : quote s ++ t = '"' :: (s.toList.flatMap escape ++ '"' :: t) := by simp [quote]
  rw [split, scanLexeme, scan]
  simp [decodeUnits_eq_some hus]

/-! ## Cutting off one lexeme -/

theorem lexemes_eq (cs : List Char) : lexemes cs =
    match cs.dropWhile isSpace with
    | [] => ([], true)
    | c :: rest =>
      match scanLexeme (c :: rest) with
      | none => ([], false)
      | some (x, rest) => (x :: (lexemes rest).1, (lexemes rest).2) := by
  rw [lexemes]
  split <;> rename_i heq
  · rw [heq]
  · rw [heq]
    dsimp only
    split <;> rename_i scan
    · rw [scan]
    · rw [scan]

theorem lexemes_nil : lexemes [] = ([], true) := by
  rw [lexemes_eq]
  rfl

theorem lexemes_space {c : Char} (h : isSpace c = true) (t : List Char) : lexemes (c :: t) = lexemes t := by
  rw [lexemes_eq, lexemes_eq t, List.dropWhile_cons_of_pos h]

/-- No lexeme starts with a space. -/
theorem scanLexeme_of_isSpace {c : Char} (h : isSpace c = true) (t : List Char) : scanLexeme (c :: t) = none := by
  simp only [isSpace, Bool.or_eq_true, decide_eq_true_eq] at h
  rcases h with ((rfl | rfl) | rfl) | rfl <;> rfl

theorem lexemes_of_scanLexeme {cs t : List Char} {x : Lexeme} (h : scanLexeme cs = some (x, t)) :
    lexemes cs = (x :: (lexemes t).1, (lexemes t).2) := by
  cases cs with
  | nil => cases h
  | cons c cs =>
    have noSpace : ¬ isSpace c = true := by
      intro space
      rw [scanLexeme_of_isSpace space] at h
      cases h
    rw [lexemes_eq, List.dropWhile_cons_of_neg noSpace]
    dsimp only
    rw [h]

/-! ## Texts put together from lexemes -/

/-- A text reads as these lexemes, before any text that does not go on with a number. -/
def Spells (cs : List Char) (xs : List Lexeme) : Prop :=
  ∀ t, Apart t → lexemes (cs ++ t) = (xs ++ (lexemes t).1, (lexemes t).2)

theorem spells_one {cs : List Char} {x : Lexeme} (h : ∀ t, Apart t → scanLexeme (cs ++ t) = some (x, t)) :
    Spells cs [x] := by
  intro t ht
  rw [lexemes_of_scanLexeme (h t ht)]
  rfl

theorem spells_quote (s : String) : Spells (quote s) [.text (some s)] := spells_one fun t _ => scanLexeme_quote s t

theorem spells_keyword (b : Bool) : Spells (keyword b) [.bool b] := by
  cases b <;> exact spells_one fun t _ => rfl

theorem spells_nullText : Spells nullText [.null] := spells_one fun _ _ => rfl

theorem Spells.append {cs ds : List Char} {xs ys : List Lexeme} (hc : Spells cs xs) (hd : Spells ds ys)
    (apart : ∀ t, Apart (ds ++ t)) : Spells (cs ++ ds) (xs ++ ys) := by
  intro t ht
  rw [List.append_assoc, hc _ (apart t), hd t ht, List.append_assoc]

/-- A sign that is a lexeme by itself goes before the text. -/
theorem Spells.sign {c : Char} {x : Lexeme} (hx : ∀ t, scanLexeme (c :: t) = some (x, t)) {cs : List Char}
    {xs : List Lexeme} (h : Spells cs xs) : Spells (c :: cs) (x :: xs) := by
  intro t ht
  rw [List.cons_append, lexemes_of_scanLexeme (hx _), h t ht]
  rfl

theorem Spells.blank {c : Char} (hc : isSpace c = true) {cs : List Char} {xs : List Lexeme} (h : Spells cs xs) :
    Spells (c :: cs) xs := by
  intro t ht
  rw [List.cons_append, lexemes_space hc]
  exact h t ht

theorem Spells.space {cs : List Char} {xs : List Lexeme} (h : Spells cs xs) : Spells (' ' :: cs) xs :=
  h.blank (by decide)

theorem Spells.newline {cs : List Char} {xs : List Lexeme} (h : Spells cs xs) (level : ℕ) :
    Spells (newline level ++ cs) xs := by
  refine Spells.blank (by decide) ?_
  induction 2 * level with
  | zero => exact h
  | succ n ih => exact ih.space

theorem Spells.lexemes {cs : List Char} {xs : List Lexeme} (h : Spells cs xs) : lexemes cs = (xs, true) := by
  have := h [] apart_nil
  rwa [List.append_nil, lexemes_nil, List.append_nil] at this

end Eligibility.Json
