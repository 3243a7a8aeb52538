/-
Quoted text in rules: a backslash stands before each quote or backslash that is written, and when
text is read it takes the next character as it is. Main statement: what `quote` writes is read back,
and what follows it is left alone.
-/
namespace Eligibility.Text

/-- The content of a text up to the closing quote, the part of the text that was read, closing quote
included, and what follows; `none` where the text ends before. -/
def unquote (quoteSign : Char) : List Char → Option (List Char × List Char × List Char)
  | [] => none
  | ['\\'] => none
  | '\\' :: c :: rest =>
    (unquote quoteSign rest).map fun (content, taken, rest) => (c :: content, '\\' :: c :: taken, rest)
  | c :: rest =>
    if c = quoteSign then some ([], [c], rest)
    else (unquote quoteSign rest).map fun (content, taken, rest) => (c :: content, c :: taken, rest)

/-- A character inside single quotes. -/
def escape (c : Char) : List Char := if c = '\'' ∨ c = '\\' then ['\\', c] else [c]

/-- A text in single quotes. -/
def quote (content : List Char) : List Char := '\'' :: content.flatMap escape ++ ['\'']

theorem unquote_taken {q : Char} {cs content taken rest : List Char}
    (h : unquote q cs = some (content, taken, rest)) : taken ++ rest = cs ∧ taken ≠ [] := by
  fun_induction unquote q cs generalizing content taken rest with
  | case1 => cases h
  | case2 => cases h
  | case3 c rest' ih =>
    simp only [Option.map_eq_some_iff, Prod.mk.injEq, Prod.exists] at h
    obtain ⟨_, _, _, h, -, rfl, rfl⟩ := h
    simp [(ih h).1]
  | case4 _ rest' => simp at h; obtain ⟨-, rfl, rfl⟩ := h; simp
  | case5 c rest' _ _ _ ih =>
    simp only [Option.map_eq_some_iff, Prod.mk.injEq, Prod.exists] at h
    obtain ⟨_, _, _, h, -, rfl, rfl⟩ := h
    simp [(ih h).1]

theorem unquote_escape (content rest : List Char) :
    unquote '\'' (content.flatMap escape ++ '\'' :: rest) =
      some (content, content.flatMap escape ++ ['\''], rest) := by
  induction content with
  | nil => simp [unquote]
  | cons c cs ih =>
    by_cases h : c = '\'' ∨ c = '\\'
    · simp [escape, h, unquote, ih]
    · simp only [not_or] at h
      simp [escape, h, unquote, ih]

end Eligibility.Text
