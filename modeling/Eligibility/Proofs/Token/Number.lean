/-
Numbers in rule text: a sign, digits and digits behind a point make one word, read as the number nearest to the
decimal. Positional notation is such a word and stands for the decimal that it was written from, so the text
of a finite number reads as that number.
-/
import Eligibility.Proofs.Binary64.Shortest
import Eligibility.Proofs.Token.Lexeme

namespace Eligibility

/-! ## Positional notation -/

namespace Decimal

theorem isDigit_of_mem_digits {n : ℕ} {c : Char} (h : c ∈ digits n) : c.isDigit = true :=
  Nat.isDigit_of_mem_toDigits (by decide) (by decide) h

theorem ofDigits_zeros_append (n : ℕ) (cs : List Char) : ofDigits (List.replicate n '0' ++ cs) = ofDigits cs := by
  simp [ofDigits, Nat.ofDigitChars_append, Nat.ofDigitChars_replicate_zero]

theorem ofDigits_append_zeros (cs : List Char) (n : ℕ) :
    ofDigits (cs ++ List.replicate n '0') = 10 ^ n * ofDigits cs := by
  simp [ofDigits, Nat.ofDigitChars_append, Nat.ofDigitChars_replicate_zero]

/-- The parts of a whole number. -/
theorem positionalParts_of_nonneg {d : Decimal} (h : 0 ≤ d.exponent) :
    d.positionalParts = (digits d.coefficient ++ List.replicate d.exponent.toNat '0', []) := by
  unfold positionalParts
  dsimp only
  rw [if_pos h]

/-- The parts of a number with places after the point. -/
theorem positionalParts_of_neg {d : Decimal} (h : d.exponent < 0) :
    ∃ zeros, d.positionalParts.1 ++ d.positionalParts.2 = List.replicate zeros '0' ++ digits d.coefficient ∧
      d.positionalParts.2.length = (-d.exponent).toNat ∧ d.positionalParts.1 ≠ [] := by
  refine ⟨(-d.exponent).toNat + 1 - (digits d.coefficient).length, ?_⟩
  unfold positionalParts
  dsimp only
  rw [if_neg (by omega)]
  -- the zeros in front leave one digit at least before the point
  refine ⟨List.take_append_drop _ _, ?_, ?_⟩
  · simp only [List.length_drop, List.length_append, List.length_replicate]
    omega
  · rw [← List.length_pos_iff]
    simp only [List.length_take, List.length_append, List.length_replicate]
    omega

theorem positionalParts_fst_ne_nil (d : Decimal) : d.positionalParts.1 ≠ [] := by
  rcases Int.lt_or_le d.exponent 0 with h | h
  · obtain ⟨-, -, -, hne⟩ := positionalParts_of_neg h
    exact hne
  · rw [positionalParts_of_nonneg h]
    simp [digits, Nat.toDigits_ne_nil]

theorem isDigit_of_mem_positionalParts {d : Decimal} :
    ∀ c ∈ d.positionalParts.1 ++ d.positionalParts.2, c.isDigit = true := by
  intro c hc
  have zeroOrDigit : c = '0' ∨ c ∈ digits d.coefficient := by
    rcases Int.lt_or_le d.exponent 0 with h | h
    · obtain ⟨zeros, hparts, -, -⟩ := positionalParts_of_neg h
      rw [hparts, List.mem_append] at hc
      exact hc.imp List.eq_of_mem_replicate id
    · rw [positionalParts_of_nonneg h, List.append_nil, List.mem_append] at hc
      exact hc.symm.imp List.eq_of_mem_replicate id
  rcases zeroOrDigit with rfl | hc
  · rfl
  · exact isDigit_of_mem_digits hc

/-- Positional notation keeps the value. -/
theorem size_ofParts_positionalParts (d : Decimal) (negative : Bool) :
    (ofParts negative d.positionalParts.1 d.positionalParts.2).size = d.size := by
  unfold ofParts size
  dsimp only
  rcases Int.lt_or_le d.exponent 0 with h | h
  · obtain ⟨zeros, hparts, hlen, -⟩ := positionalParts_of_neg h
    rw [hparts, hlen, ofDigits_zeros_append, ofDigits_digits, Int.toNat_of_nonneg (by omega), neg_neg]
  · obtain ⟨n, hn⟩ := Int.eq_ofNat_of_zero_le h
    rw [positionalParts_of_nonneg h, List.append_nil, ofDigits_append_zeros, ofDigits_digits, hn]
    push_cast
    simp [mul_comm]

/-- The fraction digits with the point before them, if there are any. -/
def pointed : List Char → List Char
  | [] => []
  | cs => '.' :: cs

theorem sign_cases (d : Decimal) :
    d.negative = true ∧ d.sign = ['-'] ∨ d.negative = false ∧ d.sign = [] := by
  unfold sign
  cases d.negative
  · exact .inr ⟨rfl, rfl⟩
  · exact .inl ⟨rfl, rfl⟩

theorem splitSign_cons_of_isDigit {c : Char} (h : c.isDigit = true) (cs : List Char) :
    splitSign (c :: cs) = (false, c :: cs) := by
  unfold splitSign
  split
  · rename_i heq
    obtain ⟨rfl, -⟩ := List.cons.inj heq
    exact absurd h (by decide)
  · rename_i heq
    obtain ⟨rfl, -⟩ := List.cons.inj heq
    exact absurd h (by decide)
  · rfl

theorem positional_eq (d : Decimal) :
    d.positional = d.sign ++ (d.positionalParts.1 ++ pointed d.positionalParts.2) := by
  unfold positional
  split <;> rename_i h
  · rw [h, pointed, List.append_nil]
  · rename_i whole fraction hne
    rw [h]
    cases fraction with
    | nil => exact absurd rfl hne
    | cons c cs => rw [pointed, List.append_assoc]; simp

end Decimal

/-! ## Numbers as words -/

namespace Token

theorem keyword?_cons_of_ne {c : Char} (hA : c ≠ 'A') (hO : c ≠ 'O') (cs : List Char) : keyword? (c :: cs) = none := by
  simp [keyword?, hA, hO]

/-- The parts of a number are digits of any script, with a point between them if there is anything behind it. -/
theorem numberParts?_eq_some {cs whole fraction : List Char} :
    numberParts? cs = some (whole, fraction) ↔ ∃ point, cs = whole ++ (point ++ fraction) ∧ whole ≠ [] ∧
      (∀ c ∈ whole ++ fraction, Text.isDecimalDigit c = true) ∧ (point = ['.'] ∨ point = [] ∧ fraction = []) := by
  constructor
  · intro h
    have parts : cs.takeWhile Text.isDecimalDigit ++ cs.dropWhile Text.isDecimalDigit = cs :=
      List.takeWhile_append_dropWhile
    have digits : ∀ c ∈ cs.takeWhile Text.isDecimalDigit, Text.isDecimalDigit c = true :=
      List.all_eq_true.1 List.all_takeWhile
    unfold numberParts? at h
    dsimp only at h
    split at h
    · cases h
    · rename_i hne
      rw [List.isEmpty_iff] at hne
      split at h
      · rename_i hrest
        cases h
        exact ⟨[], by rw [hrest] at parts; exact parts.symm, hne, by simpa using digits, .inr ⟨rfl, rfl⟩⟩
      · rename_i c rest hrest
        split at h
        · rename_i pointed
          cases h
          simp only [Bool.and_eq_true, decide_eq_true_eq, List.all_eq_true] at pointed
          obtain ⟨rfl, hfraction⟩ := pointed
          refine ⟨['.'], by rw [hrest] at parts; exact parts.symm, hne, fun c hc => ?_, .inl rfl⟩
          rcases List.mem_append.1 hc with hc | hc
          · exact digits c hc
          · exact hfraction c hc
        · cases h
  · rintro ⟨point, rfl, hne, digits, hpoint⟩
    have stop : ∀ c ∈ (point ++ fraction).head?, Text.isDecimalDigit c = false := by
      rcases hpoint with rfl | ⟨rfl, rfl⟩
      · rintro _ ⟨⟩
        decide
      · rintro _ ⟨⟩
    obtain ⟨take, drop⟩ := takeWhile_append_of_head (fun c hc => digits c (List.mem_append_left _ hc)) stop
    unfold numberParts?
    dsimp only
    rw [take, drop, if_neg (by simpa using hne)]
    rcases hpoint with rfl | ⟨rfl, rfl⟩
    · have all : fraction.all Text.isDecimalDigit = true :=
        List.all_eq_true.2 fun c hc => digits c (List.mem_append_right _ hc)
      simp [all]
    · rfl

/-- The parts of the text of a number: a sign, digits, and digits behind a point, of which all but the digits in
front may be missing. -/
structure Numeral (sign whole point fraction : List Char) : Prop where
  signed : sign = [] ∨ sign = ['+'] ∨ sign = ['-']
  nonempty : whole ≠ []
  pointed : point = ['.'] ∨ point = [] ∧ fraction = []
  digits : ∀ c ∈ whole ++ fraction, c.isDigit = true

theorem splitSign_sign {sign : List Char} (h : sign = [] ∨ sign = ['+'] ∨ sign = ['-']) {c : Char}
    (hc : c.isDigit = true) (cs : List Char) :
    Decimal.splitSign (sign ++ c :: cs) = (decide (sign = ['-']), c :: cs) := by
  rcases h with rfl | rfl | rfl
  · exact Decimal.splitSign_cons_of_isDigit hc cs
  · rfl
  · rfl

theorem value_ofParts (negative : Bool) (whole fraction : List Char) :
    Binary64.ofDecimal (.ofParts negative whole fraction) =
      .nearest negative (Decimal.ofDigits (whole ++ fraction) / 10 ^ fraction.length) := by
  rw [Binary64.ofDecimal_eq_nearest]
  simp [Decimal.ofParts, Decimal.size, div_eq_mul_inv]

section Numeral

variable {sign whole point fraction : List Char}

theorem Numeral.ne_nil (form : Numeral sign whole point fraction) : sign ++ (whole ++ (point ++ fraction)) ≠ [] := by
  simp [form.nonempty]

/-- A number is neither a keyword nor a name, and its value is the double nearest to what its digits say. -/
theorem Numeral.classify {x : Binary64} (form : Numeral sign whole point fraction)
    (value : x = .nearest (sign = ['-']) (Decimal.ofDigits (whole ++ fraction) / 10 ^ fraction.length))
    (finite : x.isFinite = true) : Token.classify (sign ++ (whole ++ (point ++ fraction))) = .ok (.number x) := by
  have digits : ∀ c ∈ whole ++ fraction, Text.isDecimalDigit c = true := fun c hc =>
    Text.isDecimalDigit_of_isDigit (form.digits c hc)
  have parts : numberParts? (whole ++ (point ++ fraction)) = some (whole, fraction) :=
    numberParts?_eq_some.2 ⟨point, rfl, form.nonempty, digits, form.pointed⟩
  obtain ⟨c, cs, hwhole⟩ := List.exists_cons_of_ne_nil form.nonempty
  have digit : c.isDigit = true := form.digits c (by simp [hwhole])
  have split : Decimal.splitSign (sign ++ (whole ++ (point ++ fraction))) =
      (decide (sign = ['-']), whole ++ (point ++ fraction)) := by
    rw [hwhole]
    exact splitSign_sign form.signed digit _
  -- the word starts with a sign or with a digit, as no keyword does
  have noKeyword : keyword? (sign ++ (whole ++ (point ++ fraction))) = none := by
    have ne : c ≠ 'A' ∧ c ≠ 'O' := by constructor <;> rintro rfl <;> cases digit
    rw [hwhole]
    rcases form.signed with rfl | rfl | rfl
    · exact keyword?_cons_of_ne ne.1 ne.2 _
    · rfl
    · rfl
  unfold Token.classify
  rw [noKeyword]
  dsimp only
  rw [split]
  dsimp only
  rw [parts]
  dsimp only
  rw [if_pos (List.all_eq_true.2 form.digits), value_ofParts, ← value, if_pos finite]

theorem Numeral.isBoundary_eq_false (form : Numeral sign whole point fraction) :
    ∀ c ∈ sign ++ (whole ++ (point ++ fraction)), isBoundary c = false := by
  have digit : ∀ c ∈ whole ++ fraction, isBoundary c = false := fun c hc =>
    isBoundary_eq_false_of_isNameChar (isNameChar_of_isDigit (form.digits c hc))
  intro c hc
  simp only [List.mem_append] at hc digit
  rcases hc with hc | hc | hc | hc
  · rcases form.signed with rfl | rfl | rfl
    · cases hc
    · obtain rfl := List.mem_singleton.1 hc
      decide
    · obtain rfl := List.mem_singleton.1 hc
      decide
  · exact digit c (.inl hc)
  · rcases form.pointed with rfl | ⟨rfl, -⟩
    · obtain rfl := List.mem_singleton.1 hc
      decide
    · cases hc
  · exact digit c (.inr hc)

end Numeral

/-! ## Positional notation as a word -/

/-- Positional notation has the form of a number. -/
theorem numeral_positional (d : Decimal) : ∃ point,
    d.positional = d.sign ++ (d.positionalParts.1 ++ (point ++ d.positionalParts.2)) ∧
      Numeral d.sign d.positionalParts.1 point d.positionalParts.2 := by
  have signed : d.sign = [] ∨ d.sign = ['+'] ∨ d.sign = ['-'] := by
    rcases d.sign_cases with ⟨-, sign⟩ | ⟨-, sign⟩
    · exact .inr (.inr sign)
    · exact .inl sign
  rw [d.positional_eq]
  cases hfraction : d.positionalParts.2 with
  | nil =>
    refine ⟨[], rfl, signed, d.positionalParts_fst_ne_nil, .inr ⟨rfl, rfl⟩, ?_⟩
    rw [← hfraction]
    exact d.isDigit_of_mem_positionalParts
  | cons c cs =>
    refine ⟨['.'], rfl, signed, d.positionalParts_fst_ne_nil, .inl rfl, ?_⟩
    rw [← hfraction]
    exact d.isDigit_of_mem_positionalParts

theorem classify_positional {d : Decimal} (h : (Binary64.ofDecimal d).isFinite = true) :
    classify d.positional = .ok (.number (Binary64.ofDecimal d)) := by
  obtain ⟨point, hpositional, form⟩ := numeral_positional d
  have negative : decide (d.sign = ['-']) = d.negative := by
    rcases d.sign_cases with ⟨negative, sign⟩ | ⟨negative, sign⟩ <;> simp [negative, sign]
  rw [hpositional]
  refine form.classify ?_ h
  rw [negative, ← value_ofParts, Binary64.ofDecimal_eq_nearest, Binary64.ofDecimal_eq_nearest,
    Decimal.size_ofParts_positionalParts]
  rfl

theorem spells_positional {d : Decimal} (h : (Binary64.ofDecimal d).isFinite = true) :
    Spells d.positional [.number (Binary64.ofDecimal d)] := by
  have reads := classify_positional h
  obtain ⟨point, hpositional, form⟩ := numeral_positional d
  rw [hpositional] at reads ⊢
  exact spells_word form.ne_nil form.isBoundary_eq_false reads

theorem spells_number {x : Binary64} (h : x.isFinite = true) : Spells x.render [.number x] := by
  obtain _ | _ | ⟨negative, m⟩ := x
  · cases h
  · cases h
  · have value := m.ofDecimal_shortest .up negative
    have spelled := spells_positional (d := { m.shortest .up with negative }) (by rw [value]; rfl)
    rwa [value] at spelled

end Token
end Eligibility
