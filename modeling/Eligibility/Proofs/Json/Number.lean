/-
Numbers in JSON text. A number is written as whole digits without a zero in front, fraction digits and a
power of ten, and the scanner takes just these apart again before anything that does not go on with a
number. Whichever notation is chosen, what is written stands for the shortest decimal, and that is read as
the number it was found for.
-/
import Eligibility.Json.Lexeme
import Eligibility.Json.Writing
import Eligibility.Proofs.Token.Number

namespace Eligibility

/-! ## Digits in front -/

namespace Decimal

theorem head?_digits {n : ℕ} (h : n ≠ 0) : (digits n).head? ≠ some '0' := by
  induction n using Nat.strongRecOn with
  | ind n ih =>
    rcases Nat.lt_or_ge n 10 with small | large
    · rw [digits, Nat.toDigits_of_lt_base small]
      revert h
      clear ih
      revert n
      decide
    · have front := ih (n / 10) (by omega) (by omega)
      have hne : Nat.toDigits 10 (n / 10) ≠ [] := Nat.toDigits_ne_nil
      rw [digits, Nat.toDigits_of_base_le (by decide) large, List.head?_append_of_ne_nil _ hne]
      exact front

/-- No zero stands in front of the whole part, unless it is the whole part. -/
theorem positionalParts_fst_of_head? {d : Decimal} (hd : d.coefficient = 0 → d.exponent = 0)
    (h : d.positionalParts.1.head? = some '0') : d.positionalParts.1 = ['0'] := by
  rcases Int.lt_or_le d.exponent 0 with hneg | hpos
  · have hc : d.coefficient ≠ 0 := fun hc => absurd (hd hc) (by omega)
    unfold positionalParts at h ⊢
    dsimp only at h ⊢
    rw [if_neg (by omega)] at h ⊢
    dsimp only at h ⊢
    by_cases short : (digits d.coefficient).length ≤ (-d.exponent).toNat
    · -- there is one digit before the point
      rw [List.length_append, List.length_replicate,
        show (-d.exponent).toNat + 1 - (digits d.coefficient).length + (digits d.coefficient).length -
          (-d.exponent).toNat = 1 by omega] at h ⊢
      cases hl : List.replicate ((-d.exponent).toNat + 1 - (digits d.coefficient).length) '0' ++
          digits d.coefficient with
      | nil => rw [hl] at h; cases h
      | cons c cs =>
        rw [hl] at h
        obtain rfl : c = '0' := Option.some.inj h
        rfl
    · -- the digits reach across the point
      rw [show (-d.exponent).toNat + 1 - (digits d.coefficient).length = 0 by omega, List.replicate_zero,
        List.nil_append, List.head?_take, if_neg (by omega)] at h
      exact absurd h (head?_digits hc)
  · rw [positionalParts_of_nonneg hpos] at h ⊢
    dsimp only at h ⊢
    by_cases hc : d.coefficient = 0
    · rw [hc, hd hc]
      rfl
    · have hne : digits d.coefficient ≠ [] := Nat.toDigits_ne_nil
      rw [List.head?_append_of_ne_nil _ hne] at h
      exact absurd h (head?_digits hc)

theorem size_ofParts_append_zero (negative : Bool) (whole fraction : List Char) :
    (ofParts negative whole (fraction ++ ['0'])).size = (ofParts negative whole fraction).size := by
  have tens := ofDigits_append_zeros (whole ++ fraction) 1
  rw [pow_one, List.replicate_one] at tens
  unfold ofParts size
  dsimp only
  rw [← List.append_assoc, tens, List.length_append, List.length_singleton, Nat.cast_add, neg_add,
    zpow_add₀ (by norm_num)]
  push_cast
  ring

end Decimal

namespace Json

/-! ## Taking a number apart -/

/-- The text is over or goes on with a character that belongs to no number. -/
def Apart (t : List Char) : Prop := ∀ c ∈ t.head?, c.isDigit = false ∧ c ≠ '.' ∧ c ≠ 'e' ∧ c ≠ 'E'

theorem apart_nil : Apart [] := by rintro c ⟨⟩

theorem apart_cons {c : Char} (h : c.isDigit = false ∧ c ≠ '.' ∧ c ≠ 'e' ∧ c ≠ 'E') (t : List Char) :
    Apart (c :: t) := by
  rintro _ ⟨⟩
  exact h

theorem scanDigits_append {ds t : List Char} (hd : ∀ c ∈ ds, c.isDigit = true)
    (ht : ∀ c ∈ t.head?, c.isDigit = false) : scanDigits (ds ++ t) = (ds, t) := by
  obtain ⟨take, drop⟩ := Token.takeWhile_append_of_head hd ht
  rw [scanDigits, take, drop]

/-- A power of ten as it is written, if it is. -/
def powerText : Option ℤ → List Char
  | none => []
  | some p => 'e' :: (if p < 0 then '-' else '+') :: Decimal.digits p.natAbs

theorem signed_digits_natAbs (p : ℤ) : Decimal.signed (decide (p < 0)) (Decimal.digits p.natAbs) = p := by
  unfold Decimal.signed
  rw [Decimal.ofDigits_digits]
  by_cases h : p < 0
  · rw [decide_eq_true h, if_pos rfl]
    omega
  · rw [decide_eq_false h, if_neg Bool.false_ne_true]
    omega

theorem scanPower_powerText (power? : Option ℤ) {t : List Char} (ht : Apart t) :
    scanPower (powerText power? ++ t) = some (power?, t) := by
  cases power? with
  | none =>
    cases t with
    | nil => rfl
    | cons c t =>
      obtain ⟨-, -, he, hE⟩ := ht c rfl
      rw [powerText, List.nil_append, scanPower, if_neg (by simp [he, hE])]
  | some p =>
    have digits := scanDigits_append (t := t) (fun c hc => Decimal.isDigit_of_mem_digits (n := p.natAbs) hc)
      (fun c hc => (ht c hc).1)
    have sign : Decimal.splitSign ((if p < 0 then '-' else '+') :: (Decimal.digits p.natAbs ++ t)) =
        (decide (p < 0), Decimal.digits p.natAbs ++ t) := by
      by_cases h : p < 0
      · rw [if_pos h, decide_eq_true h]
        rfl
      · rw [if_neg h, decide_eq_false h]
        rfl
    obtain ⟨c, cs, hcs⟩ := List.exists_cons_of_ne_nil (Nat.toDigits_ne_nil (n := p.natAbs) (b := 10))
    rw [powerText, List.cons_append, List.cons_append, scanPower, if_pos (.inl rfl), sign]
    dsimp only
    rw [digits]
    have value := signed_digits_natAbs p
    unfold Decimal.digits at value ⊢
    rw [hcs] at value ⊢
    dsimp only
    rw [value]

theorem not_isDigit_head_powerText (power? : Option ℤ) {t : List Char} (ht : Apart t) :
    ∀ c ∈ (powerText power? ++ t).head?, c.isDigit = false ∧ c ≠ '.' := by
  cases power? with
  | none => exact fun c hc => ⟨(ht c hc).1, (ht c hc).2.1⟩
  | some p =>
    rintro _ ⟨⟩
    decide

theorem scanFraction_pointed {fraction : List Char} (hf : ∀ c ∈ fraction, c.isDigit = true) {t : List Char}
    (ht : ∀ c ∈ t.head?, c.isDigit = false ∧ c ≠ '.') :
    scanFraction (Decimal.pointed fraction ++ t) = some (fraction, t) := by
  cases fraction with
  | nil =>
    cases t with
    | nil => rfl
    | cons c t =>
      rw [Decimal.pointed, List.nil_append]
      unfold scanFraction
      split
      · rename_i heq
        obtain ⟨rfl, -⟩ := List.cons.inj heq
        exact absurd rfl (ht _ rfl).2
      · rfl
  | cons c cs =>
    show scanFraction ('.' :: (c :: cs ++ t)) = _
    rw [scanFraction, scanDigits_append hf fun c hc => (ht c hc).1]

/-- A number in the parts that it is written in. No zero stands in front of the whole digits, unless it is
the only one. -/
structure Parts where
  whole : List Char
  fraction : List Char
  power? : Option ℤ
  whole_ne_nil : whole ≠ []
  isDigit : ∀ c ∈ whole ++ fraction, c.isDigit = true
  front : whole.head? = some '0' → whole = ['0']

namespace Parts

/-- The text of the number, without its sign. -/
def text (p : Parts) : List Char := p.whole ++ (Decimal.pointed p.fraction ++ powerText p.power?)

/-- The decimal that the parts stand for. -/
def decimal (p : Parts) (negative : Bool) : Decimal :=
  let d := Decimal.ofParts negative p.whole p.fraction
  { d with exponent := d.exponent + p.power?.getD 0 }

/-- Whether there is neither a fraction nor a power of ten. -/
def isWhole (p : Parts) : Bool := p.fraction.isEmpty && p.power?.isNone

/-- A number is taken apart as it was put together. -/
theorem scanNumber_text (p : Parts) (negative : Bool) {t : List Char} (ht : Apart t) :
    scanNumber negative (p.text ++ t) = some (.ofDecimal (p.decimal negative) p.isWhole, t) := by
  obtain ⟨whole, fraction, power?, hne, hd, front⟩ := p
  have power := not_isDigit_head_powerText power? ht
  have first : ∀ c ∈ (Decimal.pointed fraction ++ (powerText power? ++ t)).head?, c.isDigit = false := by
    cases fraction with
    | nil => exact fun c hc => (power c hc).1
    | cons c cs =>
      rintro _ ⟨⟩
      decide
  have hwhole := scanDigits_append (fun c hc => hd c (List.mem_append_left _ hc)) first
  have hfraction := scanFraction_pointed (fun c hc => hd c (List.mem_append_right _ hc)) power
  have hpower := scanPower_powerText power? ht
  have kept : ¬ (whole = [] ∨ (whole.head? = some '0' ∧ whole ≠ ['0'])) := by
    rintro (rfl | ⟨zero, more⟩)
    · exact hne rfl
    · exact more (front zero)
  rw [text, List.append_assoc, List.append_assoc, scanNumber, hwhole]
  dsimp only
  rw [if_neg kept, hfraction]
  dsimp only [Option.bind_eq_bind, Option.bind_some, bind]
  rw [hpower]
  rfl

theorem exists_text_eq_cons (p : Parts) : ∃ c cs, p.text = c :: cs ∧ c.isDigit = true := by
  obtain ⟨c, cs, hwhole⟩ := List.exists_cons_of_ne_nil p.whole_ne_nil
  refine ⟨c, cs ++ (Decimal.pointed p.fraction ++ powerText p.power?), ?_, p.isDigit c ?_⟩
  · rw [text, hwhole, List.cons_append]
  · rw [hwhole]
    simp

/-- A number is a lexeme, with a minus before it or without. -/
theorem scanLexeme_text (p : Parts) (negative : Bool) {t : List Char} (ht : Apart t) :
    scanLexeme ((if negative then ['-'] else []) ++ p.text ++ t) =
      some (.number (.ofDecimal (p.decimal negative) p.isWhole), t) := by
  have scan := p.scanNumber_text negative ht
  obtain ⟨c, cs, htext, hc⟩ := p.exists_text_eq_cons
  rw [htext] at scan ⊢
  cases negative with
  | true =>
    show scanLexeme ('-' :: (c :: cs ++ t)) = _
    rw [scanLexeme, scan]
    rfl
  | false =>
    show scanLexeme (c :: (cs ++ t)) = _
    rw [List.cons_append] at scan
    unfold scanLexeme
    split
    case h_12 =>
      rw [scan]
      rfl
    -- every other lexeme starts with a character that is no digit
    all_goals
      rename_i heq
      obtain ⟨rfl, -⟩ := List.cons.inj heq
      cases hc

end Parts

/-! ## Numbers that are no integers -/

/-- The text reads as a number that is no integer, with the value of a decimal. -/
def WritesReal (cs : List Char) (d : Decimal) : Prop :=
  ∃ p : Parts, cs = d.sign ++ p.text ∧ p.isWhole = false ∧ (p.decimal d.negative).size = d.size

variable {d : Decimal}

theorem writesReal_pointed {whole fraction : List Char} (hne : whole ≠ []) (hf : fraction ≠ [])
    (hd : ∀ c ∈ whole ++ fraction, c.isDigit = true) (front : whole.head? = some '0' → whole = ['0'])
    (value : (Decimal.ofParts d.negative whole fraction).size = d.size) :
    WritesReal (d.sign ++ (whole ++ Decimal.pointed fraction)) d := by
  refine ⟨⟨whole, fraction, none, hne, hd, front⟩, ?_, ?_, ?_⟩
  · rw [Parts.text, powerText, List.append_nil]
  · simpa [Parts.isWhole] using hf
  · unfold Parts.decimal
    dsimp only
    rw [Option.getD_none, add_zero]
    exact value

/-- Positional notation of a whole number, with a zero after the point. -/
theorem writesReal_whole (hd : d.coefficient = 0 → d.exponent = 0) (whole : 0 ≤ d.exponent) :
    WritesReal (d.positional ++ ['.', '0']) d := by
  have front := Decimal.positionalParts_fst_of_head? hd
  have digit := d.isDigit_of_mem_positionalParts
  have value := Decimal.size_ofParts_positionalParts d d.negative
  rw [d.positional_eq]
  rw [Decimal.positionalParts_of_nonneg whole] at front digit value ⊢
  have zero : ∀ c ∈ Decimal.digits d.coefficient ++ List.replicate d.exponent.toNat '0' ++ ['0'],
      c.isDigit = true := by
    intro c hc
    rw [List.mem_append, List.mem_singleton] at hc
    rcases hc with hc | rfl
    · exact digit c (List.mem_append_left _ hc)
    · rfl
  have text := writesReal_pointed (by simp [Decimal.digits, Nat.toDigits_ne_nil]) (List.cons_ne_nil _ _) zero front
    ((Decimal.size_ofParts_append_zero _ _ []).trans value)
  simpa [Decimal.pointed] using text

/-- Positional notation of a number with a fraction. -/
theorem writesReal_fraction (hd : d.coefficient = 0 → d.exponent = 0) (places : d.exponent < 0) :
    WritesReal d.positional d := by
  obtain ⟨-, -, hlen, hne⟩ := Decimal.positionalParts_of_neg places
  rw [d.positional_eq]
  refine writesReal_pointed hne (fun hnil => ?_) d.isDigit_of_mem_positionalParts
    (Decimal.positionalParts_fst_of_head? hd) (Decimal.size_ofParts_positionalParts d d.negative)
  rw [hnil, List.length_nil] at hlen
  omega

/-- One digit before the point, and a power of ten. -/
theorem writesReal_power {c : Char} {cs : List Char} (hds : Decimal.digits d.coefficient = c :: cs) :
    WritesReal (d.sign ++ (c :: (Decimal.pointed cs ++ powerText (some (cs.length + d.exponent))))) d := by
  have coefficient := Decimal.ofDigits_digits d.coefficient
  have digits := fun a ha => Decimal.isDigit_of_mem_digits (n := d.coefficient) (c := a) ha
  rw [hds] at coefficient digits
  have front : [c].head? = some '0' → [c] = ['0'] := by
    rintro ⟨⟩
    rfl
  refine ⟨⟨[c], cs, some (cs.length + d.exponent), List.cons_ne_nil _ _, digits, front⟩, rfl, Bool.and_false _, ?_⟩
  unfold Parts.decimal Decimal.ofParts
  dsimp only
  rw [List.singleton_append, coefficient, Option.getD_some]
  congr 2
  omega

theorem pointed_eq (fraction : List Char) :
    (if fraction.isEmpty then [] else '.' :: fraction) = Decimal.pointed fraction := by
  cases fraction <;> rfl

/-- Whichever notation is chosen, it writes the decimal. -/
theorem writesReal_decimalText (hd : d.coefficient = 0 → d.exponent = 0) : WritesReal (decimalText d) d := by
  unfold decimalText
  dsimp only
  split
  · split
    · rename_i whole
      exact writesReal_whole hd whole
    · rename_i places
      exact writesReal_fraction hd (Int.not_le.1 places)
  · obtain ⟨c, cs, hds⟩ := List.exists_cons_of_ne_nil (Nat.toDigits_ne_nil (n := d.coefficient) (b := 10))
    have text := writesReal_power hds
    rw [Decimal.digits, hds, pointed_eq]
    simpa [powerText] using text

/-! ## Numbers read back -/

theorem WritesReal.scanLexeme {cs : List Char} (h : WritesReal cs d) {negative : Bool} {m : Magnitude}
    (hm : Binary64.ofDecimal d = .finite negative m) {t : List Char} (ht : Apart t) :
    scanLexeme (cs ++ t) = some (.number (.real (.finite negative m)), t) := by
  obtain ⟨p, rfl, point, value⟩ := h
  have nearest : Binary64.ofDecimal (p.decimal d.negative) = .finite negative m := by
    rw [← hm, Binary64.ofDecimal_eq_nearest, Binary64.ofDecimal_eq_nearest, value]
    rfl
  have number : Number.ofDecimal (p.decimal d.negative) false = .real (.finite negative m) := by
    unfold Number.ofDecimal
    rw [nearest]
    rfl
  rw [Decimal.sign, p.scanLexeme_text d.negative ht, point, number]

/-- The shortest decimal of zero has no power of ten. -/
theorem shortest_exponent_of_coefficient (tie : Tie) (m : Magnitude) (h : (m.shortest tie).coefficient = 0) :
    (m.shortest tie).exponent = 0 := by
  have zero : m = .zero := by
    have nearest := m.nearest_shortest tie
    rw [Binary64.size_of_coefficient h, Binary64.nearest_zero] at nearest
    injection nearest with _ hm
    exact hm.symm
  subst zero
  rfl

/-- What is written for a finite double reads as that double. -/
theorem scanLexeme_real {x : Binary64} (hx : x.isFinite = true) {t : List Char} (ht : Apart t) :
    scanLexeme (numberText (.real x) ++ t) = some (.number (.real x), t) := by
  obtain _ | _ | ⟨negative, m⟩ := x
  · cases hx
  · cases hx
  · have text := writesReal_decimalText (d := { m.shortest .toEven with negative })
      (shortest_exponent_of_coefficient .toEven m)
    exact text.scanLexeme (m.ofDecimal_shortest .toEven negative) ht

/-- The digits of a natural number, with neither a fraction nor a power of ten. -/
def Parts.ofNat (n : ℕ) : Parts where
  whole := Decimal.digits n
  fraction := []
  power? := none
  whole_ne_nil := Nat.toDigits_ne_nil
  isDigit c hc := Decimal.isDigit_of_mem_digits (List.append_nil _ ▸ hc)
  front h := by
    by_cases zero : n = 0
    · rw [zero]
      rfl
    · exact absurd h (Decimal.head?_digits zero)

theorem Parts.decimal_ofNat (n : ℕ) (negative : Bool) : (Parts.ofNat n).decimal negative = ⟨negative, n, 0⟩ := by
  unfold decimal ofNat Decimal.ofParts
  dsimp only
  rw [List.append_nil, Decimal.ofDigits_digits]
  rfl

theorem Number.ofDecimal_integer {n : ℤ} (least : Int64.minValue.toInt ≤ n) (greatest : n < UInt64.size) :
    Number.ofDecimal ⟨decide (n < 0), n.natAbs, 0⟩ true = .integer n := by
  unfold Number.ofDecimal
  by_cases negative : n < 0
  · have abs : (n.natAbs : ℤ) = -n := by omega
    have fits : n.natAbs ≠ 0 ∧ Int64.minValue.toInt ≤ -(n.natAbs : ℤ) := ⟨by omega, by rwa [abs, neg_neg]⟩
    rw [decide_eq_true negative, if_neg (by simp),
      if_pos (by rw [decide_eq_true fits.1, decide_eq_true fits.2]; rfl), abs, neg_neg]
  · rw [decide_eq_false negative, if_pos (by simp; omega)]
    show Number.integer n.natAbs = _
    rw [Int.natAbs_of_nonneg (Int.not_lt.1 negative)]

/-- What is written for an integer reads as that integer, if it fits 64 bits, signed or unsigned. -/
theorem scanLexeme_integer {n : ℤ} (least : Int64.minValue.toInt ≤ n) (greatest : n < UInt64.size) {t : List Char}
    (ht : Apart t) : scanLexeme (numberText (.integer n) ++ t) = some (.number (.integer n), t) := by
  have lexeme := (Parts.ofNat n.natAbs).scanLexeme_text (decide (n < 0)) ht
  have text : (Parts.ofNat n.natAbs).text = Decimal.digits n.natAbs := List.append_nil _
  have whole : (Parts.ofNat n.natAbs).isWhole = true := rfl
  rw [Parts.decimal_ofNat, whole, Number.ofDecimal_integer least greatest, text] at lexeme
  simpa [numberText] using lexeme

end Json
end Eligibility
