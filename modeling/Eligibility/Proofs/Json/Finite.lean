/-
The numbers of a document that was read from text: an integer was written in 64 bits, and a decimal that
rounds to an infinity has no value, so every number that has one is finite. A reader puts the lexemes of
the text together as they come, so what is true of the numbers among them is true of the document.
-/
import Eligibility.Proofs.Json.Document

namespace Eligibility.Json

/-! ## Numbers -/

/-- The number is finite, if it has a value. -/
def Number.Finite (n : Number) : Prop := ∀ x, n.value? = some x → x.isFinite = true

theorem Number.finite_integer {n : ℤ} (h : n.natAbs < UInt64.size) : (Number.integer n).Finite := by
  rintro _ ⟨⟩
  unfold Binary64.ofInt
  rw [Binary64.ofRatio_eq_nearest _ _ Nat.one_pos, Nat.cast_one, div_one]
  refine Binary64.isFinite_nearest _ (by positivity) ?_
  calc (n.natAbs : ℚ) < (2 ^ 64 : ℕ) := by exact_mod_cast h
    _ ≤ 2 ^ (1023 : ℤ) := by rw [Nat.cast_pow, ← zpow_natCast]; exact zpow_le_zpow_right₀ (by norm_num) (by norm_num)

/-- A number is an integer of 64 bits, or a double that does not round to an infinity, or has no value. -/
theorem Number.finite_ofDecimal (d : Decimal) (whole : Bool) : (Number.ofDecimal d whole).Finite := by
  unfold Number.ofDecimal
  split
  · rename_i h
    simp only [Bool.and_eq_true, decide_eq_true_eq] at h
    exact Number.finite_integer (by simpa using h.2)
  · split
    · rename_i h
      simp only [Bool.and_eq_true, decide_eq_true_eq] at h
      have least := h.2
      have : Int64.minValue.toInt = -9223372036854775808 := rfl
      exact Number.finite_integer (by simp [UInt64.size]; omega)
    · split
      · rintro _ ⟨⟩
      · -- only a double that is no infinity is kept
        rename_i x notInfinite
        rintro _ ⟨⟩
        rcases hx : Binary64.ofDecimal d with _ | negative | ⟨negative, m⟩
        · rw [Binary64.ofDecimal_eq_nearest] at hx
          exact absurd hx (Binary64.nearest_ne_nan _ _)
        · exact absurd hx (notInfinite negative)
        · rfl

/-! ## Lexemes -/

theorem finite_of_scanNumber {negative : Bool} {cs rest : List Char} {n : Number}
    (h : scanNumber negative cs = some (n, rest)) : n.Finite := by
  simp only [scanNumber] at h
  split at h
  · cases h
  · simp only [Option.bind_eq_bind, Option.bind_eq_some_iff, Option.pure_def, Option.some.injEq, Prod.mk.injEq,
      Prod.exists] at h
    obtain ⟨_, _, -, _, _, -, rfl, -⟩ := h
    exact Number.finite_ofDecimal _ _

theorem finite_of_scanLexeme {cs rest : List Char} {n : Number} (h : scanLexeme cs = some (.number n, rest)) :
    n.Finite := by
  unfold scanLexeme at h
  split at h
  case h_11 | h_12 =>
    simp only [Option.bind_eq_bind, Option.bind_eq_some_iff, Option.pure_def, Option.some.injEq, Prod.mk.injEq,
      Prod.exists] at h
    obtain ⟨_, _, scan, hn, -⟩ := h
    cases hn
    exact finite_of_scanNumber scan
  case h_10 =>
    simp only [Option.bind_eq_bind, Option.bind_eq_some_iff, Option.pure_def, Option.some.injEq, Prod.mk.injEq,
      Prod.exists] at h
    obtain ⟨_, _, -, hn, -⟩ := h
    cases hn
  all_goals cases h

/-- Every number among the lexemes of a text is finite, since there is one scanner that reads numbers. -/
theorem finite_of_mem_lexemes {cs : List Char} {n : Number} (h : .number n ∈ (lexemes cs).1) : n.Finite := by
  induction hlen : cs.length using Nat.strongRecOn generalizing cs with
  | ind len ih =>
    rw [lexemes_eq] at h
    split at h
    · cases h
    · rename_i c tail heq
      split at h
      · cases h
      · rename_i x rest scan
        rcases List.mem_cons.1 h with rfl | h
        · exact finite_of_scanLexeme scan
        · -- the rest is shorter than the text was with the space before it
          have shorter := scanLexeme_length scan
          have space := length_dropWhile_le isSpace cs
          rw [heq] at space
          exact ih _ (by omega) h rfl

/-! ## Documents -/

/-- Every number of the document is finite, if it has a value. -/
def FiniteNumbers (j : Json) : Prop := ∀ n, .number n ∈ j.toLexemes → n.Finite

theorem number_mem_elementLexemes {n : Number} {es : List Json} :
    .number n ∈ elementLexemes es ↔ ∃ e ∈ es, .number n ∈ e.toLexemes := by
  induction es with
  | nil => simp [elementLexemes]
  | cons e es ih => simp [elementLexemes, ih]

theorem number_mem_memberLexemes {n : Number} {ms : List (Text × Json)} :
    .number n ∈ memberLexemes ms ↔ ∃ m ∈ ms, .number n ∈ m.2.toLexemes := by
  induction ms with
  | nil => simp [memberLexemes]
  | cons m ms ih =>
    obtain ⟨k, v⟩ := m
    simp [memberLexemes, ih]

theorem finiteNumbers_list {es : List Json} : (list es).FiniteNumbers ↔ ∀ e ∈ es, e.FiniteNumbers := by
  have number : ∀ n, .number n ∈ (list es).toLexemes ↔ ∃ e ∈ es, .number n ∈ e.toLexemes := by
    intro n
    cases es <;> simp [toLexemes, number_mem_elementLexemes]
  simp only [FiniteNumbers, number]
  exact ⟨fun h e he n hn => h n ⟨e, he, hn⟩, fun h n ⟨e, he, hn⟩ => h e he n hn⟩

/-- The numbers of an object are those of its values. -/
theorem finiteNumbers_object {ms : List (Text × Json)} :
    (object ms).FiniteNumbers ↔ ∀ m ∈ ms, m.2.FiniteNumbers := by
  have number : ∀ n, .number n ∈ (object ms).toLexemes ↔ ∃ m ∈ ms, .number n ∈ m.2.toLexemes := by
    intro n
    rcases ms with _ | ⟨⟨k, v⟩, ms⟩ <;> simp [toLexemes, number_mem_memberLexemes]
  simp only [FiniteNumbers, number]
  exact ⟨fun h m hm n hn => h n ⟨m, hm, hn⟩, fun h n ⟨m, hm, hn⟩ => h m hm n hn⟩

theorem finiteNumbers_number {n : Number} : (number n).FiniteNumbers ↔ n.Finite := by
  simp [FiniteNumbers, toLexemes]

/-! ## Reading -/

/-- Every number that is complete in a container whose end has not been reached is finite. -/
def Partial.FiniteNumbers : Partial → Prop
  | .list es => ∀ e ∈ es, e.FiniteNumbers
  | .object ms _ => ∀ m ∈ ms, m.2.FiniteNumbers

/-- Every number that is complete where a reader stands is finite. -/
def Standing.FiniteNumbers : Standing → Prop
  | .inside containers _ => ∀ c ∈ containers, c.FiniteNumbers
  | .behind v => v.FiniteNumbers

section Reading

variable {containers : List Partial} {s : Standing} (hc : ∀ c ∈ containers, c.FiniteNumbers)
include hc

/-- A document that is put in its place brings its own numbers, and no others. -/
theorem finiteNumbers_place {v : Json} (h : place v containers = some s) (hv : v.FiniteNumbers) :
    s.FiniteNumbers := by
  unfold place at h
  split at h <;> cases h
  · exact hv
  · obtain ⟨hes, outer⟩ := List.forall_mem_cons.1 hc
    exact List.forall_mem_cons.2 ⟨List.forall_mem_cons.2 ⟨hv, hes⟩, outer⟩
  · obtain ⟨hms, outer⟩ := List.forall_mem_cons.1 hc
    exact List.forall_mem_cons.2 ⟨List.forall_mem_cons.2 ⟨hv, hms⟩, outer⟩

theorem finiteNumbers_close {isList : Bool} (h : close isList containers = some s) : s.FiniteNumbers := by
  unfold close at h
  split at h
  · obtain ⟨hes, outer⟩ := List.forall_mem_cons.1 hc
    split at h
    · exact finiteNumbers_place outer h (finiteNumbers_list.2 fun e he => hes e (List.mem_reverse.1 he))
    · cases h
  · obtain ⟨hms, outer⟩ := List.forall_mem_cons.1 hc
    split at h
    · cases h
    · exact finiteNumbers_place outer h (finiteNumbers_object.2 fun m hm => hms m (List.mem_reverse.1 hm))
  · cases h

theorem finiteNumbers_startValue {x : Lexeme} (h : startValue containers x = some s)
    (hx : ∀ n, x = .number n → n.Finite) : s.FiniteNumbers := by
  have scalar : ∀ {j : Json}, (∀ n, .number n ∉ j.toLexemes) → j.FiniteNumbers := fun none n hn => absurd hn (none n)
  cases x with
  | null => exact finiteNumbers_place hc h (scalar (by simp [toLexemes]))
  | bool b => exact finiteNumbers_place hc h (scalar (by simp [toLexemes]))
  | text t => exact finiteNumbers_place hc h (scalar (by simp [toLexemes]))
  | number n => exact finiteNumbers_place hc h (finiteNumbers_number.2 (hx n rfl))
  | openList =>
    cases h
    exact List.forall_mem_cons.2 ⟨by rintro _ ⟨⟩, hc⟩
  | openObject =>
    cases h
    exact List.forall_mem_cons.2 ⟨by rintro _ ⟨⟩, hc⟩
  | _ => cases h

theorem finiteNumbers_startMember {key : Text} (h : startMember containers key = some s) : s.FiniteNumbers := by
  unfold startMember at h
  split at h <;> cases h
  obtain ⟨hms, outer⟩ := List.forall_mem_cons.1 hc
  exact List.forall_mem_cons.2 ⟨hms, outer⟩

/-- A lexeme adds no number but itself. -/
theorem finiteNumbers_take {expected : Expected} {x : Lexeme} (h : take containers expected x = some s)
    (hx : ∀ n, x = .number n → n.Finite) : s.FiniteNumbers := by
  unfold take at h
  split at h
  case h_1 | h_3 => exact finiteNumbers_startValue hc h hx
  case h_2 | h_4 | h_8 | h_9 => exact finiteNumbers_close hc h
  case h_5 | h_6 => exact finiteNumbers_startMember hc h
  case h_7 =>
    cases h
    exact hc
  case h_10 =>
    split at h <;> cases h <;> exact hc
  case h_11 => cases h

/-- What a reader makes of lexemes with finite numbers has finite numbers, by induction on the lexemes: taking one
keeps all that is complete finite. -/
theorem finiteNumbers_readLexemes {toEnd trailing : Bool} {expected : Expected} {xs : List Lexeme} {v : Json}
    (h : readLexemes toEnd containers expected xs = .complete v trailing)
    (hxs : ∀ n, .number n ∈ xs → n.Finite) : v.FiniteNumbers := by
  induction xs generalizing containers expected with
  | nil => cases h
  | cons x xs ih =>
    have taken : ∀ {s}, take containers expected x = some s → s.FiniteNumbers := fun hs =>
      finiteNumbers_take hc hs fun n hn => hxs n (hn ▸ List.mem_cons_self ..)
    rw [readLexemes] at h
    split at h
    · cases h
    · rename_i hs
      cases h
      exact taken hs
    · rename_i hs
      exact ih (taken hs) h fun n hn => hxs n (List.mem_cons_of_mem _ hn)

end Reading

/-- Every number of a document that is read from text is finite, if it has a value. -/
theorem finiteNumbers_of_read {text : String} {v : Json} {trailing : Bool} (h : read text = .complete v trailing) :
    v.FiniteNumbers :=
  finiteNumbers_readLexemes (by rintro _ ⟨⟩) h fun _ hn => finite_of_mem_lexemes hn

end Eligibility.Json
