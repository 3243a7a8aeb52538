/-
Equality of rules. Numbers are compared by value, so equal rules need not be the same: a zero may carry
either sign. Equal rules have the same verdicts all the same, since a comparison too looks at no more of a
number than its place on the line. A rule equals itself unless some literal of it is not-a-number.
-/
import Eligibility.Proofs.Evaluation.ShortCircuit

namespace Eligibility

/-! ## Numbers -/

namespace Binary64

variable {x y : Binary64}

theorem beq_iff : (x == y) = true ↔ ∃ n, x.place? = some n ∧ y.place? = some n := by
  change related (· == ·) x y = true ↔ _
  unfold related
  cases x.place? with
  | none => simp
  | some n =>
    cases y.place? with
    | none => simp
    | some m =>
      simp only [beq_iff_eq]
      constructor
      · rintro rfl
        exact ⟨n, rfl, rfl⟩
      · rintro ⟨_, ⟨⟩, ⟨⟩⟩
        rfl

theorem place?_eq_of_beq (h : (x == y) = true) : x.place? = y.place? := by
  obtain ⟨n, hx, hy⟩ := beq_iff.1 h
  rw [hx, hy]

/-- Only not-a-number has no place on the line. -/
theorem place?_eq_none : x.place? = none ↔ x = .nan := by
  rcases x with _ | ⟨_ | _⟩ | ⟨_ | _, m⟩ <;> simp [place?]

theorem beq_self (h : x ≠ .nan) : (x == x) = true := by
  obtain ⟨n, hn⟩ := Option.ne_none_iff_exists'.1 (mt place?_eq_none.1 h)
  exact beq_iff.2 ⟨n, hn, hn⟩

theorem beq_symm (h : (x == y) = true) : (y == x) = true := by
  obtain ⟨n, hx, hy⟩ := beq_iff.1 h
  exact beq_iff.2 ⟨n, hy, hx⟩

theorem beq_trans {z : Binary64} (h : (x == y) = true) (h' : (y == z) = true) : (x == z) = true := by
  obtain ⟨n, hx, hy⟩ := beq_iff.1 h
  exact beq_iff.2 ⟨n, hx, (place?_eq_of_beq h').symm.trans hy⟩

/-- An order between numbers looks at their places. -/
theorem related_congr {r : Int → Int → Bool} (h : x.place? = y.place?) (z : Binary64) :
    related r z x = related r z y ∧ related r x z = related r y z := by
  unfold related
  rw [h]
  exact ⟨rfl, rfl⟩

end Binary64

/-! ## Comparisons -/

/-- Literals are equal as the same text or as numbers of one place on the line. -/
theorem Literal.beq_iff {x y : Literal} : (x == y) = true ↔
    (∃ s, x = .text s ∧ y = .text s) ∨ ∃ u v, x = .number u ∧ y = .number v ∧ (u == v) = true := by
  cases x with
  | number u =>
    cases y with
    | number v =>
      change (u == v) = true ↔ _
      simp
    | text t =>
      change false = true ↔ _
      simp
  | text s =>
    cases y with
    | number v =>
      change false = true ↔ _
      simp
    | text t =>
      change (s == t) = true ↔ _
      rw [beq_iff_eq]
      constructor
      · rintro rfl
        exact .inl ⟨s, rfl, rfl⟩
      · rintro (⟨_, ⟨⟩, ⟨⟩⟩ | ⟨_, _, ⟨⟩, _⟩)
        rfl

theorem Literal.beq_trans {x y z : Literal} (h : (x == y) = true) (h' : (y == z) = true) : (x == z) = true := by
  rcases beq_iff.1 h with ⟨s, rfl, rfl⟩ | ⟨u, v, rfl, rfl, huv⟩
  · exact h'
  · rcases beq_iff.1 h' with ⟨_, ⟨⟩, _⟩ | ⟨_, w, ⟨⟩, rfl, hvw⟩
    exact beq_iff.2 (.inr ⟨u, w, rfl, rfl, Binary64.beq_trans huv hvw⟩)

/-- Equal numbers stand in the same order to any other. -/
theorem Comparator.orders_congr (c : Comparator) {x y : Binary64} (h : (x == y) = true) (z : Binary64) :
    c.orders z x = c.orders z y := by
  have place := Binary64.place?_eq_of_beq h
  cases c with
  | greater => exact (Binary64.related_congr place z).2
  | atLeast => exact (Binary64.related_congr place z).2
  | less => exact (Binary64.related_congr place z).1
  | atMost => exact (Binary64.related_congr place z).1
  | equal => exact (Binary64.related_congr place z).1
  | notEqual => exact congrArg (!·) (Binary64.related_congr place z).1

namespace Comparison

variable {c d : Comparison} {a : Attributes}

theorem beq_iff : (c == d) = true ↔
    c.name = d.name ∧ c.comparator = d.comparator ∧ (c.literal == d.literal) = true := by
  obtain ⟨n, k, x⟩ := c
  obtain ⟨m, l, y⟩ := d
  change (n == m && (k == l && x == y)) = true ↔ _
  simp [Bool.and_eq_true]

theorem beq_symm (h : (c == d) = true) : (d == c) = true := by
  obtain ⟨name, comparator, literal⟩ := beq_iff.1 h
  refine beq_iff.2 ⟨name.symm, comparator.symm, Literal.beq_iff.2 ?_⟩
  rcases Literal.beq_iff.1 literal with ⟨s, hc, hd⟩ | ⟨u, v, hc, hd, huv⟩
  · exact .inl ⟨s, hd, hc⟩
  · exact .inr ⟨v, u, hd, hc, Binary64.beq_symm huv⟩

theorem beq_trans {e : Comparison} (h : (c == d) = true) (h' : (d == e) = true) : (c == e) = true := by
  obtain ⟨name, comparator, literal⟩ := beq_iff.1 h
  obtain ⟨name', comparator', literal'⟩ := beq_iff.1 h'
  exact beq_iff.2 ⟨name.trans name', comparator.trans comparator', Literal.beq_trans literal literal'⟩

/-- A verdict on any value does not tell equal numbers apart. -/
theorem holds_congr {n : String} {k : Comparator} {x y : Binary64} (h : (x == y) = true) {v : Option Value} {b : Bool}
    (hb : (⟨n, k, .number x⟩ : Comparison).holds v = .ok b) : (⟨n, k, .number y⟩ : Comparison).holds v = .ok b := by
  have orders := k.orders_congr h
  cases v with
  | none => cases hb
  | some v =>
    cases v with
    | number z =>
      rw [← hb]
      cases k <;> exact congrArg Except.ok (orders z).symm
    -- against any other value the literal is not looked at
    | bool _ =>
      cases k
      case equal | notEqual => exact hb
      all_goals cases hb
    | text _ =>
      cases k
      case equal | notEqual => exact hb
      all_goals cases hb

theorem evaluate_eq_ok_of_beq (h : (c == d) = true) {b : Bool} (hb : c.evaluate a = .ok b) : d.evaluate a = .ok b := by
  obtain ⟨n, k, x⟩ := c
  obtain ⟨m, l, y⟩ := d
  obtain ⟨rfl, rfl, literal⟩ := beq_iff.1 h
  rcases Literal.beq_iff.1 literal with ⟨s, rfl, rfl⟩ | ⟨u, v, rfl, rfl, huv⟩
  · exact hb
  · exact holds_congr huv hb

end Comparison

/-! ## Rules -/

namespace Rule

variable {r s : Rule} {a : Attributes}

/-- No literal is not-a-number. -/
def NanFree (r : Rule) : Prop := ∀ c ∈ r.leaves, c.literal ≠ .number .nan

theorem nanFree_join {k : Connective} {l r : Rule} : (join k l r).NanFree ↔ l.NanFree ∧ r.NanFree := by
  simp only [NanFree, leaves, List.forall_mem_append]

theorem beq_test {c d : Comparison} : (test c == test d) = (c == d) := rfl

/-- Joins are equal if their connectives and both their sides are. -/
theorem beq_join {k k' : Connective} {l r l' r' : Rule} :
    (join k l r == join k' l' r') = true ↔ k = k' ∧ (l == l') = true ∧ (r == r') = true := by
  change (k == k' && (l == l' && r == r')) = true ↔ _
  simp [Bool.and_eq_true]

theorem beq_self (h : r.NanFree) : (r == r) = true := by
  induction r with
  | test c =>
    rw [beq_test, Comparison.beq_iff]
    refine ⟨rfl, rfl, Literal.beq_iff.2 ?_⟩
    cases hc : c.literal with
    | text s => exact .inl ⟨s, rfl, rfl⟩
    | number x =>
      have hx : x ≠ .nan := by
        rintro rfl
        exact h c (by simp [leaves]) hc
      exact .inr ⟨x, x, rfl, rfl, Binary64.beq_self hx⟩
  | join k l r ihl ihr =>
    obtain ⟨hl, hr⟩ := nanFree_join.1 h
    exact beq_join.2 ⟨rfl, ihl hl, ihr hr⟩

/-- Equal rules have the same shape: both are comparisons, or both joins of equal sides. -/
theorem beq_cases (h : (r == s) = true) :
    (∃ c d, r = test c ∧ s = test d ∧ (c == d) = true) ∨
    ∃ k l l' m m', r = join k l m ∧ s = join k l' m' ∧ (l == l') = true ∧ (m == m') = true := by
  cases r with
  | test c =>
    cases s with
    | test d => exact .inl ⟨c, d, rfl, rfl, h⟩
    | join => cases h
  | join k l m =>
    cases s with
    | test => cases h
    | join k' l' m' =>
      obtain ⟨rfl, hl, hm⟩ := beq_join.1 h
      exact .inr ⟨k, l, l', m, m', rfl, rfl, hl, hm⟩

theorem beq_symm (h : (r == s) = true) : (s == r) = true := by
  induction r generalizing s with
  | test c =>
    rcases beq_cases h with ⟨_, d, ⟨⟩, rfl, hcd⟩ | ⟨_, _, _, _, _, ⟨⟩, _⟩
    exact Comparison.beq_symm hcd
  | join k l m ihl ihm =>
    rcases beq_cases h with ⟨_, _, ⟨⟩, _⟩ | ⟨_, _, l', _, m', ⟨⟩, rfl, hl, hm⟩
    exact beq_join.2 ⟨rfl, ihl hl, ihm hm⟩

theorem beq_trans {t : Rule} (h : (r == s) = true) (h' : (s == t) = true) : (r == t) = true := by
  induction r generalizing s t with
  | test c =>
    rcases beq_cases h with ⟨_, d, ⟨⟩, rfl, hcd⟩ | ⟨_, _, _, _, _, ⟨⟩, _⟩
    rcases beq_cases h' with ⟨_, e, ⟨⟩, rfl, hde⟩ | ⟨_, _, _, _, _, ⟨⟩, _⟩
    exact Comparison.beq_trans hcd hde
  | join k l m ihl ihm =>
    rcases beq_cases h with ⟨_, _, ⟨⟩, _⟩ | ⟨_, _, l', _, m', ⟨⟩, rfl, hl, hm⟩
    -- the rule in the middle has the shape of both others
    rcases beq_cases h' with ⟨_, _, ⟨⟩, _⟩ | ⟨_, _, l'', _, m'', ⟨⟩, rfl, hl', hm'⟩
    exact beq_join.2 ⟨rfl, ihl hl hl', ihm hm hm'⟩

/-- It does not matter on which side of an equality a rule stands. -/
theorem beq_eq_false_comm : (r == s) = false ↔ (s == r) = false := by
  rw [← Bool.not_eq_true, ← Bool.not_eq_true]
  exact not_congr ⟨beq_symm, beq_symm⟩

/-- Equal rules have the same verdicts. -/
theorem evaluate_eq_ok_of_beq (h : (r == s) = true) {b : Bool} (hb : r.evaluate a = .ok b) : s.evaluate a = .ok b := by
  induction r generalizing s b with
  | test c =>
    rcases beq_cases h with ⟨_, d, ⟨⟩, rfl, hcd⟩ | ⟨_, _, _, _, _, ⟨⟩, _⟩
    exact Comparison.evaluate_eq_ok_of_beq hcd hb
  | join k l m ihl ihm =>
    rcases beq_cases h with ⟨_, _, ⟨⟩, _⟩ | ⟨_, _, l', _, m', ⟨⟩, rfl, hl, hm⟩
    rw [evaluate_join_eq_ok] at hb ⊢
    rcases hb with ⟨hleft, hne⟩ | ⟨hleft, hright⟩
    · -- the sides are equal, so that the same one settles both joins
      exact .inl ⟨ihl hl hleft, hne⟩
    · exact .inr ⟨ihl hl hleft, ihm hm hright⟩

end Rule
end Eligibility
