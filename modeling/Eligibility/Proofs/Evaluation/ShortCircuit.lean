/-
Evaluation against the meaning of AND and OR that knows no order. A verdict is the plain value of the
rule however the comparisons that have none are decided, so passing over the right side of a join costs
nothing. A failure is that of the one comparison that is reached and fails: reached means that every join
with the comparison on its right side has been left open by its left side.
-/
import Eligibility.Evaluation
import Eligibility.Proofs.Outcome

namespace Eligibility

/-! ## Connectives -/

namespace Connective

/-- The plain value of a join from those of its sides. -/
def apply : Connective → Bool → Bool → Bool
  | and, x, y => x && y
  | or, x, y => x || y

/-- The verdict of a left side that leaves the join to the right one: true under AND, false under OR. -/
def neutral : Connective → Bool
  | and => true
  | or => false

theorem settledBy_iff {k : Connective} {left : Bool} : k.settledBy left = true ↔ left ≠ k.neutral := by
  cases k <;> cases left <;> decide

theorem apply_neutral (k : Connective) (right : Bool) : k.apply k.neutral right = right := by
  cases k <;> cases right <;> rfl

theorem apply_of_ne {k : Connective} {left : Bool} (h : left ≠ k.neutral) (right : Bool) :
    k.apply left right = left := by
  cases k <;> cases left <;> cases right <;> first | rfl | exact absurd rfl h

end Connective

namespace Rule

variable {a : Attributes} {k : Connective} {l r : Rule} {p : Path}

/-! ## Joins -/

theorem evaluate_join (a : Attributes) (k : Connective) (l r : Rule) :
    (join k l r).evaluate a =
      l.evaluate a >>= fun left => if k.settledBy left then .ok left else r.evaluate a := by
  rw [evaluate]
  rfl

theorem evaluate_join_eq_ok {b : Bool} : (join k l r).evaluate a = .ok b ↔
    (l.evaluate a = .ok b ∧ b ≠ k.neutral) ∨ (l.evaluate a = .ok k.neutral ∧ r.evaluate a = .ok b) := by
  rw [evaluate_join, bind_eq_ok]
  constructor
  · rintro ⟨left, hl, h⟩
    by_cases hs : left = k.neutral
    · subst hs
      rw [if_neg (by rw [Connective.settledBy_iff]; simp)] at h
      exact .inr ⟨hl, h⟩
    · rw [if_pos (Connective.settledBy_iff.2 hs)] at h
      cases h
      exact .inl ⟨hl, hs⟩
  · rintro (⟨hl, hs⟩ | ⟨hl, hr⟩)
    · exact ⟨b, hl, if_pos (Connective.settledBy_iff.2 hs)⟩
    · refine ⟨k.neutral, hl, ?_⟩
      rw [if_neg (by rw [Connective.settledBy_iff]; simp)]
      exact hr

/-- A join fails if its left side does, or if its right side does and is not passed over. -/
theorem evaluate_join_eq_error {e : EvaluationFault} : (join k l r).evaluate a = .error e ↔
    l.evaluate a = .error e ∨ (l.evaluate a = .ok k.neutral ∧ r.evaluate a = .error e) := by
  rw [evaluate_join]
  cases hl : l.evaluate a with
  | error e' => simp [bind, Except.bind]
  | ok left =>
    rw [ok_bind]
    by_cases hs : left = k.neutral
    · subst hs
      rw [if_neg (by rw [Connective.settledBy_iff]; simp)]
      simp
    · rw [if_pos (Connective.settledBy_iff.2 hs)]
      simp [hs]

/-! ## Verdicts -/

/-- The value of a rule of which the comparisons are decided by their places. -/
def plainValue (decided : Path → Bool) : Rule → Bool
  | test _ => decided []
  | join k l r => k.apply (l.plainValue fun p => decided (.left :: p)) (r.plainValue fun p => decided (.right :: p))

/-- Decides every comparison that has a verdict as it has it. -/
def Completes (a : Attributes) (r : Rule) (decided : Path → Bool) : Prop :=
  ∀ p c b, r.at? p = some (.test c) → c.evaluate a = .ok b → decided p = b

theorem Completes.left {decided : Path → Bool} (h : Completes a (join k l r) decided) :
    Completes a l fun p => decided (.left :: p) := fun p c b hp => h (.left :: p) c b (by rwa [at?])

theorem Completes.right {decided : Path → Bool} (h : Completes a (join k l r) decided) :
    Completes a r fun p => decided (.right :: p) := fun p c b hp => h (.right :: p) c b (by rwa [at?])

/-- A verdict is the plain value, whatever is decided for the comparisons that were passed over or fail. -/
theorem plainValue_of_evaluate {b : Bool} (h : r.evaluate a = .ok b) {decided : Path → Bool}
    (hd : Completes a r decided) : r.plainValue decided = b := by
  induction r generalizing b decided with
  | test c => exact hd [] c b rfl h
  | join k l r ihl ihr =>
    rw [plainValue]
    rcases evaluate_join_eq_ok.1 h with ⟨hl, hs⟩ | ⟨hl, hr⟩
    -- a left side that is not neutral is the value, however the right side is decided
    · rw [ihl hl hd.left, Connective.apply_of_ne hs]
    · rw [ihl hl hd.left, Connective.apply_neutral, ihr hr hd.right]

/-! ## Failures -/

/-- The comparison at a path fails. -/
def FailsAt (a : Attributes) (r : Rule) (p : Path) (e : EvaluationFault) : Prop :=
  ∃ c, r.at? p = some (.test c) ∧ c.evaluate a = .error e

/-- Every join with the path on its right side is left open by its left side. -/
def Reached (a : Attributes) (r : Rule) (p : Path) : Prop :=
  ∀ q s k left right, p = q ++ .right :: s → r.at? q = some (.join k left right) → left.evaluate a = .ok k.neutral

theorem reached_nil (a : Attributes) (r : Rule) : Reached a r [] := by
  intro q s k left right hp
  cases q <;> cases hp

theorem reached_left : Reached a (join k l r) (.left :: p) ↔ Reached a l p := by
  constructor
  · rintro h q s k' left right rfl hq
    exact h (.left :: q) s k' left right rfl (by rwa [at?])
  · intro h q s k' left right hp hq
    cases q with
    | nil => cases hp
    | cons b q =>
      obtain ⟨rfl, rfl⟩ := List.cons.inj hp
      exact h q s k' left right rfl (by rwa [at?] at hq)

/-- A place on the right is reached if the left side leaves the join open and the place is reached there. -/
theorem reached_right : Reached a (join k l r) (.right :: p) ↔ l.evaluate a = .ok k.neutral ∧ Reached a r p := by
  constructor
  · intro h
    refine ⟨h [] p k l r rfl rfl, ?_⟩
    rintro q s k' left right rfl hq
    exact h (.right :: q) s k' left right rfl (by rwa [at?])
  · rintro ⟨hl, h⟩ q s k' left right hp hq
    cases q with
    | nil =>
      cases hq
      exact hl
    | cons b q =>
      obtain ⟨rfl, rfl⟩ := List.cons.inj hp
      exact h q s k' left right rfl (by rwa [at?] at hq)

theorem failsAt_test {c : Comparison} {e : EvaluationFault} :
    FailsAt a (test c) p e ↔ p = [] ∧ c.evaluate a = .error e := by
  unfold FailsAt
  cases p with
  | nil => simp [at?]
  | cons b p => simp [at?]

/-- The failure of a join is one of its left side, or, if that leaves it open, one of its right side. -/
theorem failure_join {e : EvaluationFault} : FailsAt a (join k l r) p e ∧ Reached a (join k l r) p ↔
    (∃ q, p = .left :: q ∧ FailsAt a l q e ∧ Reached a l q) ∨
    (∃ q, p = .right :: q ∧ l.evaluate a = .ok k.neutral ∧ FailsAt a r q e ∧ Reached a r q) := by
  match p with
  | [] => simp [FailsAt, at?]
  | .left :: p => simp [FailsAt, at?, reached_left]
  | .right :: p => simp [FailsAt, at?, reached_right, and_left_comm]

/-- A rule fails just if a comparison that is reached fails, and then with its failure. -/
theorem evaluate_eq_error_iff {e : EvaluationFault} :
    r.evaluate a = .error e ↔ ∃ p, FailsAt a r p e ∧ Reached a r p := by
  induction r with
  | test c =>
    constructor
    · intro h
      exact ⟨[], failsAt_test.2 ⟨rfl, h⟩, reached_nil a _⟩
    · rintro ⟨p, hf, -⟩
      exact (failsAt_test.1 hf).2
  | join k l r ihl ihr =>
    simp only [evaluate_join_eq_error, failure_join, ihl, ihr]
    constructor
    · -- the path in the side is the rest of the path in the join
      rintro (⟨q, hq⟩ | ⟨hl, q, hq⟩)
      · exact ⟨.left :: q, .inl ⟨q, rfl, hq⟩⟩
      · exact ⟨.right :: q, .inr ⟨q, rfl, hl, hq⟩⟩
    · rintro ⟨_, ⟨q, rfl, hq⟩ | ⟨q, rfl, hl, hq⟩⟩
      · exact .inl ⟨q, hq⟩
      · exact .inr ⟨hl, q, hq⟩

/-- A left side that fails does not leave the join open, so no two comparisons are reached and fail. -/
theorem failure_unique {p' : Path} {e e' : EvaluationFault} (h : FailsAt a r p e ∧ Reached a r p)
    (h' : FailsAt a r p' e' ∧ Reached a r p') : p = p' := by
  induction r generalizing p p' with
  | test c => rw [(failsAt_test.1 h.1).1, (failsAt_test.1 h'.1).1]
  | join k l r ihl ihr =>
    rcases failure_join.1 h with ⟨q, rfl, hq⟩ | ⟨q, rfl, hl, hq⟩ <;>
      rcases failure_join.1 h' with ⟨q', rfl, hq'⟩ | ⟨q', rfl, hl', hq'⟩
    · rw [ihl hq hq']
    -- one failure on each side: the left side would both fail and leave the join open
    · rw [evaluate_eq_error_iff.2 ⟨q, hq⟩] at hl'
      cases hl'
    · rw [evaluate_eq_error_iff.2 ⟨q', hq'⟩] at hl
      cases hl
    · rw [ihr hq hq']

/-- Evaluation is sound and its failures are exact. A verdict is the plain value of the rule for every
way of deciding its comparisons that keeps the verdicts they have. A failure is that of a comparison that
every join with the comparison on its right side leaves open, and there is at most one of those. -/
theorem evaluate_sound_and_exact (a : Attributes) (r : Rule) :
    (∀ b, r.evaluate a = .ok b → ∀ decided, Completes a r decided → r.plainValue decided = b) ∧
    (∀ e, r.evaluate a = .error e ↔ ∃ p, FailsAt a r p e ∧ Reached a r p) ∧
    ∀ p p' e e', FailsAt a r p e ∧ Reached a r p → FailsAt a r p' e' ∧ Reached a r p' → p = p' :=
  ⟨fun _ h _ hd => plainValue_of_evaluate h hd, fun _ => evaluate_eq_error_iff,
    fun _ _ _ _ h h' => failure_unique h h'⟩

end Rule
end Eligibility
