/-
What an evaluation looks at. A comparison looks at the value of its attribute and at nothing else, so a rule
looks at the attributes that it names. More attributes change nothing once an evaluation has ended in a verdict
or in a mismatch of types: then no missing attribute was met, and those that were added are asked for only by
comparisons that are passed over.
-/
import Eligibility.Proofs.Evaluation.ShortCircuit

namespace Eligibility

/-! ## The names of a rule -/

theorem mem_insertName {n m : String} {names : List String} : n ∈ insertName m names ↔ n = m ∨ n ∈ names := by
  fun_induction insertName m names with
  | case1 => simp
  | case2 k ks before => simp
  | case3 ks before => simp
  | case4 k ks before other ih => simp only [List.mem_cons, ih, or_left_comm]

namespace Rule

theorem mem_addNames {n : String} {r : Rule} {names : List String} :
    n ∈ r.addNames names ↔ n ∈ names ∨ ∃ c ∈ r.leaves, c.name = n := by
  induction r generalizing names with
  | test c => simp [addNames, leaves, mem_insertName, or_comm, eq_comm]
  | join k l r ihl ihr => simp only [addNames, leaves, ihr, ihl, List.mem_append, or_and_right, exists_or, or_assoc]

/-- A rule names the attributes of its comparisons. -/
theorem mem_names {n : String} {r : Rule} : n ∈ r.names ↔ ∃ c ∈ r.leaves, c.name = n := by
  rw [names, mem_addNames]
  simp

theorem mem_names_test {n : String} {c : Comparison} : n ∈ (test c).names ↔ n = c.name := by
  simp [mem_names, leaves, eq_comm]

theorem mem_names_join {n : String} {k : Connective} {l r : Rule} :
    n ∈ (join k l r).names ↔ n ∈ l.names ∨ n ∈ r.names := by
  simp only [mem_names, leaves, List.mem_append, or_and_right, exists_or]

end Rule

/-! ## Comparisons -/

/-- Of these names, `b` gives each that has a value in `a` the same value. -/
def Attributes.Keeps (names : List String) (a b : Attributes) : Prop :=
  ∀ n ∈ names, ∀ v, a.get? n = some v → b.get? n = some v

namespace Comparison

variable {c : Comparison} {a b : Attributes} {x : String}

theorem holds_some_ne_missing (c : Comparison) (v : Value) (x : String) :
    c.holds (some v) ≠ .error (.missingAttribute x) := by
  obtain ⟨n, comparator, y | s⟩ := c <;> cases comparator <;> cases v <;> nofun

/-- A comparison fails for a missing attribute just if its own has no value. -/
theorem evaluate_eq_missing : c.evaluate a = .error (.missingAttribute x) ↔ c.name = x ∧ a.get? x = none := by
  rw [evaluate]
  cases hv : a.get? c.name with
  | none =>
    rw [holds, Except.error.injEq, EvaluationFault.missingAttribute.injEq]
    constructor
    · rintro rfl
      exact ⟨rfl, hv⟩
    · exact And.left
  | some v =>
    constructor
    · exact fun h => absurd h (holds_some_ne_missing c v x)
    · rintro ⟨rfl, h⟩
      rw [hv] at h
      cases h

theorem evaluate_congr (h : a.get? c.name = b.get? c.name) : c.evaluate a = c.evaluate b := congrArg c.holds h

end Comparison

/-! ## Rules -/

namespace Rule

variable {a b : Attributes} {k : Connective} {l r : Rule}

/-- The evaluation does not fail for a missing attribute. -/
def MeetsNoGap (a : Attributes) (r : Rule) : Prop := ∀ x, r.evaluate a ≠ .error (.missingAttribute x)

theorem missing_of_evaluate {x : String} (h : r.evaluate a = .error (.missingAttribute x)) :
    x ∈ r.names ∧ a.get? x = none := by
  induction r with
  | test c =>
    obtain ⟨rfl, missing⟩ := Comparison.evaluate_eq_missing.1 h
    exact ⟨mem_names_test.2 rfl, missing⟩
  | join k l r ihl ihr =>
    rw [mem_names_join]
    rcases evaluate_join_eq_error.1 h with hl | ⟨-, hr⟩
    · exact ⟨.inl (ihl hl).1, (ihl hl).2⟩
    · exact ⟨.inr (ihr hr).1, (ihr hr).2⟩

theorem MeetsNoGap.left (h : (join k l r).MeetsNoGap a) : l.MeetsNoGap a := fun x hl =>
  h x (evaluate_join_eq_error.2 (.inl hl))

theorem MeetsNoGap.right (h : (join k l r).MeetsNoGap a) (hl : l.evaluate a = .ok k.neutral) : r.MeetsNoGap a :=
  fun x hr => h x (evaluate_join_eq_error.2 (.inr ⟨hl, hr⟩))

/-- The outcome of a join is that of its left side, unless the left side leaves it open. -/
theorem evaluate_join_congr (hl : l.evaluate a = l.evaluate b)
    (hr : l.evaluate a = .ok k.neutral → r.evaluate a = r.evaluate b) :
    (join k l r).evaluate a = (join k l r).evaluate b := by
  rw [evaluate_join, evaluate_join, ← hl]
  cases h : l.evaluate a with
  | error e => rfl
  | ok left =>
    rw [ok_bind, ok_bind]
    by_cases hs : k.settledBy left = true
    · rw [if_pos hs, if_pos hs]
    · -- only here is the right side looked at at all
      rw [if_neg hs, if_neg hs]
      have neutral : left = k.neutral := by
        rwa [Connective.settledBy_iff, Decidable.not_not] at hs
      exact hr (neutral ▸ h)

theorem evaluate_congr (h : ∀ n ∈ r.names, a.get? n = b.get? n) : r.evaluate a = r.evaluate b := by
  induction r with
  | test c => exact Comparison.evaluate_congr (h c.name (mem_names_test.2 rfl))
  | join k l r ihl ihr =>
    refine evaluate_join_congr (ihl fun n hn => ?_) fun _ => ihr fun n hn => ?_
    · exact h n (mem_names_join.2 (.inl hn))
    · exact h n (mem_names_join.2 (.inr hn))

/-- An evaluation that meets no missing attribute ends as it does when there are more of them. -/
theorem MeetsNoGap.evaluate_eq (hm : r.MeetsNoGap a) (h : a.Keeps r.names b) : r.evaluate a = r.evaluate b := by
  induction r with
  | test c =>
    cases hv : a.get? c.name with
    -- a value that is missing would have been met
    | none => exact absurd (Comparison.evaluate_eq_missing.2 ⟨rfl, hv⟩) (hm c.name)
    | some v => exact Comparison.evaluate_congr (hv.trans (h c.name (mem_names_test.2 rfl) v hv).symm)
  | join k l r ihl ihr =>
    refine evaluate_join_congr (ihl hm.left fun n hn => ?_) fun hl => ihr (hm.right hl) fun n hn => ?_
    · exact h n (mem_names_join.2 (.inl hn))
    · exact h n (mem_names_join.2 (.inr hn))

/-- A verdict depends on no attribute but those that the rule names, and of them only missing ones can change it.
Where the evaluation does not fail for a missing attribute, it ends the same way, in a verdict or in a mismatch of
types, on all attributes that keep the values of the names. Attributes that agree on the names give the same
outcome in every case. And the attribute that is reported missing is one that the rule names and that has no
value, so none is reported where every name has one. -/
theorem evaluate_depends_on_names (r : Rule) (a b : Attributes) :
    (a.Keeps r.names b → (∀ x, r.evaluate a ≠ .error (.missingAttribute x)) → r.evaluate b = r.evaluate a) ∧
    ((∀ n ∈ r.names, a.get? n = b.get? n) → r.evaluate a = r.evaluate b) ∧
    (∀ x, r.evaluate a = .error (.missingAttribute x) → x ∈ r.names ∧ a.get? x = none) ∧
    ((∀ n ∈ r.names, ∃ v, a.get? n = some v) → ∀ x, r.evaluate a ≠ .error (.missingAttribute x)) := by
  refine ⟨fun h hm => ?_, evaluate_congr, fun x => missing_of_evaluate, fun h x hx => ?_⟩
  · exact (MeetsNoGap.evaluate_eq hm h).symm
  · obtain ⟨hn, missing⟩ := missing_of_evaluate hx
    obtain ⟨v, hv⟩ := h x hn
    rw [missing] at hv
    cases hv

/-- The attribute `level` is passed over while it is missing, and may then have any value; where the rule needs
it, the evaluation says so. -/
theorem evaluate_depends_on_names_passed_over :
    let sales : Rule := .test ⟨"dept", .equal, .text "Sales"⟩
    let level : Rule := .test ⟨"level", .greater, .text "A"⟩
    let r : Rule := .join .or sales level
    let short : Attributes := ⟨[("dept", .text "Sales")]⟩
    let long : Attributes := ⟨[("dept", .text "Sales"), ("level", .text "B")]⟩
    short.Keeps r.names long ∧ r.evaluate long = .ok true ∧
      level.evaluate short = .error (.missingAttribute "level") ∧ "level" ∈ level.names ∧
      level.evaluate long = .error (.typeMismatch ⟨"level", .greater, .text "A"⟩ "string") := by
  intro sales level r short long
  have keeps : short.Keeps r.names long := by
    intro n hn v hv
    obtain rfl | rfl : n = "dept" ∨ n = "level" := by simpa [r, sales, level, mem_names_join, mem_names_test] using hn
    · exact hv
    · cases hv
  have verdict : r.evaluate short = .ok true := rfl
  obtain ⟨same, -, -, -⟩ := evaluate_depends_on_names r short long
  obtain ⟨-, -, missing, -⟩ := evaluate_depends_on_names level short long
  have unknown : level.evaluate short = .error (.missingAttribute "level") := rfl
  refine ⟨keeps, ?_, unknown, (missing "level" unknown).1, rfl⟩
  exact (same keeps fun x hx => by cases verdict.symm.trans hx).trans verdict

end Rule
end Eligibility
