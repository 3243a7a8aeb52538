/-
What a combination means. Evaluating it is evaluating its rules one after the other until an outcome
decides, and however the same rules are grouped under the same connective, the outcome is the same, failures
included. Where no rule fails the order does not matter either: the verdict is all of theirs under AND and
any of them under OR.
-/
import Eligibility.Proofs.Combination.Folding
import Eligibility.Proofs.Evaluation.ShortCircuit
import Mathlib.Data.List.Forall2

namespace Eligibility

namespace Connective

/-- Whether an outcome of one rule is that of the combination, whatever the rules after it. -/
def decides (k : Connective) : Except EvaluationFault Bool → Bool
  | .error _ => true
  | .ok verdict => k.settledBy verdict

/-- All of the verdicts on rules under AND, any of them under OR. -/
def overall (k : Connective) (verdict : Rule → Bool) (rules : List Rule) : Bool :=
  match k with
  | and => rules.all verdict
  | or => rules.any verdict

variable {k : Connective}

theorem decides_eq_false {x : Except EvaluationFault Bool} : k.decides x = false ↔ x = .ok k.neutral := by
  cases x with
  | error e => simp [decides]
  | ok b =>
    rw [decides, ← Bool.not_eq_true, settledBy_iff, not_not, Except.ok.injEq]

theorem decides_of_ne {x : Except EvaluationFault Bool} (h : x ≠ .ok k.neutral) : k.decides x = true := by
  rw [← Bool.not_eq_false]
  exact mt decides_eq_false.1 h

theorem overall_nil (k : Connective) (verdict : Rule → Bool) : k.overall verdict [] = k.neutral := by
  cases k <;> rfl

theorem overall_cons (k : Connective) (verdict : Rule → Bool) (r : Rule) (rules : List Rule) :
    k.overall verdict (r :: rules) = k.apply (verdict r) (k.overall verdict rules) := by
  cases k <;> rfl

/-- The order of the rules does not matter to all or any of their verdicts. -/
theorem overall_perm {verdict : Rule → Bool} {rules rules' : List Rule} (h : rules.Perm rules') :
    k.overall verdict rules = k.overall verdict rules' := by
  cases k with
  | and => exact h.all_eq
  | or => exact h.any_eq

end Connective

namespace Rule

/-! ## One rule after the other -/

/-- The first outcome of rules that decides, be it a verdict or a failure, or else the neutral verdict. -/
def inTurn (k : Connective) (a : Attributes) (rules : List Rule) : Except EvaluationFault Bool :=
  ((rules.map (evaluate a)).find? k.decides).getD (.ok k.neutral)

variable {a : Attributes} {k : Connective}

@[simp] theorem inTurn_nil (k : Connective) (a : Attributes) : inTurn k a [] = .ok k.neutral := rfl

theorem inTurn_cons_of_ne {r : Rule} (h : r.evaluate a ≠ .ok k.neutral) (rules : List Rule) :
    inTurn k a (r :: rules) = r.evaluate a := by
  rw [inTurn, List.map_cons, List.find?_cons_of_pos (Connective.decides_of_ne h)]
  rfl

theorem inTurn_cons_of_neutral {r : Rule} (h : r.evaluate a = .ok k.neutral) (rules : List Rule) :
    inTurn k a (r :: rules) = inTurn k a rules := by
  have passed : ¬ k.decides (r.evaluate a) = true := by
    rw [Bool.not_eq_true]
    exact Connective.decides_eq_false.2 h
  rw [inTurn, List.map_cons, List.find?_cons_of_neg passed]
  rfl

theorem inTurn_single (k : Connective) (a : Attributes) (r : Rule) : inTurn k a [r] = r.evaluate a := by
  by_cases h : r.evaluate a = .ok k.neutral
  · rw [inTurn_cons_of_neutral h, h]
    rfl
  · exact inTurn_cons_of_ne h []

/-- Rules in turn have the neutral verdict only if every one of them has it. -/
theorem inTurn_eq_neutral {rules : List Rule} :
    inTurn k a rules = .ok k.neutral ↔ ∀ r ∈ rules, r.evaluate a = .ok k.neutral := by
  induction rules with
  | nil => simp
  | cons r rules ih =>
    by_cases h : r.evaluate a = .ok k.neutral
    · rw [inTurn_cons_of_neutral h, ih, List.forall_mem_cons]
      exact (and_iff_right h).symm
    · rw [inTurn_cons_of_ne h]
      constructor
      · exact fun h' => absurd h' h
      · exact fun h' => absurd (h' r (List.mem_cons_self ..)) h

/-- Rules that decide nothing may be left away. -/
theorem inTurn_append_of_neutral {xs : List Rule} (h : inTurn k a xs = .ok k.neutral) (ys : List Rule) :
    inTurn k a (xs ++ ys) = inTurn k a ys := by
  have all := inTurn_eq_neutral.1 h
  clear h
  induction xs with
  | nil => rfl
  | cons r xs ih =>
    obtain ⟨hr, hxs⟩ := List.forall_mem_cons.1 all
    rw [List.cons_append, inTurn_cons_of_neutral hr, ih hxs]

theorem inTurn_append_of_ne {xs : List Rule} (h : inTurn k a xs ≠ .ok k.neutral) (ys : List Rule) :
    inTurn k a (xs ++ ys) = inTurn k a xs := by
  induction xs with
  | nil => exact absurd rfl h
  | cons r xs ih =>
    by_cases hr : r.evaluate a = .ok k.neutral
    · rw [List.cons_append, inTurn_cons_of_neutral hr, inTurn_cons_of_neutral hr]
      rw [inTurn_cons_of_neutral hr] at h
      exact ih h
    · rw [List.cons_append, inTurn_cons_of_ne hr, inTurn_cons_of_ne hr]

/-! ## Groupings -/

/-- `Grouping k g rules`: the rule `g` is made of these rules, in their order, by joins under `k`. -/
inductive Grouping (k : Connective) : Rule → List Rule → Prop
  | single (r : Rule) : Grouping k r [r]
  | joined {l r : Rule} {xs ys : List Rule} : Grouping k l xs → Grouping k r ys → Grouping k (join k l r) (xs ++ ys)

theorem evaluate_join_of_ne {l r : Rule} (h : l.evaluate a ≠ .ok k.neutral) :
    (join k l r).evaluate a = l.evaluate a := by
  rw [evaluate_join]
  cases hl : l.evaluate a with
  | error e => rfl
  | ok left =>
    have settled : k.settledBy left = true := by
      rw [Connective.settledBy_iff]
      rintro rfl
      exact h hl
    exact if_pos settled

/-- A join whose left side is neutral is evaluated as its right side. -/
theorem evaluate_join_of_neutral {l r : Rule} (h : l.evaluate a = .ok k.neutral) :
    (join k l r).evaluate a = r.evaluate a := by
  have openEnded : ¬ k.settledBy k.neutral = true := by
    rw [Connective.settledBy_iff]
    simp
  rw [evaluate_join, h]
  exact if_neg openEnded

/-- The grouping does not matter: a failure on the left passes the right side over, as a verdict that
settles the join does. -/
theorem Grouping.evaluate {g : Rule} {rules : List Rule} (h : Grouping k g rules) :
    g.evaluate a = inTurn k a rules := by
  induction h with
  | single r => exact (inTurn_single k a r).symm
  | @joined l r xs ys _ _ ihl ihr =>
    by_cases hl : l.evaluate a = .ok k.neutral
    · rw [evaluate_join_of_neutral hl, inTurn_append_of_neutral (ihl ▸ hl), ihr]
    · rw [evaluate_join_of_ne hl, inTurn_append_of_ne (ihl ▸ hl), ihl]

theorem Grouping.leaningLeft {g : Rule} {rules : List Rule} (h : Grouping k g rules) (rest : List Rule) :
    Grouping k (leaningLeft k g rest) (rules ++ rest) := by
  induction rest generalizing g rules with
  | nil =>
    rw [List.append_nil]
    exact h
  | cons r rest ih =>
    -- the first of the rest is joined at once, and the others to what that gives
    have := ih (h.joined (.single r))
    rwa [List.append_assoc] at this

theorem Grouping.leaningRight (rules : List Rule) (last : Rule) :
    Grouping k (rules.foldr (join k) last) (rules ++ [last]) := by
  induction rules with
  | nil => exact .single last
  | cons r rules ih =>
    have := (Grouping.single (k := k) r).joined ih
    exact this

/-- Groupings that are grouped again are a grouping of all their rules. -/
theorem Grouping.flatten {g : Rule} {gs : List Rule} (h : Grouping k g gs) :
    ∀ {parts : List (List Rule)}, List.Forall₂ (fun part x => Grouping k x part) parts gs →
      Grouping k g parts.flatten := by
  induction h with
  | single r =>
    rintro _ (_ | ⟨hr, ⟨⟩⟩)
    simpa using hr
  | @joined l r xs ys _ _ ihl ihr =>
    intro parts hp
    -- the parts of the left side come first
    have hl := ihl (List.forall₂_take_append _ _ _ hp)
    have hr := ihr (List.forall₂_drop_append _ _ _ hp)
    have split := hl.joined hr
    rwa [← List.flatten_append, List.take_append_drop] at split

/-! ## Rules of which none fails -/

/-- Where none of the rules fails, their outcome in turn is all or any of their verdicts. -/
theorem inTurn_eq_overall {rules : List Rule} {verdict : Rule → Bool}
    (h : ∀ r ∈ rules, r.evaluate a = .ok (verdict r)) : inTurn k a rules = .ok (k.overall verdict rules) := by
  induction rules with
  | nil => rw [inTurn_nil, Connective.overall_nil]
  | cons r rules ih =>
    obtain ⟨hr, hrules⟩ := List.forall_mem_cons.1 h
    rw [Connective.overall_cons]
    by_cases hv : verdict r = k.neutral
    · rw [inTurn_cons_of_neutral (hv ▸ hr), ih hrules, hv, Connective.apply_neutral]
    · have decided : r.evaluate a ≠ .ok k.neutral := by
        rw [hr]
        exact fun h => hv (Except.ok.inj h)
      rw [inTurn_cons_of_ne decided, hr, Connective.apply_of_ne hv]

end Rule

/-! ## Combinations -/

namespace Combiner

variable {c : Combiner}

theorem grouping_of_combineRules {rules : List Rule} {r : Rule} (h : c.combineRules rules = .ok r) :
    Rule.Grouping c.policy r (c.kept rules) := by
  obtain ⟨first, rest, hk, rfl, -⟩ := combineRules_eq_ok.1 h
  rw [hk]
  exact (Rule.Grouping.single first).leaningLeft rest

/-- The outcome of a combination is that of its rules in turn, and every grouping of the same rules in the
same order has it too, be it one that leans to the right or a combination of combinations. If no rule
fails, it is all or any of the verdicts, in any order and grouping. -/
theorem evaluate_combination (hd : c.dedup = false) {rules : List Rule} {r : Rule}
    (h : c.combineRules rules = .ok r) (a : Attributes) :
    r.evaluate a = Rule.inTurn c.policy a rules ∧
    (∀ g, Rule.Grouping c.policy g rules → g.evaluate a = r.evaluate a) ∧
    (∀ init last, rules = init ++ [last] → (init.foldr (.join c.policy) last).evaluate a = r.evaluate a) ∧
    (∀ parts built g, parts.flatten = rules →
      List.Forall₂ (fun part b => c.combineRules part = .ok b) parts built → c.combineRules built = .ok g →
      g.evaluate a = r.evaluate a) ∧
    ∀ verdict : Rule → Bool, (∀ x ∈ rules, x.evaluate a = .ok (verdict x)) →
      ∀ rules' g, rules'.Perm rules → Rule.Grouping c.policy g rules' →
        g.evaluate a = .ok (c.policy.overall verdict rules) := by
  have grouping := grouping_of_combineRules h
  rw [kept_of_not_dedup hd] at grouping
  have same : ∀ g, Rule.Grouping c.policy g rules → g.evaluate a = r.evaluate a := fun g hg =>
    hg.evaluate.trans grouping.evaluate.symm
  refine ⟨grouping.evaluate, same, ?_, ?_, ?_⟩
  · rintro init last rfl
    exact same _ (.leaningRight init last)
  · rintro parts built g rfl hparts hg
    have outer := grouping_of_combineRules hg
    rw [kept_of_not_dedup hd] at outer
    refine same g (outer.flatten (hparts.imp fun part b hb => ?_))
    have inner := grouping_of_combineRules hb
    rwa [kept_of_not_dedup hd] at inner
  · intro verdict hv rules' g hperm hg
    rw [hg.evaluate, Rule.inTurn_eq_overall fun x hx => hv x (hperm.mem_iff.1 hx), Connective.overall_perm hperm]

/-- An attribute that is missing comes before the rule that holds, in either grouping; once it is there, the
rules may stand in any order. -/
theorem evaluate_combination_missing_attribute :
    let hr : Rule := .test ⟨"dept", .equal, .text "HR"⟩
    let level : Rule := .test ⟨"level", .equal, .text "A"⟩
    let sales : Rule := .test ⟨"dept", .equal, .text "Sales"⟩
    let r : Rule := .join .or (.join .or hr level) sales
    let missing : Attributes := ⟨[("dept", .text "Sales")]⟩
    let present : Attributes := ⟨[("dept", .text "Sales"), ("level", .text "B")]⟩
    (⟨.or, false, 3⟩ : Combiner).combineRules [hr, level, sales] = .ok r ∧
      r.evaluate missing = .error (.missingAttribute "level") ∧
      (Rule.join .or hr (.join .or level sales)).evaluate missing = .error (.missingAttribute "level") ∧
      (Rule.join .or sales (.join .or level hr)).evaluate present = .ok true := by
  intro hr level sales r missing present
  have h : (⟨.or, false, 3⟩ : Combiner).combineRules [hr, level, sales] = .ok r := rfl
  obtain ⟨turn, -, right, -, -⟩ := evaluate_combination rfl h missing
  obtain ⟨-, -, -, -, anyOrder⟩ := evaluate_combination rfl h present
  have turned : r.evaluate missing = .error (.missingAttribute "level") := turn
  refine ⟨h, turned, (right [hr, level] sales rfl).trans turned, ?_⟩
  refine anyOrder (fun x => (x.evaluate present).toOption.getD false) ?_ [sales, level, hr] _ ?_ ?_
  · intro x hx
    simp only [List.mem_cons, List.not_mem_nil, or_false] at hx
    rcases hx with rfl | rfl | rfl <;> rfl
  · exact List.reverse_perm [hr, level, sales]
  · exact (Rule.Grouping.single sales).joined ((Rule.Grouping.single level).joined (.single hr))

end Combiner
end Eligibility
