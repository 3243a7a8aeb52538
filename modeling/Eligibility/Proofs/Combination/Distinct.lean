/-
Leaving out repeated rules. What is kept of a list is a part of it in the same order, no two rules of it are
equal, and every rule of the list has an equal one there. The combination of what is kept evaluates as that
of the whole list, failures included: when a repeated rule would have its turn, the rule that it equals has
had a verdict, and one that did not decide. It is no deeper and no larger either, so the limit does not
come in its way.
-/
import Eligibility.Proofs.Combination.Meaning
import Eligibility.Proofs.Rule.Equality

namespace Eligibility

namespace Rule

variable {k : Connective}

/-! ## Fewer rules joined -/

/-- A measure that joins keep in order and do not lower is no larger for fewer rules joined. -/
theorem leaningLeft_le_of_sublist {f : Rule → Nat} (mono : ∀ l l' r, f l ≤ f l' → f (join k l r) ≤ f (join k l' r))
    (grow : ∀ l r, f l ≤ f (join k l r)) {xs ys : List Rule} (h : xs.Sublist ys) {x y : Rule} (hf : f x ≤ f y) :
    f (leaningLeft k x xs) ≤ f (leaningLeft k y ys) := by
  induction h generalizing x y with
  | slnil => exact hf
  | cons r _ ih => exact ih (Nat.le_trans hf (grow y r))
  | cons_cons r _ ih => exact ih (mono x y r hf)

theorem depth_leaningLeft_le {xs ys : List Rule} (h : xs.Sublist ys) (first : Rule) :
    (leaningLeft k first xs).depth ≤ (leaningLeft k first ys).depth := by
  refine leaningLeft_le_of_sublist (fun l l' r hl => ?_) (fun l r => ?_) h (Nat.le_refl _)
  · simp only [depth]; omega
  · simp only [depth]; omega

theorem size_leaningLeft_le {xs ys : List Rule} (h : xs.Sublist ys) (first : Rule) :
    (leaningLeft k first xs).size ≤ (leaningLeft k first ys).size := by
  refine leaningLeft_le_of_sublist (fun l l' r hl => ?_) (fun l r => ?_) h (Nat.le_refl _)
  · simp only [size]; omega
  · simp only [size]; omega

/-! ## Repeated rules in turn -/

/-- A rule that equals an earlier one does not change the outcome: by its turn no earlier rule has decided,
so the earlier one was neutral and it is neutral too. -/
theorem inTurn_append_repeated {a : Attributes} {xs : List Rule} {r s : Rule} (hs : s ∈ xs) (h : (r == s) = true)
    (ys : List Rule) : inTurn k a (xs ++ r :: ys) = inTurn k a (xs ++ ys) := by
  by_cases hx : inTurn k a xs = .ok k.neutral
  · have neutral : r.evaluate a = .ok k.neutral :=
      evaluate_eq_ok_of_beq (beq_symm h) (inTurn_eq_neutral.1 hx s hs)
    rw [inTurn_append_of_neutral hx, inTurn_append_of_neutral hx, inTurn_cons_of_neutral neutral]
  · rw [inTurn_append_of_ne hx, inTurn_append_of_ne hx]

end Rule

namespace Combiner

open Rule

/-! ## What is kept -/

/-- One more rule of the list: it is kept unless it equals one kept before. -/
def keep (kept : List Rule) (r : Rule) : List Rule := if kept.contains r then kept else kept ++ [r]

theorem distinct_eq_foldl (rules : List Rule) : distinct rules = rules.foldl keep [] := rfl

theorem keep_cases (kept : List Rule) (r : Rule) :
    (keep kept r = kept ∧ ∃ s ∈ kept, (r == s) = true) ∨
    (keep kept r = kept ++ [r] ∧ ∀ s ∈ kept, (r == s) = false) := by
  unfold keep
  by_cases h : kept.contains r = true
  · exact .inl ⟨if_pos h, by simpa [List.contains_iff_exists_mem_beq] using h⟩
  · refine .inr ⟨if_neg h, fun s hs => ?_⟩
    rw [← Bool.not_eq_true]
    intro hrs
    exact h (List.contains_iff_exists_mem_beq.2 ⟨s, hs, hrs⟩)

/-- Nothing that is kept is left out later, and what comes after it is a part of the rest. -/
theorem foldl_keep_eq_append (rules kept : List Rule) :
    ∃ more, rules.foldl keep kept = kept ++ more ∧ more.Sublist rules := by
  induction rules generalizing kept with
  | nil => exact ⟨[], (List.append_nil _).symm, .slnil⟩
  | cons r rules ih =>
    rw [List.foldl_cons]
    rcases keep_cases kept r with ⟨hk, -⟩ | ⟨hk, -⟩
    · obtain ⟨more, heq, hsub⟩ := ih kept
      exact ⟨more, by rw [hk, heq], hsub.cons r⟩
    · obtain ⟨more, heq, hsub⟩ := ih (kept ++ [r])
      refine ⟨r :: more, ?_, hsub.cons_cons r⟩
      rw [hk, heq, List.append_assoc]
      rfl

theorem distinct_cons (first : Rule) (rest : List Rule) :
    ∃ more, distinct (first :: rest) = first :: more ∧ more.Sublist rest := by
  obtain ⟨more, heq, hsub⟩ := foldl_keep_eq_append rest [first]
  exact ⟨more, heq, hsub⟩

theorem distinct_sublist (rules : List Rule) : (distinct rules).Sublist rules := by
  obtain ⟨more, heq, hsub⟩ := foldl_keep_eq_append rules []
  rw [distinct_eq_foldl, heq]
  exact hsub

theorem head?_distinct (rules : List Rule) : (distinct rules).head? = rules.head? := by
  cases rules with
  | nil => rfl
  | cons first rest =>
    obtain ⟨more, heq, -⟩ := distinct_cons first rest
    rw [heq]
    rfl

/-- No two of the rules are equal. -/
def Unequal (rules : List Rule) : Prop := rules.Pairwise fun r s => (r == s) = false

theorem unequal_keep {kept : List Rule} (h : Unequal kept) (r : Rule) : Unequal (keep kept r) := by
  rcases keep_cases kept r with ⟨hk, -⟩ | ⟨hk, hr⟩
  · rwa [hk]
  · rw [hk]
    refine List.pairwise_append.2 ⟨h, List.pairwise_singleton _ _, fun s hs t ht => ?_⟩
    obtain rfl := List.mem_singleton.1 ht
    exact beq_eq_false_comm.1 (hr s hs)

theorem unequal_distinct (rules : List Rule) : Unequal (distinct rules) := by
  -- over any rules kept before, as the rest of the list is looked at with those
  have run : ∀ kept, Unequal kept → Unequal (rules.foldl keep kept) := by
    induction rules with
    | nil => exact fun _ h => h
    | cons r rules ih => exact fun kept h => ih (keep kept r) (unequal_keep h r)
  exact run [] .nil

theorem mem_foldl_keep {kept : List Rule} {s : Rule} (h : s ∈ kept) (rules : List Rule) :
    s ∈ rules.foldl keep kept := by
  obtain ⟨more, heq, -⟩ := foldl_keep_eq_append rules kept
  rw [heq]
  exact List.mem_append_left _ h

theorem exists_mem_distinct {rules : List Rule} {r : Rule} (hr : r ∈ rules) (hn : r.NanFree) :
    ∃ s ∈ distinct rules, (r == s) = true := by
  obtain ⟨before, after, rfl⟩ := List.append_of_mem hr
  rw [distinct_eq_foldl, List.foldl_append, List.foldl_cons]
  rcases keep_cases (before.foldl keep []) r with ⟨hk, s, hs, hrs⟩ | ⟨hk, -⟩
  · rw [hk]
    exact ⟨s, mem_foldl_keep hs after, hrs⟩
  · rw [hk]
    exact ⟨r, mem_foldl_keep (List.mem_append_right _ (List.mem_singleton_self r)) after, beq_self hn⟩

/-! ## The combination of what is kept -/

theorem inTurn_distinct (k : Connective) (a : Attributes) (rules : List Rule) :
    inTurn k a (distinct rules) = inTurn k a rules := by
  have run : ∀ kept, inTurn k a (rules.foldl keep kept) = inTurn k a (kept ++ rules) := by
    induction rules with
    | nil => intro kept; rw [List.append_nil]; rfl
    | cons r rules ih =>
      intro kept
      rw [List.foldl_cons, ih]
      rcases keep_cases kept r with ⟨hk, s, hs, hrs⟩ | ⟨hk, -⟩
      · rw [hk, inTurn_append_repeated hs hrs]
      · rw [hk, List.append_assoc]
        rfl
  exact run []

theorem joinAll_dedup (k : Connective) (limit : Nat) (d d' : Bool) (rest : List Rule) (built : Rule) (depth : Nat) :
    (⟨k, d, limit⟩ : Combiner).joinAll built depth rest = (⟨k, d', limit⟩ : Combiner).joinAll built depth rest := by
  induction rest generalizing built depth with
  | nil => rfl
  | cons r rest ih => simp only [joinAll, ih]

theorem combineRules_dedup_eq (k : Connective) (limit : Nat) (rules : List Rule) :
    (⟨k, true, limit⟩ : Combiner).combineRules rules =
      (⟨k, false, limit⟩ : Combiner).combineRules (distinct rules) := by
  unfold combineRules
  rw [if_pos rfl, if_neg Bool.false_ne_true]
  cases distinct rules with
  | nil => rfl
  | cons first rest => simp only [joinAll_dedup k limit true false]

/-- Leaving out repeated rules changes no result. Whenever a list is combined, it is also combined without
its repeated rules, to a rule that is no larger and has the same outcome on all attributes. What is kept is
a part of the list in the same order with the same first rule, no two of it are equal, and it has an equal
of every rule of the list. -/
theorem combineRules_dedup (k : Connective) (limit : Nat) (rules : List Rule) :
    (∀ r, (⟨k, false, limit⟩ : Combiner).combineRules rules = .ok r →
      ∃ q, (⟨k, true, limit⟩ : Combiner).combineRules rules = .ok q ∧ q.size ≤ r.size ∧
        ∀ a, q.evaluate a = r.evaluate a) ∧
    (⟨k, true, limit⟩ : Combiner).combineRules rules = (⟨k, false, limit⟩ : Combiner).combineRules (distinct rules) ∧
    (distinct rules).Sublist rules ∧ (distinct rules).head? = rules.head? ∧
    (distinct rules).Pairwise (fun r s => (r == s) = false) ∧
    ((∀ r ∈ rules, r.NanFree) → ∀ r ∈ rules, ∃ s ∈ distinct rules, (r == s) = true) := by
  refine ⟨?_, combineRules_dedup_eq k limit rules, distinct_sublist rules, head?_distinct rules, unequal_distinct rules,
    fun hn r hr => exists_mem_distinct hr (hn r hr)⟩
  intro r h
  obtain ⟨first, rest, rfl, rfl, within⟩ := combineRules_eq_ok.1 h
  obtain ⟨more, heq, hsub⟩ := distinct_cons first rest
  have hq : (⟨k, true, limit⟩ : Combiner).combineRules (first :: rest) = .ok (leaningLeft k first more) :=
    combineRules_eq_ok.2 ⟨first, more, heq, rfl, Nat.le_trans (depth_leaningLeft_le hsub first) within⟩
  refine ⟨_, hq, size_leaningLeft_le hsub first, fun a => ?_⟩
  have hdistinct := (grouping_of_combineRules hq).evaluate (a := a)
  rw [(grouping_of_combineRules h).evaluate]
  exact hdistinct.trans (inTurn_distinct k a _)

/-- The two zeros make one rule, and the later of the two is left out. -/
theorem combineRules_dedup_zeros :
    let above : Rule := .test ⟨"a", .greater, .number (.zero false)⟩
    let tagged : Rule := .test ⟨"b", .equal, .text "x"⟩
    let again : Rule := .test ⟨"a", .greater, .number (.zero true)⟩
    let r : Rule := .join .and (.join .and above tagged) again
    let q : Rule := .join .and above tagged
    (⟨.and, false, 3⟩ : Combiner).combineRules [above, tagged, again] = .ok r ∧
      (⟨.and, true, 3⟩ : Combiner).combineRules [above, tagged, again] = .ok q ∧ q.size ≤ r.size ∧
      (∀ a, q.evaluate a = r.evaluate a) ∧ ∃ s ∈ distinct [above, tagged, again], (again == s) = true := by
  intro above tagged again r q
  obtain ⟨result, -, -, -, -, covered⟩ := combineRules_dedup .and 3 [above, tagged, again]
  obtain ⟨q', hq', size, outcome⟩ := result r rfl
  have hq : (⟨.and, true, 3⟩ : Combiner).combineRules [above, tagged, again] = .ok q := rfl
  obtain rfl : q' = q := Except.ok.inj (hq'.symm.trans hq)
  refine ⟨rfl, hq, size, outcome, covered ?_ again (by simp)⟩
  intro x hx c hc
  simp only [List.mem_cons, List.not_mem_nil, or_false] at hx
  rcases hx with rfl | rfl | rfl <;>
    · obtain rfl := List.mem_singleton.1 hc
      rintro ⟨⟩

end Combiner
end Eligibility
