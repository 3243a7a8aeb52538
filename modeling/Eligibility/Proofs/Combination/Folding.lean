/-
What a combination is: the rules that are kept of a list, joined to the left, whenever that is no deeper
than the limit. The combiner does not measure what it has built but carries a depth along, and it looks at
the limit after each join; as joins only make a rule deeper, the last look decides.
-/
import Eligibility.Combiner
import Eligibility.Proofs.Outcome

namespace Eligibility

namespace Rule

/-- Rules joined to a first one, each to all before it. -/
def leaningLeft (k : Connective) (first : Rule) (rest : List Rule) : Rule := rest.foldl (join k) first

variable {k : Connective}

@[simp] theorem leaningLeft_nil (k : Connective) (first : Rule) : leaningLeft k first [] = first := rfl

@[simp] theorem leaningLeft_cons (k : Connective) (first r : Rule) (rest : List Rule) :
    leaningLeft k first (r :: rest) = leaningLeft k (join k first r) rest := rfl

theorem depth_le_leaningLeft (k : Connective) (first : Rule) (rest : List Rule) :
    first.depth ≤ (leaningLeft k first rest).depth := by
  induction rest generalizing first with
  | nil => exact Nat.le_refl _
  | cons r rest ih =>
    have joined : first.depth ≤ (join k first r).depth := by simp only [depth]; omega
    exact Nat.le_trans joined (ih (join k first r))

end Rule

namespace Combiner

/-- The rules of a list that are joined. -/
def kept (c : Combiner) (rules : List Rule) : List Rule := if c.dedup then distinct rules else rules

variable {c : Combiner} {r : Rule}

theorem kept_of_not_dedup (h : c.dedup = false) (rules : List Rule) : c.kept rules = rules := by
  rw [kept, h]
  rfl

/-- One step: the depth that is carried along is that of the join, and the limit must admit it. -/
theorem joinAll_cons_eq_ok {built next : Rule} {rest : List Rule} :
    c.joinAll built built.depth (next :: rest) = .ok r ↔ (Rule.join c.policy built next).depth ≤ c.depthLimit ∧
      c.joinAll (.join c.policy built next) (Rule.join c.policy built next).depth rest = .ok r := by
  rw [joinAll, bind_eq_ok]
  change (∃ d, _ ∧ (if c.depthLimit < max built.depth d + 1 then _ else _) = _) ↔ _
  constructor
  · rintro ⟨d, hd, h⟩
    obtain ⟨rfl, -⟩ := Rule.checkDepth_eq_ok.1 hd
    split at h
    · cases h
    · rename_i within
      exact ⟨Nat.not_lt.1 within, h⟩
  · rintro ⟨within, h⟩
    have side : next.depth ≤ c.depthLimit := by simp only [Rule.depth] at within; omega
    exact ⟨next.depth, Rule.checkDepth_eq_ok.2 ⟨rfl, side⟩, (if_neg (Nat.not_lt.2 within)).trans h⟩

theorem joinAll_eq_ok {built : Rule} {rest : List Rule} (hb : built.depth ≤ c.depthLimit) :
    c.joinAll built built.depth rest = .ok r ↔
      Rule.leaningLeft c.policy built rest = r ∧ r.depth ≤ c.depthLimit := by
  induction rest generalizing built with
  | nil =>
    rw [joinAll, Rule.leaningLeft_nil]
    constructor
    · rintro ⟨⟩
      exact ⟨rfl, hb⟩
    · rintro ⟨rfl, -⟩
      rfl
  | cons next rest ih =>
    rw [joinAll_cons_eq_ok, Rule.leaningLeft_cons]
    constructor
    · rintro ⟨within, h⟩
      exact (ih within).1 h
    · rintro ⟨rfl, hr⟩
      -- the limit admits the last rule, so it admits the one built on the way
      have within := Nat.le_trans (Rule.depth_le_leaningLeft c.policy _ rest) hr
      exact ⟨within, (ih within).2 ⟨rfl, hr⟩⟩

/-- The carried depth is that of the rule, so a list is combined just if its rules joined to the left are
within the limit. -/
theorem combineRules_eq_ok {rules : List Rule} :
    c.combineRules rules = .ok r ↔ ∃ first rest, c.kept rules = first :: rest ∧
      Rule.leaningLeft c.policy first rest = r ∧ r.depth ≤ c.depthLimit := by
  have joined : (if c.dedup then distinct rules else rules) = c.kept rules := rfl
  rw [combineRules, joined]
  cases hk : c.kept rules with
  | nil => simp
  | cons first rest =>
    dsimp only
    rw [bind_eq_ok]
    constructor
    · rintro ⟨d, hd, h⟩
      obtain ⟨rfl, hf⟩ := Rule.checkDepth_eq_ok.1 hd
      obtain ⟨hr, within⟩ := (joinAll_eq_ok hf).1 h
      exact ⟨first, rest, rfl, hr, within⟩
    · rintro ⟨_, _, ⟨⟩, rfl, within⟩
      have hf := Nat.le_trans (Rule.depth_le_leaningLeft c.policy first rest) within
      exact ⟨first.depth, Rule.checkDepth_eq_ok.2 ⟨rfl, hf⟩, (joinAll_eq_ok hf).2 ⟨rfl, within⟩⟩

theorem combine_eq_ok {texts : List String} (h : c.combine texts = .ok r) :
    ∃ rules, texts.mapM (Rule.parse c.depthLimit) = .ok rules ∧ c.combineRules rules = .ok r := by
  unfold combine at h
  split at h
  · cases h
  · exact bind_eq_ok.1 h

theorem combineRules_nil (c : Combiner) : c.combineRules [] = .error (.badValue .nothingToCombine) := by
  cases hd : c.dedup <;> simp [combineRules, distinct, hd]

/-- The reason given for an empty list is the one given for no rules, so that only the rules that are found decide. -/
theorem combined_of_mapM {α : Type} {f : α → Except Fault Rule} {xs : List α} {rules : List Rule}
    (h : xs.mapM f = .ok rules) :
    (if xs.isEmpty then .error (.badValue .nothingToCombine) else do c.combineRules (← xs.mapM f)) =
      c.combineRules rules := by
  split
  · rename_i empty
    obtain rfl : xs = [] := List.isEmpty_iff.1 empty
    obtain rfl : [] = rules := Except.ok.inj h
    rw [combineRules_nil]
  · rw [h, ok_bind]

theorem combine_of_mapM {texts : List String} {rules : List Rule}
    (h : texts.mapM (Rule.parse c.depthLimit) = .ok rules) : c.combine texts = c.combineRules rules :=
  combined_of_mapM h

end Combiner
end Eligibility
