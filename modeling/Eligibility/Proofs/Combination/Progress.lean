/-
How far the combiner has come. After some of the rules it holds what it has built of them and a depth that it
carries along, and that depth is the one of what it has built, at every step: nothing is measured again. Main
statement: of the first occurrences in a list, or of all of it, the combiner gives just the rules joined to the
left where these are within the limit, and in every other case it refuses a value.
-/
import Eligibility.Proofs.Combination.Distinct
import Mathlib.Data.List.Induction

namespace Eligibility

namespace Combiner

open Rule

variable {c : Combiner} {r first built : Rule} {rest : List Rule} {d : Nat}

/-! ## First occurrences -/

/-- The rules of a list that equal none before them in it, in their order. -/
def firstOccurrences (rules : List Rule) : List Rule :=
  (rules.zipIdx.filter fun (r, i) => !(rules.take i).contains r).map Prod.fst

theorem firstOccurrences_append_singleton (rules : List Rule) (r : Rule) :
    firstOccurrences (rules ++ [r]) = firstOccurrences rules ++ if rules.contains r then [] else [r] := by
  have before : ∀ p ∈ rules.zipIdx, (!((rules ++ [r]).take p.2).contains p.1) = !(rules.take p.2).contains p.1 := by
    intro p hp
    have place := List.snd_lt_of_mem_zipIdx hp
    rw [List.take_append_of_le_length (by omega)]
  unfold firstOccurrences
  rw [List.zipIdx_append, List.filter_append, List.map_append, List.filter_congr before]
  cases h : rules.contains r <;> simp [h]

theorem distinct_append_singleton (rules : List Rule) (r : Rule) :
    distinct (rules ++ [r]) = keep (distinct rules) r := by
  rw [distinct_eq_foldl, List.foldl_append]
  rfl

/-- A rule has an equal among those that are kept just if it has one in the list: the rule that an equal one was
left out for equals it as well. -/
theorem contains_distinct (rules : List Rule) (r : Rule) : (distinct rules).contains r = rules.contains r := by
  induction rules using List.reverseRecOn with
  | nil => rfl
  | append_singleton rules x ih =>
    rw [distinct_append_singleton, List.contains_append, ← ih]
    -- the last rule was left out for an equal one that was kept, or was kept itself
    rcases keep_cases (distinct rules) x with ⟨hk, s, hs, hxs⟩ | ⟨hk, -⟩
    · rw [hk]
      cases hrx : r == x with
      | false => simp [hrx]
      | true =>
        have kept : (distinct rules).contains r = true :=
          List.contains_iff_exists_mem_beq.2 ⟨s, hs, beq_trans hrx hxs⟩
        rw [kept, Bool.true_or]
    · rw [hk, List.contains_append]

theorem distinct_eq_firstOccurrences (rules : List Rule) : distinct rules = firstOccurrences rules := by
  induction rules using List.reverseRecOn with
  | nil => rfl
  | append_singleton rules r ih =>
    rw [distinct_append_singleton, firstOccurrences_append_singleton, keep, contains_distinct, ih]
    split
    · rw [List.append_nil]
    · rfl

/-! ## The running depth -/

/-- One round of the combiner: a rule is joined to what has been built, and the depth that is carried along
grows with it. -/
def joinNext (c : Combiner) (held : Rule × Nat) (next : Rule) : Except Fault (Rule × Nat) := do
  let depth := max held.2 (← next.checkDepth c.depthLimit) + 1
  if c.depthLimit < depth then .error (.badValue (.combinationOverLimit c.depthLimit))
  else .ok (.join c.policy held.1 next, depth)

theorem joinAll_eq_foldlM (c : Combiner) (built : Rule) (d : Nat) (rest : List Rule) :
    c.joinAll built d rest = (rest.foldlM c.joinNext (built, d)).map Prod.fst := by
  induction rest generalizing built d with
  | nil => rfl
  | cons next rest ih =>
    rw [joinAll, List.foldlM_cons, joinNext]
    cases next.checkDepth c.depthLimit with
    | error e => rfl
    | ok e =>
      rw [ok_bind, ok_bind]
      dsimp only
      split
      · rfl
      · rw [ok_bind, ih]

/-- What the combiner holds after a first rule and some more: what it has built, and the depth that it carries
along. -/
def progress (c : Combiner) (first : Rule) (rest : List Rule) : Except Fault (Rule × Nat) := do
  rest.foldlM c.joinNext (first, ← first.checkDepth c.depthLimit)

theorem combineRules_eq_progress {rules : List Rule} (h : c.kept rules = first :: rest) :
    c.combineRules rules = (c.progress first rest).map Prod.fst := by
  have joined : (if c.dedup then distinct rules else rules) = first :: rest := h
  rw [combineRules, joined, progress]
  dsimp only
  cases first.checkDepth c.depthLimit with
  | error e => rfl
  | ok d => exact joinAll_eq_foldlM c first d rest

/-- A round keeps the carried depth that of what is built, and the limit must admit it. -/
theorem joinNext_eq_ok {next : Rule} : c.joinNext (built, built.depth) next = .ok (r, d) ↔
    .join c.policy built next = r ∧ r.depth = d ∧ d ≤ c.depthLimit := by
  rw [joinNext, bind_eq_ok]
  dsimp only
  constructor
  · rintro ⟨e, he, h⟩
    obtain ⟨rfl, -⟩ := checkDepth_eq_ok.1 he
    split at h
    · cases h
    · rename_i within
      cases h
      exact ⟨rfl, rfl, Nat.not_lt.1 within⟩
  · rintro ⟨rfl, rfl, within⟩
    -- no side is deeper than the join, so the check of the next rule passes too
    have side : next.depth ≤ c.depthLimit := by simp only [depth] at within; omega
    exact ⟨next.depth, checkDepth_eq_ok.2 ⟨rfl, side⟩, if_neg (Nat.not_lt.2 within)⟩

/-- At every step the combiner holds the rules so far, joined to the left, and their depth. -/
theorem progress_eq_ok : c.progress first rest = .ok (r, d) ↔
    leaningLeft c.policy first rest = r ∧ r.depth = d ∧ d ≤ c.depthLimit := by
  -- on the last rule, since a round goes on from what the rounds before it have built
  induction rest using List.reverseRecOn generalizing r d with
  | nil =>
    rw [progress, bind_eq_ok, leaningLeft_nil]
    constructor
    · rintro ⟨e, he, ⟨⟩⟩
      exact ⟨rfl, checkDepth_eq_ok.1 he⟩
    · rintro ⟨rfl, hd⟩
      exact ⟨d, checkDepth_eq_ok.2 hd, rfl⟩
  | append_singleton rest next ih =>
    have round : c.progress first (rest ++ [next]) = (c.progress first rest >>= (c.joinNext · next)) := by
      simp only [progress, List.foldlM_append, List.foldlM_cons, List.foldlM_nil, bind_assoc, bind_pure]
    have joined : leaningLeft c.policy first (rest ++ [next]) =
        .join c.policy (leaningLeft c.policy first rest) next := by
      rw [leaningLeft, List.foldl_append]
      rfl
    rw [round, bind_eq_ok, joined]
    constructor
    · rintro ⟨⟨built, d'⟩, held, h⟩
      obtain ⟨rfl, rfl, -⟩ := ih.1 held
      exact joinNext_eq_ok.1 h
    · rintro ⟨rfl, rfl, within⟩
      have before : (leaningLeft c.policy first rest).depth ≤ c.depthLimit := by
        simp only [depth] at within; omega
      exact ⟨_, ih.2 ⟨rfl, rfl, before⟩, joinNext_eq_ok.2 ⟨rfl, rfl, within⟩⟩

/-! ## Refusals -/

theorem checkDepth_refused {limit : Nat} {e : Fault} (h : r.checkDepth limit = .error e) :
    ∃ fault, e = .badValue fault := by
  unfold checkDepth at h
  split at h
  · cases h
    exact ⟨_, rfl⟩
  · cases h

theorem joinNext_refused {held : Rule × Nat} {next : Rule} {e : Fault} (h : c.joinNext held next = .error e) :
    ∃ fault, e = .badValue fault := by
  rcases bind_eq_error.1 h with h | ⟨_, -, h⟩
  · exact checkDepth_refused h
  · dsimp only at h
    split at h
    · cases h
      exact ⟨_, rfl⟩
    · cases h

theorem foldlM_joinNext_refused {held : Rule × Nat} {e : Fault} (h : rest.foldlM c.joinNext held = .error e) :
    ∃ fault, e = .badValue fault := by
  induction rest generalizing held with
  | nil => cases h
  | cons next rest ih =>
    rw [List.foldlM_cons] at h
    rcases bind_eq_error.1 h with h | ⟨held', -, h⟩
    · exact joinNext_refused h
    · exact ih h

theorem combineRules_refused {rules : List Rule} {e : Fault} (h : c.combineRules rules = .error e) :
    ∃ fault, e = .badValue fault := by
  cases hk : c.kept rules with
  | nil =>
    have joined : (if c.dedup then distinct rules else rules) = [] := hk
    rw [combineRules, joined] at h
    cases h
    exact ⟨_, rfl⟩
  | cons first rest =>
    rw [combineRules_eq_progress hk, map_eq_error] at h
    rcases bind_eq_error.1 h with h | ⟨d, -, h⟩
    · exact checkDepth_refused h
    · exact foldlM_joinNext_refused h

/-! ## The combination -/

/-- The rules of a list, or the first occurrences in it, are combined to these joined to the left if there are any
and the result is within the limit, and otherwise a value is refused. The depth that is carried along is at every
step the one of what has been built, so that the limit is held against the rule itself. -/
theorem combineRules_exactly_within_limit (c : Combiner) (rules : List Rule) :
    let kept := if c.dedup then firstOccurrences rules else rules
    (∀ r, c.combineRules rules = .ok r ↔ ∃ first rest, kept = first :: rest ∧
      leaningLeft c.policy first rest = r ∧ r.depth ≤ c.depthLimit) ∧
    ((∃ r, c.combineRules rules = .ok r) ∨ ∃ fault, c.combineRules rules = .error (.badValue fault)) ∧
    ∀ first rest, kept = first :: rest →
      c.combineRules rules = (c.progress first rest).map Prod.fst ∧
      ∀ before, before <+: rest → ∀ built d, c.progress first before = .ok (built, d) ↔
        built = leaningLeft c.policy first before ∧ d = built.depth ∧ d ≤ c.depthLimit := by
  intro kept
  have hkept : c.kept rules = kept := by
    rw [Combiner.kept, distinct_eq_firstOccurrences]
  refine ⟨fun r => ?_, ?_, fun first rest h => ⟨combineRules_eq_progress (hkept.trans h), ?_⟩⟩
  · rw [combineRules_eq_ok, hkept]
  · cases h : c.combineRules rules with
    | ok r => exact .inl ⟨r, rfl⟩
    | error e =>
      obtain ⟨fault, rfl⟩ := combineRules_refused h
      exact .inr ⟨fault, rfl⟩
  · intro before _ built d
    rw [progress_eq_ok, eq_comm, eq_comm (a := built.depth)]

/-- A later zero of the other sign is the same rule, so three rules make a combination of two levels; a limit of one
does not admit it. -/
theorem combineRules_exactly_within_limit_zeros :
    let above : Rule := .test ⟨"a", .greater, .number (.zero false)⟩
    let tagged : Rule := .test ⟨"b", .equal, .text "x"⟩
    let again : Rule := .test ⟨"a", .greater, .number (.zero true)⟩
    let c : Combiner := ⟨.and, true, 2⟩
    firstOccurrences [above, tagged, again] = [above, tagged] ∧
    c.combineRules [above, tagged, again] = .ok (.join .and above tagged) ∧
    c.progress above [tagged] = .ok (.join .and above tagged, 2) ∧
    ∃ fault, (⟨.and, true, 1⟩ : Combiner).combineRules [above, tagged, again] = .error (.badValue fault) := by
  intro above tagged again c
  have kept : firstOccurrences [above, tagged, again] = [above, tagged] := rfl
  obtain ⟨result, -, steps⟩ := combineRules_exactly_within_limit c [above, tagged, again]
  obtain ⟨-, held⟩ := steps above [tagged] kept
  obtain ⟨narrow, otherwise, -⟩ := combineRules_exactly_within_limit ⟨.and, true, 1⟩ [above, tagged, again]
  refine ⟨kept, (result _).2 ⟨above, [tagged], kept, rfl, by decide⟩, ?_, ?_⟩
  · exact (held [tagged] (List.prefix_refl _) _ 2).2 ⟨rfl, rfl, by decide⟩
  · refine otherwise.resolve_left ?_
    rintro ⟨r, h⟩
    obtain ⟨first, rest, split, rfl, within⟩ := (narrow r).1 h
    obtain ⟨rfl, rfl⟩ := List.cons.inj (kept.symm.trans split)
    exact absurd within (by decide)

end Combiner
end Eligibility
