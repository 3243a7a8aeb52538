/-
What a trace tells. The places of a rule stand in a row from left to right, a join between its sides, and a trace is
what is noted of them in this order: at a comparison that is reached its verdict, at a join that is reached the verdict
of its left side, if that settles the join, and at all other places nothing. Tracing changes no verdict and no failure,
and the text of each path in a trace leads back to the part of the rule that the line is about.
-/
import Eligibility.Proofs.Evaluation.ShortCircuit
import Eligibility.Proofs.Rule.Path

namespace Eligibility

/-! ## Events -/

namespace Event

/-- The place that an event is about. -/
def path : Event → Path
  | tested p _ _ => p
  | settled p _ _ => p

/-- The event in a rule that has its own at the end of a path. -/
def under (q : Path) : Event → Event
  | tested p c matched => tested (q ++ p) c matched
  | settled p k left => settled (q ++ p) k left

/-- What an event says of a part of a rule: it is this comparison with this verdict, or a join under this connective
that the verdict of its left side settles. -/
def SaysOf (a : Attributes) : Event → Rule → Prop
  | tested _ c matched, part => part = .test c ∧ c.evaluate a = .ok matched
  | settled _ k verdict, part =>
    ∃ left right, part = .join k left right ∧ left.evaluate a = .ok verdict ∧ k.settledBy verdict = true

theorem under_nil (e : Event) : e.under [] = e := by cases e <;> rfl

theorem under_under (q q' : Path) (e : Event) : (e.under q').under q = e.under (q ++ q') := by
  cases e <;> simp [under]

/-! ### Lines -/

theorem render_tested (p : Path) (c : Comparison) (matched : Bool) : (tested p c matched).render =
    p.render ++ ": " ++ c.render ++ " => " ++ if matched then "MATCHED" else "NOT_MATCHED" := rfl

theorem render_settled (p : Path) (k : Connective) (left : Bool) : (settled p k left).render =
    p.render ++ ": " ++ k.keyword ++ " 短路 - 左子树为 " ++ if left then "true" else "false" := by
  cases left <;> rfl

theorem matched?_tested (p : Path) (c : Comparison) (matched : Bool) :
    (tested p c matched).matched? = if matched then some (p.render ++ ": " ++ c.render) else none := by
  cases matched <;> rfl

end Event

namespace Rule

variable {a : Attributes} {k : Connective} {l r : Rule} {p : Path}

/-! ## Places -/

/-- The places of a rule from left to right, a join between its sides. -/
def places : Rule → List Path
  | test _ => [[]]
  | join _ l r => l.places.map (.left :: ·) ++ [] :: r.places.map (.right :: ·)

theorem mem_places {r : Rule} {p : Path} : p ∈ r.places ↔ ∃ part, r.at? p = some part := by
  induction r generalizing p with
  | test c => cases p <;> simp [places, at?]
  | join k l r ihl ihr =>
    cases p with
    | nil => simp [places, at?]
    | cons b p =>
      cases b with
      | left => simp [places, at?, ihl]
      | right => simp [places, at?, ihr]

/-- No place stands in the row twice. -/
theorem nodup_places (r : Rule) : r.places.Nodup := by
  induction r with
  | test c => simp [places]
  | join k l r ihl ihr =>
    simp only [places, List.nodup_append, List.nodup_cons, List.mem_map, List.mem_cons]
    refine ⟨List.pairwise_map.2 (ihl.imp fun h => by simpa using h), ⟨by simp, ?_⟩, ?_⟩
    · exact List.pairwise_map.2 (ihr.imp fun h => by simpa using h)
    · rintro _ ⟨p, -, rfl⟩ _ (rfl | ⟨q, -, rfl⟩) <;> simp

/-! ## What is noted -/

instance (x : Except EvaluationFault Bool) (b : Bool) : Decidable (x = .ok b) :=
  match x with
  | .ok c => decidable_of_iff (c = b) (by simp)
  | .error _ => isFalse nofun

theorem reached_test (c : Comparison) (p : Path) : Reached a (test c) p := by
  intro q s k left right _ hq
  cases q <;> simp [at?] at hq

instance decidableReached (a : Attributes) : (r : Rule) → (p : Path) → Decidable (Reached a r p)
  | r, [] => isTrue (reached_nil a r)
  | test c, _ :: _ => isTrue (reached_test c _)
  | join _ l _, .left :: p => have := decidableReached a l p; decidable_of_iff _ reached_left.symm
  | join _ _ r, .right :: p => have := decidableReached a r p; decidable_of_iff _ reached_right.symm

/-- What there is to note of a part of a rule: the verdict of a comparison, and the verdict of the left side of a join,
if it settles the join. -/
def noteOf (a : Attributes) (p : Path) : Rule → Option Event
  | test c => (c.evaluate a).toOption.map (.tested p c)
  | join k left _ => ((left.evaluate a).toOption.filter k.settledBy).map (.settled p k)

/-- What is noted of a place: nothing, unless it is reached. -/
def noteAt (a : Attributes) (r : Rule) (p : Path) : Option Event :=
  if Reached a r p then (r.at? p).bind (noteOf a p) else none

/-- What is noted of the places of a rule, in their order. -/
def notes (a : Attributes) (r : Rule) : List Event := r.places.filterMap (r.noteAt a)

theorem noteOf_append (a : Attributes) (q p : Path) (part : Rule) :
    noteOf a (q ++ p) part = (noteOf a p part).map (Event.under q) := by
  cases part <;> simp [noteOf, Function.comp_def, Event.under]

/-- What is noted of a part is what an event says of it, and at most one event says anything. -/
theorem noteOf_eq_some {part : Rule} {e : Event} : noteOf a p part = some e ↔ e.path = p ∧ e.SaysOf a part := by
  cases part with
  | test c =>
    rw [noteOf, toOption_map_eq_some]
    constructor
    · rintro ⟨matched, hm, rfl⟩
      exact ⟨rfl, rfl, hm⟩
    · rintro ⟨rfl, holds⟩
      cases e with
      | tested q d matched =>
        obtain ⟨⟨⟩, hm⟩ := holds
        exact ⟨matched, hm, rfl⟩
      | settled q k left =>
        obtain ⟨_, _, ⟨⟩, _⟩ := holds
  | join k left right =>
    simp only [noteOf, Option.map_eq_some_iff, Option.filter_eq_some_iff, toOption_eq_some]
    constructor
    · rintro ⟨verdict, ⟨hl, settles⟩, rfl⟩
      exact ⟨rfl, left, right, rfl, hl, settles⟩
    · rintro ⟨rfl, holds⟩
      cases e with
      | tested q c matched =>
        obtain ⟨⟨⟩, _⟩ := holds
      | settled q k' verdict =>
        obtain ⟨_, _, ⟨⟩, hl, settles⟩ := holds
        exact ⟨verdict, ⟨hl, settles⟩, rfl⟩

theorem noteAt_left : (join k l r).noteAt a (.left :: p) = (l.noteAt a p).map (Event.under [.left]) := by
  have inside : noteOf a (.left :: p) = fun part => (noteOf a p part).map (Event.under [.left]) :=
    funext (noteOf_append a [.left] p)
  simp only [noteAt, reached_left, at?, inside]
  split
  · rw [Option.map_bind]
    rfl
  · rfl

/-- A place on the right is noted as in the right side, if the left side leaves the join open. -/
theorem noteAt_right : (join k l r).noteAt a (.right :: p) =
    if l.evaluate a = .ok k.neutral then (r.noteAt a p).map (Event.under [.right]) else none := by
  have inside : noteOf a (.right :: p) = fun part => (noteOf a p part).map (Event.under [.right]) :=
    funext (noteOf_append a [.right] p)
  simp only [noteAt, reached_right, at?, inside]
  by_cases hl : l.evaluate a = .ok k.neutral
  · simp only [hl, true_and, if_true]
    split
    · rw [Option.map_bind]
      rfl
    · rfl
  · simp [hl]

theorem noteAt_root (a : Attributes) (r : Rule) : r.noteAt a [] = noteOf a [] r := by
  rw [noteAt, if_pos (reached_nil a r)]
  cases r <;> rfl

theorem notes_test (c : Comparison) : (test c).notes a = ((c.evaluate a).toOption.map (.tested [] c)).toList := by
  rw [notes, places, List.filterMap_cons, noteAt_root, noteOf]
  cases (c.evaluate a).toOption <;> rfl

theorem notes_join (a : Attributes) (k : Connective) (l r : Rule) : (join k l r).notes a =
    (l.notes a).map (Event.under [.left]) ++
      (((join k l r).noteAt a []).toList ++ r.places.filterMap fun p => (join k l r).noteAt a (.right :: p)) := by
  rw [notes, places, List.filterMap_append, List.filterMap_map, List.filterMap_cons, List.filterMap_map, notes,
    List.map_filterMap]
  congr 1
  · exact congrArg (List.filterMap · l.places) (funext fun p => noteAt_left)
  · cases (join k l r).noteAt a [] <;> rfl

theorem notes_join_of_settled {b : Bool} (hl : l.evaluate a = .ok b) (hb : k.settledBy b = true) :
    (join k l r).notes a = (l.notes a).map (Event.under [.left]) ++ [.settled [] k b] := by
  have closed : l.evaluate a ≠ .ok k.neutral := by
    rw [hl]
    exact fun h => Connective.settledBy_iff.1 hb (Except.ok.inj h)
  -- the right side is not reached, and so nothing is noted of it
  have silent : (r.places.filterMap fun p => (join k l r).noteAt a (.right :: p)) = [] :=
    List.filterMap_eq_nil_iff.2 fun p _ => by rw [noteAt_right, if_neg closed]
  have root : (join k l r).noteAt a [] = some (.settled [] k b) := by
    rw [noteAt_root, noteOf, hl]
    simp [Except.toOption, Option.filter, hb]
  rw [notes_join, silent, root]
  rfl

/-- A join that its left side leaves open has no note of its own. -/
theorem notes_join_of_open (hl : l.evaluate a = .ok k.neutral) :
    (join k l r).notes a = (l.notes a).map (Event.under [.left]) ++ (r.notes a).map (Event.under [.right]) := by
  -- only a left side that settles the join is noted at the join
  have root : (join k l r).noteAt a [] = none := by
    rw [noteAt_root, noteOf, hl]
    cases k <;> rfl
  have right : (r.places.filterMap fun p => (join k l r).noteAt a (.right :: p)) =
      (r.notes a).map (Event.under [.right]) := by
    rw [notes, List.map_filterMap]
    exact congrArg (List.filterMap · r.places) (funext fun p => by rw [noteAt_right, if_pos hl])
  rw [notes_join, root, right]
  rfl

theorem noteAt_eq_some {e : Event} : r.noteAt a p = some e ↔
    e.path = p ∧ Reached a r p ∧ ∃ part, r.at? p = some part ∧ e.SaysOf a part := by
  rw [noteAt]
  split
  · rename_i reached
    simp only [Option.bind_eq_some_iff, noteOf_eq_some, reached, true_and]
    exact ⟨fun ⟨part, hp, path, holds⟩ => ⟨path, part, hp, holds⟩,
      fun ⟨path, part, hp, holds⟩ => ⟨part, hp, path, holds⟩⟩
  · rename_i passed
    simp [passed]

/-- What is noted is what holds of the places that are reached. -/
theorem mem_notes {e : Event} : e ∈ r.notes a ↔
    Reached a r e.path ∧ ∃ part, r.at? e.path = some part ∧ e.SaysOf a part := by
  rw [notes, List.mem_filterMap]
  constructor
  · rintro ⟨p, -, h⟩
    obtain ⟨rfl, h⟩ := noteAt_eq_some.1 h
    exact h
  · rintro ⟨reached, part, hp, holds⟩
    exact ⟨e.path, mem_places.2 ⟨part, hp⟩, noteAt_eq_some.2 ⟨rfl, reached, part, hp, holds⟩⟩

/-- What is noted stands in the order of the places, and of each place there is one note at most. -/
theorem notes_sublist (a : Attributes) (r : Rule) : ((r.notes a).map Event.path).Sublist r.places := by
  rw [notes]
  -- the order of the places is all that counts
  generalize r.places = ps
  induction ps with
  | nil => exact .slnil
  | cons p ps ih =>
    rw [List.filterMap_cons]
    cases h : r.noteAt a p with
    | none => exact ih.cons p
    | some e =>
      obtain ⟨rfl, -⟩ := noteAt_eq_some.1 h
      exact ih.cons_cons e.path

/-! ## Traces -/

theorem trace_join (a : Attributes) (path : Path) (k : Connective) (l r : Rule) : (join k l r).trace a path =
    l.trace a (path ++ [.left]) >>= fun left =>
      if k.settledBy left.1 then .ok (left.1, left.2 ++ [.settled path k left.1])
      else (r.trace a (path ++ [.right])).map fun right => (right.1, left.2 ++ right.2) := by
  rw [trace]
  rfl

/-- A trace adds to the outcome what is noted of the rule, and nothing else. -/
theorem trace_eq (a : Attributes) (path : Path) (r : Rule) :
    r.trace a path = (r.evaluate a).map fun b => (b, (r.notes a).map (Event.under path)) := by
  induction r generalizing path with
  | test c =>
    rw [trace, evaluate, notes_test]
    cases c.evaluate a with
    | error e => rfl
    | ok matched => simp [Except.map, Except.toOption, Event.under, pure, Except.pure, bind, Except.bind]
  | join k l r ihl ihr =>
    rw [trace_join, ihl, ihr, evaluate_join]
    cases hl : l.evaluate a with
    | error e => rfl
    | ok left =>
      simp only [Except.map, ok_bind]
      by_cases hs : k.settledBy left = true
      · have root : (Event.settled [] k left).under path = .settled path k left := by simp [Event.under]
        rw [if_pos hs, if_pos hs, notes_join_of_settled hl hs]
        simp [Event.under_under, Function.comp_def, root]
      · rw [if_neg hs, if_neg hs]
        have neutral : left = k.neutral := by rwa [Connective.settledBy_iff, Decidable.not_not] at hs
        cases r.evaluate a with
        | error e => rfl
        | ok right =>
          rw [notes_join_of_open (neutral ▸ hl)]
          simp [Event.under_under, Function.comp_def]

theorem explain_untraced (a : Attributes) (r : Rule) :
    r.explain false a = ((r.evaluate a).map (⟨·, [], []⟩)).mapError .evaluation := by
  rw [explain]
  cases r.evaluate a <;> rfl

/-- A trace is the lines of the notes, and the conditions are those of the notes that matched. -/
theorem explain_traced (a : Attributes) (r : Rule) : r.explain true a =
    ((r.evaluate a).map (⟨·, (r.notes a).filterMap Event.matched?, (r.notes a).map Event.render⟩)).mapError
      .evaluation := by
  have whole : (r.notes a).map (Event.under []) = r.notes a := List.map_id'' Event.under_nil _
  rw [explain, trace_eq, whole]
  cases r.evaluate a <;> rfl

/-- A comparison that is reached has a verdict, unless the evaluation fails. -/
theorem verdict_of_reached {b : Bool} (h : r.evaluate a = .ok b) {c : Comparison} (hp : r.at? p = some (.test c))
    (reached : Reached a r p) : ∃ matched, c.evaluate a = .ok matched := by
  cases hc : c.evaluate a with
  | ok matched => exact ⟨matched, rfl⟩
  | error e =>
    have failure := evaluate_eq_error_iff.2 ⟨p, ⟨c, hp, hc⟩, reached⟩
    rw [h] at failure
    cases failure

/-- Tracing is faithful and changes nothing. With and without a trace, and where only the verdict is asked for, the
outcome is the same verdict or the same failure, and without a trace both logs are empty. A trace has a line for each
note of the rule in the order of its places: the path, the comparison and whether it matched, or the path, the
connective and the verdict of the left side. The conditions that matched are those of the notes that say so, with their
paths. Noted is what holds of the places that are reached, in the order of the places and each once: every comparison
there, which has a verdict, and every join that its left side settles. A path is written with a point between the words,
the root first, and its text is read as the path to the part that the note is about. -/
theorem explain_faithful (a : Attributes) (r : Rule) :
    (∀ traced, (r.explain traced a).map Explanation.matched = r.verdict a) ∧
    (∀ x, r.explain false a = .ok x → x.matchedConditions = [] ∧ x.evaluationTrace = []) ∧
    ∀ x, r.explain true a = .ok x →
      (x.evaluationTrace = (r.notes a).map fun
        | .tested p c matched => p.render ++ ": " ++ c.render ++ " => " ++ if matched then "MATCHED" else "NOT_MATCHED"
        | .settled p k left => p.render ++ ": " ++ k.keyword ++ " 短路 - 左子树为 " ++ if left then "true" else "false") ∧
      (x.matchedConditions = (r.notes a).filterMap fun
        | .tested p c matched => if matched then some (p.render ++ ": " ++ c.render) else none
        | .settled .. => none) ∧
      (∀ p c, r.at? p = some (.test c) → Reached a r p → ∃ matched, c.evaluate a = .ok matched) ∧
      (∀ e, e ∈ r.notes a ↔ Reached a r e.path ∧ ∃ part, r.at? e.path = some part ∧ e.SaysOf a part) ∧
      ((r.notes a).map Event.path).Sublist r.places ∧ r.places.Nodup ∧
      ∀ e ∈ r.notes a, e.path.render = ".".intercalate ("root" :: e.path.map Branch.word) ∧
        ∃ p part, Path.parse e.path.render = .ok p ∧ r.at? p = some part ∧ e.SaysOf a part := by
  refine ⟨fun traced => ?_, fun x h => ?_, fun x h => ?_⟩
  · cases traced
    · rw [explain_untraced, verdict]
      cases r.evaluate a <;> rfl
    · rw [explain_traced, verdict]
      cases r.evaluate a <;> rfl
  · rw [explain_untraced, mapError_eq_ok] at h
    obtain ⟨b, -, rfl⟩ := map_eq_ok.1 h
    exact ⟨rfl, rfl⟩
  · rw [explain_traced, mapError_eq_ok] at h
    obtain ⟨b, hb, rfl⟩ := map_eq_ok.1 h
    refine ⟨?_, ?_, fun p c => verdict_of_reached hb, fun e => mem_notes, notes_sublist a r, r.nodup_places,
      fun e he => ?_⟩
    · refine List.map_congr_left fun e _ => ?_
      cases e with
      | tested p c matched => exact Event.render_tested p c matched
      | settled p k left => exact Event.render_settled p k left
    · refine List.filterMap_congr fun e _ => ?_
      cases e with
      | tested p c matched => exact Event.matched?_tested p c matched
      | settled p k left => rfl
    · obtain ⟨-, part, hp, holds⟩ := mem_notes.1 he
      exact ⟨e.path.render_eq_intercalate, e.path, part, Path.parse_render e.path, hp, holds⟩

/-- The attributes `b` and `d` are missing, but the joins of which they are the right sides are settled without them,
one by a comparison that matched and one by a comparison that did not. -/
theorem explain_faithful_passed_over :
    let r : Rule := .join .and (.join .or (.test ⟨"a", .equal, .text "x"⟩) (.test ⟨"b", .equal, .text "y"⟩))
      (.join .and (.test ⟨"c", .equal, .text "it's"⟩) (.test ⟨"d", .equal, .text "z"⟩))
    let a : Attributes := ⟨[("a", .text "x"), ("c", .text "w")]⟩
    let noted : List Event := [.tested [.left, .left] ⟨"a", .equal, .text "x"⟩ true, .settled [.left] .or true,
      .tested [.right, .left] ⟨"c", .equal, .text "it's"⟩ false, .settled [.right] .and false]
    (∃ x, r.explain true a = .ok x ∧ x.evaluationTrace = ["root.left.left: a = 'x' => MATCHED",
        "root.left: OR 短路 - 左子树为 true", "root.right.left: c = 'it\\'s' => NOT_MATCHED",
        "root.right: AND 短路 - 左子树为 false"] ∧ x.matchedConditions = ["root.left.left: a = 'x'"]) ∧
    (r.explain true a).map Explanation.matched = .ok false ∧ r.explain false a = .ok ⟨false, [], []⟩ ∧
    r.notes a = noted ∧ r.places = [[.left, .left], [.left], [.left, .right], [], [.right, .left], [.right],
      [.right, .right]] ∧
    ∀ e ∈ noted, ∃ p part, Path.parse e.path.render = .ok p ∧ r.at? p = some part ∧ e.SaysOf a part := by
  intro r a noted
  obtain ⟨verdict, -, told⟩ := explain_faithful a r
  have notes : r.notes a = noted := rfl
  obtain ⟨x, explained⟩ : ∃ x, r.explain true a = .ok x := ⟨_, rfl⟩
  obtain ⟨trace, conditions, -, -, -, -, parts⟩ := told x explained
  rw [notes] at trace conditions parts
  refine ⟨⟨x, explained, trace.trans ?_, conditions.trans ?_⟩, verdict true, rfl, notes, rfl,
    fun e he => (parts e he).2⟩
  · decide +kernel
  · decide +kernel

end Rule
end Eligibility
