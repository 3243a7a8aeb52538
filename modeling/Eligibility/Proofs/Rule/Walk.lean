/-
Walks over a rule without recursion: a loop keeps the parts that are still to be visited on a stack, and where it takes
off a join it puts the two sides there. Main statement: the loops for the depth, the size and the names of a rule end,
each after it has visited every place of the rule once, and what they have found is what is defined by recursion. The
size is the number of places, one less than twice the number of comparisons, and the depth is no greater than the
number of comparisons.
-/
import Eligibility.Proofs.Evaluation.Dependence
import Eligibility.Proofs.Evaluation.Trace
import Mathlib.Computability.StateTransition
import Mathlib.Data.String.Basic

namespace Eligibility

/-! ## Loops -/

/-- What belongs to the left and to the right side in a row, with this side first. -/
def Branch.arrange {α : Type} (first : Branch) (left right : List α) : List α :=
  match first with
  | .left => left ++ right
  | .right => right ++ left

theorem Branch.map_arrange {α α' : Type} (f : α → α') (first : Branch) (left right : List α) :
    (first.arrange left right).map f = first.arrange (left.map f) (right.map f) := by
  cases first <;> exact List.map_append

theorem Branch.arrange_perm {α : Type} (first : Branch) (left right : List α) :
    (first.arrange left right).Perm (left ++ right) := by
  cases first with
  | left => exact .refl _
  | right => exact List.perm_append_comm

/-- A loop over the parts of a rule. Each part on the stack has a label, which it gets from that of the join above. -/
structure Walk (Λ β : Type) where
  /-- The side of a join that is visited first. -/
  first : Branch
  /-- The label of the whole rule. -/
  root : Λ
  /-- The label of a side, from that of the join. -/
  label : Λ → Branch → Λ
  /-- What has been found before anything is visited. -/
  nothing : β
  /-- What has been found when one part more is visited. -/
  note : β → Λ × Rule → β

namespace Walk

/-- Where a loop stands: the parts that are still to be visited, the next one first, and what has been found. -/
structure State (Λ β : Type) where
  stack : List (Λ × Rule)
  found : β

section Loop

variable {Λ β : Type} (w : Walk Λ β)

/-- What a part puts on the stack. -/
def sides (l : Λ) : Rule → List (Λ × Rule)
  | .test _ => []
  | .join _ left right => w.first.arrange [(w.label l .left, left)] [(w.label l .right, right)]

/-- Once round the loop, which ends where the stack is empty. -/
def step : State Λ β → Option (State Λ β)
  | ⟨[], _⟩ => none
  | ⟨part :: stack, found⟩ => some ⟨w.sides part.1 part.2 ++ stack, w.note found part⟩

/-- The loop, begun with the whole rule on the stack, ends, and this is what it has found. -/
def Finds (r : Rule) (found : β) : Prop :=
  StateTransition.eval w.step ⟨[(w.root, r)], w.nothing⟩ = Part.some ⟨[], found⟩

/-- The parts of a rule with their labels in the order in which they are visited. -/
def visits (l : Λ) : Rule → List (Λ × Rule)
  | .test c => [(l, .test c)]
  | .join k left right =>
    (l, .join k left right) ::
      w.first.arrange (visits (w.label l .left) left) (visits (w.label l .right) right)

/-- What has been found when a part is worked off, itself and all below it. -/
def gather (l : Λ) (r : Rule) (found : β) : β := (w.visits l r).foldl w.note found

end Loop

variable {Λ β : Type} {w : Walk Λ β} {l : Λ} {k : Connective} {left right : Rule} {found : β}

theorem gather_join_of_left (h : w.first = .left) :
    w.gather l (.join k left right) found =
      w.gather (w.label l .right) right (w.gather (w.label l .left) left (w.note found (l, .join k left right))) := by
  rw [gather, visits, h, List.foldl_cons]
  exact List.foldl_append

theorem gather_join_of_right (h : w.first = .right) :
    w.gather l (.join k left right) found =
      w.gather (w.label l .left) left (w.gather (w.label l .right) right (w.note found (l, .join k left right))) := by
  rw [gather, visits, h, List.foldl_cons]
  exact List.foldl_append

/-- The part on top of the stack is worked off, and what lies below it is left alone. -/
theorem reaches_gather (w : Walk Λ β) (l : Λ) (r : Rule) (stack : List (Λ × Rule)) (found : β) :
    StateTransition.Reaches w.step ⟨(l, r) :: stack, found⟩ ⟨stack, w.gather l r found⟩ := by
  induction r generalizing l stack found with
  | test c => exact .single rfl
  | join k left right ihl ihr =>
    -- once round, the two sides lie where the join was, and each is worked off in turn
    have round : StateTransition.Reaches w.step ⟨(l, .join k left right) :: stack, found⟩
        ⟨w.sides l (.join k left right) ++ stack, w.note found (l, .join k left right)⟩ := .single rfl
    refine round.trans ?_
    cases h : w.first with
    | left =>
      rw [gather_join_of_left h, sides, h]
      exact (ihl ..).trans (ihr ..)
    | right =>
      rw [gather_join_of_right h, sides, h]
      exact (ihr ..).trans (ihl ..)

/-- The loop ends, and has found what is noted of the parts in the order in which they are visited. -/
theorem finds_gather (w : Walk Λ β) (r : Rule) : w.Finds r (w.gather w.root r w.nothing) :=
  Part.eq_some_iff.2 (StateTransition.mem_eval.2 ⟨w.reaches_gather w.root r [] w.nothing, rfl⟩)

/-! ## The places that are visited -/

/-- The loop that also writes down what it visits, each part with its place. -/
@[simps]
def placed (w : Walk Λ β) : Walk (Path × Λ) (List (Path × Rule) × β) where
  first := w.first
  root := ([], w.root)
  label l side := (l.1 ++ [side], w.label l.2 side)
  nothing := ([], w.nothing)
  note found part := (found.1 ++ [(part.1.1, part.2)], w.note found.2 (part.1.2, part.2))

/-- A part without its place. -/
def unplaced (part : (Path × Λ) × Rule) : Λ × Rule := (part.1.2, part.2)

/-- The state of a loop without what has been written down. -/
def State.unplaced (s : State (Path × Λ) (List (Path × Rule) × β)) : State Λ β :=
  ⟨s.stack.map Walk.unplaced, s.found.2⟩

theorem sides_placed (w : Walk Λ β) (p : Path) (l : Λ) (r : Rule) :
    (w.placed.sides (p, l) r).map unplaced = w.sides l r := by
  cases r with
  | test c => rfl
  | join k left right => exact Branch.map_arrange unplaced ..

/-- What is visited is written down beside the loop, which goes on as it does without. -/
theorem step_placed (w : Walk Λ β) (s : State (Path × Λ) (List (Path × Rule) × β)) :
    (w.placed.step s).map State.unplaced = w.step s.unplaced := by
  obtain ⟨_ | ⟨⟨⟨p, l⟩, r⟩, stack⟩, found⟩ := s
  · rfl
  · rw [step, Option.map_some, State.unplaced, List.map_append, sides_placed]
    rfl

/-- What is written down changes nothing of the order. -/
theorem visits_placed (w : Walk Λ β) (p : Path) (l : Λ) (r : Rule) :
    (w.placed.visits (p, l) r).map unplaced = w.visits l r := by
  induction r generalizing p l with
  | test c => rfl
  | join k left right ihl ihr =>
    rw [visits, List.map_cons, Branch.map_arrange, placed_label, placed_label, ihl, ihr]
    rfl

/-- The places that are visited are those of the rule, only in another order. -/
theorem places_visits (w : Walk Λ β) (p : Path) (l : Λ) (r : Rule) :
    ((w.placed.visits (p, l) r).map (·.1.1)).Perm (r.places.map (p ++ ·)) := by
  induction r generalizing p l with
  | test c => simp [visits, Rule.places]
  | join k left right ihl ihr =>
    rw [visits, List.map_cons, Branch.map_arrange, placed_label, placed_label, Rule.places, List.map_append,
      List.map_cons, List.append_nil, List.map_map, List.map_map]
    have both := (ihl (p ++ [.left]) (w.label l .left)).append (ihr (p ++ [.right]) (w.label l .right))
    simp only [List.append_assoc, List.singleton_append] at both
    exact (((Branch.arrange_perm ..).trans both).cons p).trans List.perm_middle.symm

/-- Each part is visited at its own place. -/
theorem at?_visits (w : Walk Λ β) (p : Path) (l : Λ) (r : Rule) :
    ∀ part ∈ w.placed.visits (p, l) r, ∃ q, part.1.1 = p ++ q ∧ r.at? q = some part.2 := by
  induction r generalizing p l with
  | test c => exact List.forall_mem_singleton.2 ⟨[], (List.append_nil p).symm, rfl⟩
  | join k left right ihl ihr =>
    refine List.forall_mem_cons.2 ⟨⟨[], (List.append_nil p).symm, rfl⟩, fun part hpart => ?_⟩
    rcases List.mem_append.1 ((Branch.arrange_perm ..).mem_iff.1 hpart) with hpart | hpart
    · obtain ⟨q, place, found⟩ := ihl _ _ part hpart
      exact ⟨.left :: q, place.trans (List.append_assoc p [.left] q), found⟩
    · obtain ⟨q, place, found⟩ := ihr _ _ part hpart
      exact ⟨.right :: q, place.trans (List.append_assoc p [.right] q), found⟩

theorem foldl_note_placed (w : Walk Λ β) (parts : List ((Path × Λ) × Rule)) (seen : List (Path × Rule)) (found : β) :
    parts.foldl w.placed.note (seen, found) =
      (seen ++ parts.map fun part => (part.1.1, part.2), (parts.map unplaced).foldl w.note found) := by
  induction parts generalizing seen found with
  | nil => simp
  | cons part parts ih => simp [ih, unplaced]

/-- The loop ends and has found this, and by then it has visited every place of the rule once, with the part there. -/
def FindsOnce (w : Walk Λ β) (r : Rule) (found : β) : Prop :=
  w.Finds r found ∧ ∃ visited, w.placed.Finds r (visited, found) ∧
    (visited.map Prod.fst).Perm r.places ∧ ∀ v ∈ visited, r.at? v.1 = some v.2

theorem findsOnce_gather (w : Walk Λ β) (r : Rule) : w.FindsOnce r (w.gather w.root r w.nothing) := by
  refine ⟨w.finds_gather r, (w.placed.visits w.placed.root r).map fun part => (part.1.1, part.2), ?_, ?_, ?_⟩
  · have found := w.placed.finds_gather r
    rwa [gather, placed_nothing, foldl_note_placed, placed_root, visits_placed, ← gather] at found
  · simpa [Function.comp_def] using w.places_visits [] w.root r
  · refine List.forall_mem_map.2 fun part hpart => ?_
    obtain ⟨q, place, found⟩ := w.at?_visits [] w.root r part hpart
    exact place ▸ found

/-! ## Depth, size and names -/

/-- The loop for the depth: each part is labelled with its level. -/
def depth : Walk ℕ ℕ where
  first := .right
  root := 1
  label level _ := level + 1
  nothing := 0
  note deepest part := max deepest part.1

/-- The loop for the size. -/
def size : Walk Unit ℕ where
  first := .right
  root := ()
  label _ _ := ()
  nothing := 0
  note n _ := n + 1

/-- The loop for the names. -/
def names : Walk Unit (List String) where
  first := .left
  root := ()
  label _ _ := ()
  nothing := []
  note names part :=
    match part.2 with
    | .test c => insertName c.name names
    | .join .. => names

theorem gather_depth (level deepest : ℕ) (r : Rule) :
    depth.gather (level + 1) r deepest = max deepest (level + r.depth) := by
  induction r generalizing level deepest with
  | test c => rfl
  | join k left right ihl ihr =>
    rw [gather_join_of_right rfl]
    change depth.gather (level + 1 + 1) left (depth.gather (level + 1 + 1) right (max deepest (level + 1))) = _
    rw [ihl, ihr, Rule.depth]
    omega

theorem gather_size (n : ℕ) (r : Rule) : size.gather () r n = n + r.size := by
  induction r generalizing n with
  | test c => rfl
  | join k left right ihl ihr =>
    rw [gather_join_of_right rfl]
    change size.gather () left (size.gather () right (n + 1)) = _
    rw [ihl, ihr, Rule.size]
    omega

theorem gather_names (ns : List String) (r : Rule) : names.gather () r ns = r.addNames ns := by
  induction r generalizing ns with
  | test c => rfl
  | join k left right ihl ihr =>
    rw [gather_join_of_left rfl]
    change names.gather () right (names.gather () left ns) = _
    rw [ihl, ihr, Rule.addNames]

theorem findsOnce_depth (r : Rule) : depth.FindsOnce r r.depth := by
  have deepest : depth.gather depth.root r depth.nothing = r.depth := by
    refine (gather_depth 0 0 r).trans ?_
    rw [Nat.zero_max, Nat.zero_add]
  exact deepest ▸ depth.findsOnce_gather r

theorem findsOnce_size (r : Rule) : size.FindsOnce r r.size := by
  have count : size.gather size.root r size.nothing = r.size := (gather_size 0 r).trans (Nat.zero_add _)
  exact count ▸ size.findsOnce_gather r

theorem findsOnce_names (r : Rule) : names.FindsOnce r r.names := by
  have named : names.gather names.root r names.nothing = r.names := gather_names [] r
  exact named ▸ names.findsOnce_gather r

end Walk

/-! ## What the notions say of a rule -/

theorem pairwise_insertName {names : List String} (n : String) (h : names.Pairwise (· < ·)) :
    (insertName n names).Pairwise (· < ·) := by
  fun_induction insertName n names with
  | case1 => exact List.pairwise_singleton ..
  | case2 m ms before =>
    have behind := (List.pairwise_cons.1 h).1
    exact List.pairwise_cons.2 ⟨List.forall_mem_cons.2 ⟨before, fun a ha => before.trans (behind a ha)⟩, h⟩
  | case3 => exact h
  | case4 m ms before other ih =>
    obtain ⟨behind, sorted⟩ := List.pairwise_cons.1 h
    refine List.pairwise_cons.2 ⟨fun a ha => ?_, ih sorted⟩
    rcases mem_insertName.1 ha with rfl | ha
    · exact lt_of_le_of_ne (not_lt.1 before) (Ne.symm other)
    · exact behind a ha

namespace Rule

theorem pairwise_addNames {names : List String} (r : Rule) (h : names.Pairwise (· < ·)) :
    (r.addNames names).Pairwise (· < ·) := by
  induction r generalizing names with
  | test c => exact pairwise_insertName c.name h
  | join k l r ihl ihr => exact ihr (ihl h)

theorem length_places (r : Rule) : r.places.length = r.size := by
  induction r with
  | test c => rfl
  | join k l r ihl ihr =>
    rw [places, size, List.length_append, List.length_cons, List.length_map, List.length_map, ihl, ihr, Nat.add_assoc]

/-- There is one join less than there are comparisons. -/
theorem size_add_one (r : Rule) : r.size + 1 = 2 * r.leaves.length := by
  induction r with
  | test c => rfl
  | join k l r ihl ihr =>
    rw [size, leaves, List.length_append]
    omega

theorem depth_le_length_leaves (r : Rule) : r.depth ≤ r.leaves.length := by
  induction r with
  | test c => exact Nat.le_refl 1
  | join k l r ihl ihr =>
    have := l.size_add_one
    have := r.size_add_one
    rw [depth, leaves, List.length_append]
    omega

/-- The loops for the depth, the size and the names of a rule end. By then each has visited every place of the rule
once, as can be seen when it also writes down what it visits, and it has found what is defined by recursion. The depth
is one for a comparison, and for a join one more than that of the deeper side. The size is the number of places, one
less than twice the number of comparisons, and there are no more levels than comparisons. The names, in order and each
once, are those of the comparisons, so that a join has the names of both its sides. -/
theorem walks_find_structure (r : Rule) :
    (Walk.depth.FindsOnce r r.depth ∧ Walk.size.FindsOnce r r.size ∧ Walk.names.FindsOnce r r.names) ∧
    (∀ {Λ β : Type} (w : Walk Λ β) s, (w.placed.step s).map Walk.State.unplaced = w.step s.unplaced) ∧
    (r.places.Nodup ∧ ∀ p, p ∈ r.places ↔ ∃ part, r.at? p = some part) ∧
    ((∀ c, (test c).depth = 1) ∧ ∀ k left right, (join k left right).depth = 1 + max left.depth right.depth) ∧
    (r.size = r.places.length ∧ r.size + 1 = 2 * r.leaves.length ∧ r.depth ≤ r.leaves.length) ∧
    r.names.Pairwise (· < ·) ∧ (∀ n, n ∈ r.names ↔ ∃ c ∈ r.leaves, c.name = n) ∧
    ∀ k left right n, n ∈ (join k left right).names ↔ n ∈ left.names ∨ n ∈ right.names := by
  refine ⟨⟨Walk.findsOnce_depth r, Walk.findsOnce_size r, Walk.findsOnce_names r⟩, Walk.step_placed,
    ⟨r.nodup_places, fun p => mem_places⟩, ⟨fun c => rfl, fun k left right => Nat.add_comm ..⟩,
    ⟨r.length_places.symm, r.size_add_one, r.depth_le_length_leaves⟩, r.pairwise_addNames .nil, fun n => mem_names, ?_⟩
  exact fun k left right n => mem_names_join

/-- The right side is visited first for the depth, the left side for the names. -/
example :
    let r : Rule := .join .or (.join .and (.test ⟨"b", .equal, .text "x"⟩) (.test ⟨"a", .equal, .text "y"⟩))
      (.test ⟨"b", .equal, .text "z"⟩)
    (Walk.depth.placed.visits ([], 1) r).map (·.1) =
        [([], 1), ([.right], 2), ([.left], 2), ([.left, .right], 3), ([.left, .left], 3)] ∧
      (Walk.names.placed.visits ([], ()) r).map (·.1.1) =
        [[], [.left], [.left, .left], [.left, .right], [.right]] := ⟨rfl, rfl⟩

end Rule
end Eligibility
