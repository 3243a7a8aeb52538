/-
Nodes of a document. Each step of reading one is described once, by what it has found whenever it succeeds: a
member of an object, the parts of a predicate, the value of a node, one of its fields, and the node at its end.
-/
import Eligibility.Proofs.Outcome
import Eligibility.Rule.Json

namespace Eligibility

/-! ## Predicates -/

/-- A member is found only if its key stands in the object once. -/
theorem Json.filter_of_member? {key : String} {ms : List (Json.Text × Json)} {v : Json}
    (h : Json.member? key ms = some v) : ms.filter (·.1 = some key) = [(some key, v)] := by
  unfold Json.member? at h
  split at h
  · rename_i k _ heq
    cases h
    have mem : (k, v) ∈ ms.filter (·.1 = some key) := heq ▸ List.mem_singleton_self _
    -- the one member that is left has the key that was looked for
    obtain rfl : k = some key := by simpa using (List.mem_filter.1 mem).2
    exact heq
  · cases h

theorem Json.mem_of_member? {key : String} {ms : List (Json.Text × Json)} {v : Json}
    (h : Json.member? key ms = some v) : (some key, v) ∈ ms :=
  (List.mem_filter.1 (filter_of_member? h ▸ List.mem_singleton_self _)).1

/-- A literal is a number that has a value, or a text. -/
theorem Literal.ofJson?_eq_some {j : Json} {l : Literal} :
    Literal.ofJson? j = some l ↔
      (∃ n x, j = .number n ∧ n.value? = some x ∧ l = .number x) ∨ ∃ s, j = .string s ∧ l = .text s := by
  cases j with
  | number n => simp [Literal.ofJson?, Json.string, eq_comm (b := l)]
  | text t => simp [Literal.ofJson?, Json.string, eq_comm (b := l)]
  | _ => simp [Literal.ofJson?, Json.string]

/-- The parts of a predicate are a name, the symbol of a comparator and a literal. -/
theorem Comparison.ofParts?_eq_some {name comparator literal : Json} {c : Comparison} :
    Comparison.ofParts? name comparator literal = some c ↔
      name = .string c.name ∧ comparator.word? = some c.comparator.symbol ∧ Literal.ofJson? literal = some c.literal := by
  have symbol : ∀ s, Comparator.ofSymbol? s = some c.comparator ↔ s = c.comparator.symbol := fun s =>
    ⟨fun h => (Comparator.symbol_of_ofSymbol? h).symm, fun h => h ▸ Comparator.ofSymbol?_symbol _⟩
  unfold Comparison.ofParts?
  split
  · rename_i n
    simp only [Option.bind_eq_bind, Option.bind_eq_some_iff, Option.pure_def, Option.some.injEq]
    constructor
    · rintro ⟨word, hword, k, hk, l, hl, rfl⟩
      exact ⟨rfl, (symbol word).1 hk ▸ hword, hl⟩
    · rintro ⟨hn, hword, hl⟩
      cases hn
      exact ⟨_, hword, _, (symbol _).2 rfl, _, hl, rfl⟩
  · rename_i other
    simp only [reduceCtorEq, false_iff]
    rintro ⟨rfl, -⟩
    exact other _ rfl

theorem Comparison.ofJson?_object_eq_some {ms : List (Json.Text × Json)} {c : Comparison} :
    Comparison.ofJson? (.object ms) = some c ↔ ∃ comparator literal,
      Json.member? "attribute" ms = some (.string c.name) ∧ Json.member? "comparator" ms = some comparator ∧
      comparator.word? = some c.comparator.symbol ∧ Json.member? "literal" ms = some literal ∧
      Literal.ofJson? literal = some c.literal := by
  simp only [Comparison.ofJson?, Option.bind_eq_bind, Option.bind_eq_some_iff, Comparison.ofParts?_eq_some]
  constructor
  · rintro ⟨_, hname, comparator, hcomparator, literal, hliteral, rfl, hword, hl⟩
    exact ⟨comparator, literal, hname, hcomparator, hword, hliteral, hl⟩
  · rintro ⟨comparator, literal, hname, hcomparator, hword, hliteral, hl⟩
    exact ⟨_, hname, comparator, hcomparator, literal, hliteral, rfl, hword, hl⟩

namespace Node

/-! ## Fields -/

/-- The key of a field. -/
def Field.key : Field → String
  | form => "type"
  | value => "value"
  | child side => side.word

theorem Field.key_of_ofKey? {key : String} {field : Field} (h : ofKey? key = some field) : field.key = key := by
  unfold ofKey? at h
  split at h <;> cases h <;> rfl

theorem orBadDocument_eq_ok {α : Type} {o : Option α} {a : α} : orBadDocument o = .ok a ↔ o = some a := by
  cases o <;> simp [orBadDocument]

/-- The word of a type of node. -/
def Form.word : Form → String
  | operator => "operator"
  | operand => "operand"

theorem Form.ofJson?_eq_some {j : Json} {f : Form} : Form.ofJson? j = some f ↔ j.word? = some f.word := by
  unfold Form.ofJson?
  split
  · cases f <;> simp_all [word]
  · cases f <;> simp_all [word]
  · rename_i noOperator noOperand
    cases f with
    | operator => simpa [word] using noOperator
    | operand => simpa [word] using noOperand

/-- A predicate is looked for in a value that is sound as a whole. -/
theorem Value.ofJson?_eq_predicate {j : Json} {c : Comparison} :
    Value.ofJson? j = some (.predicate c) ↔ j.isSound = true ∧ Comparison.ofJson? j = some c := by
  unfold Value.ofJson?
  split
  · rename_i sound
    simp only [sound, true_and]
    split <;> simp_all
  · rename_i unsound
    simp [unsound]

theorem Value.ofJson?_eq_text {j : Json} {s : String} : Value.ofJson? j = some (.text s) ↔ j = .string s := by
  unfold Value.ofJson?
  split
  · split
    · rename_i hc
      simp only [Option.some.injEq, reduceCtorEq, false_iff]
      rintro rfl
      cases hc
    · simp [Json.string]
    · rename_i other _ _
      simp only [reduceCtorEq, false_iff]
      rintro rfl
      exact other s rfl
  · rename_i unsound
    simp only [reduceCtorEq, false_iff]
    rintro rfl
    exact unsound rfl

section Child

variable {j : Json} {read : Unit → Except Fault Rule}

theorem childOf_eq_none : childOf j read = .ok none ↔ j = .null := by
  unfold childOf
  split
  · simp
  · simpa [map_eq_ok] using ‹_›

/-- There is a child just if the value is not null and a node can be read from it. -/
theorem childOf_eq_some {r : Rule} : childOf j read = .ok (some r) ↔ j ≠ .null ∧ read () = .ok r := by
  unfold childOf
  split
  · simp
  · rename_i present
    simpa [map_eq_ok] using fun _ => present

end Child

namespace Draft

section Add

variable {d d' : Draft} {room : Room} {j : Json} {read : Unit → Except Fault Rule}

theorem add_form_eq_ok :
    d.add room .form j read = .ok d' ↔ d.form = none ∧ room.fits j.nesting = true ∧
      ∃ f, Form.ofJson? j = some f ∧ d' = { d with form := some f } := by
  unfold add has
  cases d.form with
  | some f => simp
  | none =>
    simp [bind_eq_ok, orBadDocument_eq_ok, and_assoc, pure, Except.pure, eq_comm (b := d')]

/-- A value is taken up if there is none yet, if it does not nest too deep, and if it is a predicate or a text. -/
theorem add_value_eq_ok :
    d.add room .value j read = .ok d' ↔ d.value = none ∧ room.fits j.nesting = true ∧
      ∃ v, Value.ofJson? j = some v ∧ d' = { d with value := some v } := by
  unfold add has
  cases d.value with
  | some v => simp
  | none =>
    simp [bind_eq_ok, orBadDocument_eq_ok, and_assoc, pure, Except.pure, eq_comm (b := d')]

theorem add_left_eq_ok :
    d.add room (.child .left) j read = .ok d' ↔ d.left = none ∧
      ∃ child, childOf j read = .ok child ∧ d' = { d with left := some child } := by
  unfold add has
  cases d.left with
  | some child => simp
  | none => simp [bind_eq_ok, pure, Except.pure, eq_comm (b := d')]

theorem add_right_eq_ok :
    d.add room (.child .right) j read = .ok d' ↔ d.right = none ∧
      ∃ child, childOf j read = .ok child ∧ d' = { d with right := some child } := by
  unfold add has
  cases d.right with
  | some child => simp
  | none => simp [bind_eq_ok, pure, Except.pure, eq_comm (b := d')]

end Add

/-- An operator needs a text that names a connective, and both children. -/
theorem judge_operator_eq_ok {value : Value} {left right : Option Rule} {r : Rule} :
    judge .operator value left right = .ok r ↔ ∃ s k l r', value = .text s ∧ Connective.ofPolicy? s = some k ∧
      left = some l ∧ right = some r' ∧ r = .join k l r' := by
  rcases value with c | s
  · simp [judge]
  · cases hk : Connective.ofPolicy? s with
    | none => simp [judge, hk]
    | some k => cases left <;> cases right <;> simp [judge, hk, eq_comm (b := r)]

/-- An operand has no child. Its comparison is given in parts, and then the name is looked at, or as text. -/
theorem judge_operand_eq_ok {value : Value} {left right : Option Rule} {r : Rule} :
    judge .operand value left right = .ok r ↔ left = none ∧ right = none ∧ ∃ c, r = .test c ∧
      (value = .predicate c ∧ Token.isName c.name = true ∨ ∃ s, value = .text s ∧ Comparison.parse s = .ok c) := by
  rcases left with _ | l
  · rcases right with _ | r'
    · rcases value with c | s
      · constructor
        · intro h
          -- this is where the name of a predicate is looked at
          by_cases hname : Token.isName c.name = true <;> simp [judge, hname] at h
          exact ⟨rfl, rfl, c, h.symm, .inl ⟨rfl, hname⟩⟩
        · rintro ⟨-, -, _, rfl, ⟨⟨⟩, hname⟩ | ⟨_, ⟨⟩, -⟩⟩
          simp [judge, hname]
      · simp [judge, map_eq_ok, and_comm, eq_comm (b := r)]
    · simp [judge]
  · simp [judge]

theorem finish_eq_ok {d : Draft} {r : Rule} :
    d.finish = .ok r ↔ ∃ form value, d.form = some form ∧ d.value = some value ∧
      judge form value d.left.join d.right.join = .ok r := by
  unfold finish
  split
  · rename_i form value hform hvalue
    simp [hform, hvalue, mapError_eq_ok]
  · rename_i missing
    simp only [reduceCtorEq, false_iff]
    rintro ⟨form, value, hform, hvalue, -⟩
    exact missing form value hform hvalue

end Draft

section Read

variable {room : Room} {r : Rule}

/-- The members of a node are read in order, and what they make up is judged at its end. -/
theorem read_object_eq_ok {ms : List (Json.Text × Json)} :
    read room (.object ms) = .ok r ↔ ∃ inside d, room.enter = .ok inside ∧ addMembers inside .empty ms = .ok d ∧
      d.finish = .ok r := by
  rw [read]
  simp only [bind_eq_ok, exists_and_left]

/-- The elements of a node that is written as a list are its members in their places. -/
theorem read_list_eq_ok {es : List Json} :
    read room (.list es) = .ok r ↔ ∃ inside d, room.enter = .ok inside ∧ addElements inside .empty 0 es = .ok d ∧
      d.finish = .ok r := by
  rw [read]
  simp only [bind_eq_ok, exists_and_left]

end Read

end Node

end Eligibility
