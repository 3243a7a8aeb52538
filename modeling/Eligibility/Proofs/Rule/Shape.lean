/-
The shape of the documents that rules are read from. A node is an operator with a policy word and two nodes, or
an operand with a comparison and no nodes, and the comparison is a predicate or a text. Main statement: a
document in which nodes and predicates are plain objects is read as a rule just if it denotes the rule by its
shape, and the members of other keys have no influence.
-/
import Eligibility.Proofs.Json.Document
import Eligibility.Proofs.Rule.Members
import Eligibility.Proofs.Rule.Rendering

namespace Eligibility

variable {key : String} {j : Json} {ms : List (Json.Text × Json)}

/-! ## What a document denotes -/

/-- The document is the literal. -/
inductive Literal.Denoted : Json → Literal → Prop
  | number {n : Json.Number} {x : Binary64} (value : n.value? = some x) : Denoted (.number n) (.number x)
  | text (s : String) : Denoted (.string s) (.text s)

/-- The document is the comparison, as a predicate or as a text. -/
inductive Comparison.Denoted : Json → Comparison → Prop
  | predicate {ms : List (Json.Text × Json)} {c : Comparison} {literal : Json}
      (attribute_mem : (some "attribute", .string c.name) ∈ ms) (name : Token.isName c.name = true)
      (comparator_mem : (some "comparator", .string c.comparator.symbol) ∈ ms)
      (literal_mem : (some "literal", literal) ∈ ms) (denoted : Literal.Denoted literal c.literal) :
      Denoted (.object ms) c
  | text {s : String} {c : Comparison} {ts : List Token} (tokens : Token.tokenize s = .ok ts)
      (kinds : ts.map Token.kind = c.kinds) : Denoted (.string s) c

/-- The document is the rule. -/
inductive Rule.Denoted : Json → Rule → Prop
  | operator {ms : List (Json.Text × Json)} {policy : String} {left right : Json} {k : Connective} {l r : Rule}
      (type_mem : (some "type", .string "operator") ∈ ms) (value_mem : (some "value", .string policy) ∈ ms)
      (keyword : Connective.policyKey policy = k.keyword) (left_mem : (some "left", left) ∈ ms)
      (right_mem : (some "right", right) ∈ ms) (denotedLeft : Denoted left l) (denotedRight : Denoted right r) :
      Denoted (.object ms) (.join k l r)
  | operand {ms : List (Json.Text × Json)} {value : Json} {c : Comparison}
      (type_mem : (some "type", .string "operand") ∈ ms) (value_mem : (some "value", value) ∈ ms)
      (denoted : Comparison.Denoted value c) (left_null : ∀ j, (some "left", j) ∈ ms → j = .null)
      (right_null : ∀ j, (some "right", j) ∈ ms → j = .null) : Denoted (.object ms) (.test c)

namespace Node

/-- A predicate, if the document is one, is an object with each key once, and its comparator no object. -/
structure PlainValue (j : Json) : Prop where
  list : ∀ es, j = .list es → es.length ≠ 3
  keys : ∀ ms, j = .object ms → (ms.map Prod.fst).Nodup
  comparator : ∀ ms, j = .object ms → ∀ es, (some "comparator", .object es) ∉ ms

/-- Nodes and predicates, if the document is a node, are objects with each key once, and types and comparators
no objects. A node that is not an object would be a list of two to four. -/
inductive Plain : Json → Prop
  | node {ms : List (Json.Text × Json)} (keys : (ms.map Prod.fst).Nodup)
      (form : ∀ es, (some "type", .object es) ∉ ms) (value : ∀ j, (some "value", j) ∈ ms → PlainValue j)
      (left : ∀ j, (some "left", j) ∈ ms → Plain j) (right : ∀ j, (some "right", j) ∈ ms → Plain j) :
      Plain (.object ms)
  | other {j : Json} (object : ∀ ms, j ≠ .object ms) (list : ∀ es, j = .list es → es.length < 2 ∨ 4 < es.length) :
      Plain j

end Node

/-! ## Comparisons -/

theorem Connective.ofPolicy?_eq_some {s : String} {k : Connective} : ofPolicy? s = some k ↔ policyKey s = k.keyword := by
  unfold ofPolicy?
  split <;> cases k <;> simp_all [keyword]

theorem Literal.denoted_iff {l : Literal} : Denoted j l ↔ ofJson? j = some l := by
  rw [ofJson?_eq_some]
  constructor
  · rintro (⟨value⟩ | s)
    · exact .inl ⟨_, _, rfl, value, rfl⟩
    · exact .inr ⟨s, rfl, rfl⟩
  · rintro (⟨n, x, rfl, value, rfl⟩ | ⟨s, rfl, rfl⟩)
    · exact .number value
    · exact .text s

theorem Comparison.denoted_string {s : String} {c : Comparison} : Denoted (.string s) c ↔ parse s = .ok c := by
  rw [parse_eq_ok]
  constructor
  · rintro ⟨⟩
    exact ⟨_, ‹_›, ‹_›⟩
  · rintro ⟨ts, tokens, kinds⟩
    exact .text tokens kinds

theorem Comparison.denoted_object {c : Comparison} (plain : Node.PlainValue (.object ms)) :
    Denoted (.object ms) c ↔ ofJson? (.object ms) = some c ∧ Token.isName c.name = true := by
  have keys := plain.keys ms rfl
  have word : ∀ {comparator}, (some "comparator", comparator) ∈ ms →
      (comparator.word? = some c.comparator.symbol ↔ comparator = .string c.comparator.symbol) := fun hk =>
    Json.word?_eq_some fun es h => plain.comparator ms rfl es (h ▸ hk)
  simp only [ofJson?_object_eq_some, Json.member?_eq_some keys, ← Literal.denoted_iff]
  constructor
  · rintro ⟨⟩
    exact ⟨⟨_, _, ‹_›, ‹_›, rfl, ‹_›, ‹_›⟩, ‹_›⟩
  · rintro ⟨⟨comparator, literal, hname, hcomparator, hword, hliteral, hl⟩, isName⟩
    obtain rfl := (word hcomparator).1 hword
    exact .predicate hname isName hcomparator hliteral hl

/-- A value is a comparison just if it is a predicate whose attribute has the form of a name, or the text of one. -/
theorem Comparison.denoted_iff {c : Comparison} (plain : Node.PlainValue j) :
    Denoted j c ↔ (ofJson? j = some c ∧ Token.isName c.name = true) ∨ ∃ s, j = .string s ∧ parse s = .ok c := by
  rcases j with _ | _ | _ | t | es | ms
  case text =>
    cases t with
    | none =>
      constructor
      · rintro ⟨⟩
      · rintro (⟨⟨⟩, -⟩ | ⟨_, ⟨⟩, -⟩)
    | some s =>
      constructor
      · intro h
        exact .inr ⟨s, rfl, denoted_string.1 h⟩
      · rintro (⟨⟨⟩, -⟩ | ⟨_, ⟨⟩, h⟩)
        exact denoted_string.2 h
  case object =>
    rw [denoted_object plain]
    simp [Json.string]
  case list =>
    have none : ofJson? (.list es) = none := by
      rcases es with _ | ⟨e₁, _ | ⟨e₂, _ | ⟨e₃, _ | ⟨e₄, es⟩⟩⟩⟩
      case cons.cons.cons.nil => exact absurd rfl (plain.list _ rfl)
      all_goals rfl
    simp only [none, Json.string, reduceCtorEq, false_and, exists_false, or_self, iff_false]
    rintro ⟨⟩
  all_goals
    constructor
    · rintro ⟨⟩
    · rintro (⟨⟨⟩, -⟩ | ⟨_, ⟨⟩, -⟩)

/-! ## Nodes -/

namespace Node

theorem type_mem_iff {f : Form} (form : ∀ es, (some "type", .object es) ∉ ms) :
    (∃ j, (some "type", j) ∈ ms ∧ Form.ofJson? j = some f) ↔ (some "type", .string f.word) ∈ ms := by
  constructor
  · rintro ⟨j, hj, hf⟩
    have notObject : ∀ es, j ≠ .object es := fun es h => form es (h ▸ hj)
    exact (Json.word?_eq_some notObject).1 (Form.ofJson?_eq_some.1 hf) ▸ hj
  · intro h
    exact ⟨_, h, Form.ofJson?_eq_some.2 rfl⟩

/-- What cannot be a node denotes no rule and is read as none. -/
theorem read_eq_ok_of_other {r : Rule} (object : ∀ ms, j ≠ .object ms)
    (list : ∀ es, j = .list es → es.length < 2 ∨ 4 < es.length) : read none j = .ok r ↔ Rule.Denoted j r := by
  constructor
  · intro h
    rcases j with _ | _ | _ | _ | es | ms
    case list =>
      have length := length_of_read_list h
      have outside := list es rfl
      omega
    case object => exact absurd rfl (object ms)
    all_goals cases h
  · rintro (_ | _) <;> exact absurd rfl (object _)

/-- A document is read as a rule just if it denotes the rule. -/
theorem read_eq_ok_iff {r : Rule} (plain : Plain j) (sound : j.isSound = true) :
    read none j = .ok r ↔ Rule.Denoted j r := by
  -- on the rule, since a child of the document makes up a child of the rule
  induction r generalizing j with
  | test c =>
    rcases plain with ⟨keys, form, value, left, right⟩ | ⟨object, list⟩
    · have members := Json.isSound_object.1 sound
      rw [read_eq_test keys fun m hm => (members m hm).1, type_mem_iff form]
      constructor
      · rintro ⟨hform, ⟨j, hj, hc⟩, hleft, hright⟩
        refine .operand hform hj ((Comparison.denoted_iff (value j hj)).2 ?_) hleft hright
        exact hc.imp_left fun h => ⟨h.1.2, h.2⟩
      · rintro (_ | ⟨hform, hj, hc, hleft, hright⟩)
        refine ⟨hform, ⟨_, hj, ?_⟩, hleft, hright⟩
        exact ((Comparison.denoted_iff (value _ hj)).1 hc).imp_left fun h => ⟨⟨(members _ hj).2, h.1⟩, h.2⟩
    · exact read_eq_ok_of_other object list
  | join k l r ihl ihr =>
    rcases plain with ⟨keys, form, value, left, right⟩ | ⟨object, list⟩
    · have members := Json.isSound_object.1 sound
      rw [read_eq_join keys fun m hm => (members m hm).1, type_mem_iff form]
      constructor
      · rintro ⟨hform, ⟨s, hs, hk⟩, ⟨jl, hjl, -, hl⟩, jr, hjr, -, hr⟩
        have denotedLeft := (ihl (left jl hjl) (members _ hjl).2).1 hl
        have denotedRight := (ihr (right jr hjr) (members _ hjr).2).1 hr
        exact .operator hform hs (Connective.ofPolicy?_eq_some.1 hk) hjl hjr denotedLeft denotedRight
      · rintro (⟨hform, hs, hk, hjl, hjr, denotedLeft, denotedRight⟩ | _)
        have hl := (ihl (left _ hjl) (members _ hjl).2).2 denotedLeft
        have hr := (ihr (right _ hjr) (members _ hjr).2).2 denotedRight
        refine ⟨hform, ⟨_, hs, Connective.ofPolicy?_eq_some.2 hk⟩, ⟨_, hjl, ?_, hl⟩, _, hjr, ?_, hr⟩
        · rintro rfl
          cases hl
        · rintro rfl
          cases hr
    · exact read_eq_ok_of_other object list

/-! ## Keys without influence -/

/-- The members of a predicate that are looked at. -/
def essentialPredicate : Json → Json
  | .object ms => .object (ms.filter fun m => m.1 ∈ [some "attribute", some "comparator", some "literal"])
  | j => j

mutual

/-- A node without the members that are not looked at. -/
def essential : Json → Json
  | .object ms => .object (essentialMembers ms)
  | j => j

/-- The members of a node that are looked at. -/
def essentialMembers : List (Json.Text × Json) → List (Json.Text × Json)
  | [] => []
  | (key, v) :: ms =>
    match key.bind Field.ofKey? with
    | some .form => (key, v) :: essentialMembers ms
    | some .value => (key, essentialPredicate v) :: essentialMembers ms
    | some (.child _) => (key, essential v) :: essentialMembers ms
    | none => essentialMembers ms

end

theorem member?_essential (hkey : key ∈ ["attribute", "comparator", "literal"]) :
    Json.member? key (ms.filter fun m => m.1 ∈ [some "attribute", some "comparator", some "literal"]) =
      Json.member? key ms := by
  unfold Json.member?
  rw [List.filter_filter]
  have same : ∀ m ∈ ms, (decide (m.1 = some key) && decide (m.1 ∈ [some "attribute", some "comparator", some "literal"])) =
      decide (m.1 = some key) := by
    intro m _
    by_cases hm : m.1 = some key
    · have looked : key = "attribute" ∨ key = "comparator" ∨ key = "literal" := by simpa using hkey
      simp [hm, looked]
    · simp [hm]
  rw [List.filter_congr same]

theorem ofJson?_essentialPredicate (j : Json) : Comparison.ofJson? (essentialPredicate j) = Comparison.ofJson? j := by
  cases j with
  | object ms =>
    simp only [essentialPredicate, Comparison.ofJson?]
    rw [member?_essential (by simp), member?_essential (by simp), member?_essential (by simp)]
  | _ => rfl

theorem isSound_essentialPredicate (h : j.isSound = true) : (essentialPredicate j).isSound = true := by
  cases j with
  | object ms => exact Json.isSound_object.2 fun m hm => Json.isSound_object.1 h m (List.mem_filter.1 hm).1
  | _ => exact h

theorem Value.ofJson?_essentialPredicate (h : j.isSound = true) :
    Value.ofJson? (essentialPredicate j) = Value.ofJson? j := by
  unfold Value.ofJson?
  rw [if_pos h, if_pos (isSound_essentialPredicate h), Node.ofJson?_essentialPredicate]
  cases j with
  | object ms => cases Comparison.ofJson? (.object ms) <;> rfl
  | _ => rfl

theorem childOf_essential (h : read none (essential j) = read none j) :
    childOf (essential j) (fun _ => read none (essential j)) = childOf j fun _ => read none j := by
  rw [h]
  cases j <;> rfl

mutual

theorem read_essential : ∀ {j : Json}, j.isSound = true → read none (essential j) = read none j
  | .object ms, h => by
    rw [essential, read, read]
    simp only [Room.enter, ok_bind, addMembers_essential .empty fun m hm => Json.isSound_object.1 h m hm]
  | .list _, _ | .null, _ | .bool _, _ | .number _, _ | .text _, _ => by simp only [essential]

theorem addMembers_essential : ∀ {ms : List (Json.Text × Json)} (d : Draft),
    (∀ m ∈ ms, m.1.isSome = true ∧ m.2.isSound = true) → addMembers none d (essentialMembers ms) = addMembers none d ms
  | [], d, _ => by rw [essentialMembers]
  | (none, v) :: ms, d, h => by simpa using (h _ (List.mem_cons_self ..)).1
  | (some key, v) :: ms, d, h => by
    obtain ⟨⟨-, sound⟩, h⟩ := List.forall_mem_cons.1 h
    have ih := fun d => addMembers_essential d h
    have child := childOf_essential (read_essential sound)
    rw [essentialMembers, addMembers]
    simp only [Option.bind_some]
    split
    · rename_i hf
      rw [addMembers, hf]
      simp only [ih]
    · rename_i hf
      rw [addMembers, hf]
      simp only [ih]
      unfold Draft.add
      simp only [Value.ofJson?_essentialPredicate sound, Room.fits, Option.all_none]
    · rename_i side hf
      rw [addMembers, hf]
      simp only [ih, Draft.add, child]
      cases side <;> rfl
    · rename_i hf
      rw [hf, ih]

end

end Node

/-! ## Texts -/

namespace Rule

variable {text : String}

theorem ofJson_eq_read (h : Json.document? text = some j) (limit : ℕ) :
    ofJson limit text = Node.read none j >>= fun r => r.checkDepth limit >>= fun _ => .ok r := by
  have hread : Json.read text = .complete j false := by
    unfold Json.document? at h
    split at h <;> cases h
    assumption
  unfold ofJson ofJsonText
  rw [hread]
  dsimp only
  cases Node.read none j <;> rfl

/-- A sound document whose nodes and predicates are plain objects is read as a rule within a limit just if it
denotes the rule and the limit admits its depth. The members of other keys have no influence: another document
that has the same essential members is read, or refused, in the same way. -/
theorem ofJson_accepts_shape (text : String) (j : Json) (document : Json.document? text = some j)
    (sound : j.isSound = true) (plain : Node.Plain j) :
    (∀ limit r, ofJson limit text = .ok r ↔ Denoted j r ∧ r.depth ≤ limit) ∧
    ∀ text' j', Json.document? text' = some j' → j'.isSound = true → Node.essential j' = Node.essential j →
      ∀ limit, ofJson limit text' = ofJson limit text := by
  constructor
  · intro limit r
    rw [ofJson_eq_read document, ← Node.read_eq_ok_iff plain sound]
    simp only [bind_eq_ok, checkDepth_eq_ok]
    constructor
    · rintro ⟨r', hr, d, ⟨rfl, within⟩, ⟨⟩⟩
      exact ⟨hr, within⟩
    · rintro ⟨hr, within⟩
      exact ⟨r, hr, _, ⟨rfl, within⟩, rfl⟩
  · intro text' j' document' sound' same limit
    rw [ofJson_eq_read document, ofJson_eq_read document', ← Node.read_essential sound, ← Node.read_essential sound',
      same]

/-- A join whose sides are given as text, with a member that has no influence, at the limits on either side of
its depth. -/
theorem ofJson_accepts_shape_with_note :
    let side : Json := .object [(some "value", .string "a = 'x'"), (some "type", .string "operand")]
    let members : List (Json.Text × Json) := [(some "right", side), (some "value", .string " or "),
      (some "left", side), (some "type", .string "operator")]
    let j : Json := .object ((some "note", .null) :: members)
    let r : Rule := .join .or (.test ⟨"a", .equal, .text "x"⟩) (.test ⟨"a", .equal, .text "x"⟩)
    Json.document? j.compact = some j ∧ j.isSound = true ∧ Node.Plain j ∧
      ofJson 2 j.compact = .ok r ∧ (∀ r', ofJson 1 j.compact = .ok r' → r'.depth ≤ 1) ∧
      ofJson 2 (Json.object members).compact = .ok r := by
  intro side members j r
  have expressibleSide : side.Expressible := Json.expressible_object (by simp [Json.expressible_string])
  have expressible : (Json.object members).Expressible :=
    Json.expressible_object (by simp [members, Json.expressible_string, expressibleSide])
  have expressibleNote : j.Expressible :=
    Json.expressible_object (by simp [members, Json.expressible_string, Json.expressible_null, expressibleSide])
  have document : Json.document? (Json.object members).compact = some (.object members) := by
    rw [Json.document?, Json.read_compact expressible]
  have documentNote : Json.document? j.compact = some j := by
    rw [Json.document?, Json.read_compact expressibleNote]
  have plainText : ∀ s, Node.PlainValue (.string s) := fun s => ⟨nofun, nofun, nofun⟩
  have plainSide : Node.Plain side := by
    refine .node (by decide) ?_ ?_ ?_ ?_ <;> simp [Json.string]
    exact plainText _
  have plain : Node.Plain j := by
    refine .node (by decide) ?_ ?_ ?_ ?_ <;> simp [members, Json.string]
    · exact plainText _
    · exact plainSide
    · exact plainSide
  obtain ⟨accepts, same⟩ := ofJson_accepts_shape j.compact j documentNote rfl plain
  have denoted : Denoted j r := by
    have denotedSide : Denoted side (.test ⟨"a", .equal, .text "x"⟩) := by
      have wellFormed : Comparison.WellFormed ⟨"a", .equal, .text "x"⟩ := ⟨by decide, by rintro _ ⟨⟩⟩
      have rendered : Comparison.render ⟨"a", .equal, .text "x"⟩ = "a = 'x'" := by decide +kernel
      obtain ⟨ts, tokens, kinds⟩ := wellFormed.spells.tokenize
      rw [← Comparison.render, rendered] at tokens
      refine .operand ?_ ?_ (.text tokens kinds) ?_ ?_ <;> simp
    have keyword : Connective.policyKey " or " = Connective.or.keyword := by decide +kernel
    refine .operator ?_ ?_ keyword ?_ ?_ denotedSide denotedSide <;> simp [members]
  refine ⟨documentNote, rfl, plain, (accepts 2 r).2 ⟨denoted, by decide⟩, fun r' hr' => ((accepts 1 r').1 hr').2, ?_⟩
  rw [same _ _ document rfl rfl, (accepts 2 r).2 ⟨denoted, by decide⟩]

end Rule

end Eligibility
