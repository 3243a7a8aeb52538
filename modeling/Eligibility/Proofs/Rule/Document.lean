/-
Rules through JSON. The document of a rule names the form of each node, so that reading finds a predicate where
one was written and a connective where one was, and an operand is left without children. Where the nesting of
containers is limited, it is read just if there is room for one container more than its depth. Main statement: a
rule that text can express is read back from its JSON text, compact or indented, exactly within the limits that
admit its depth.
-/
import Eligibility.Proofs.Json.Document
import Eligibility.Proofs.Rule.Equality
import Eligibility.Proofs.Rule.WellFormed
import Eligibility.Rule.Json

namespace Eligibility

/-! ## The document of a rule can be written -/

theorem Comparison.WellFormed.expressible {c : Comparison} (h : c.WellFormed) : c.toJson.Expressible := by
  refine Json.expressible_object ?_
  simp only [List.forall_mem_cons, Option.isSome_some, true_and]
  refine ⟨Json.expressible_string _, Json.expressible_string _, ?_, by simp⟩
  cases hl : c.literal with
  | text s => exact Json.expressible_string s
  | number x =>
    have finite := h.2 x hl
    rw [Literal.toJson, Json.ofDouble, if_pos finite]
    exact Json.expressible_one rfl finite

theorem Rule.WellFormed.expressible {r : Rule} (h : r.WellFormed) : r.toJson.Expressible := by
  induction r with
  | test c =>
    refine Json.expressible_object ?_
    simp only [List.forall_mem_cons, Option.isSome_some, true_and]
    have value := (wellFormed_test.1 h).expressible
    exact ⟨Json.expressible_string _, value, Json.expressible_null, Json.expressible_null, by simp⟩
  | join k left right ihl ihr =>
    obtain ⟨hl, hr⟩ := wellFormed_join.1 h
    refine Json.expressible_object ?_
    simp only [List.forall_mem_cons, Option.isSome_some, true_and]
    exact ⟨Json.expressible_string _, Json.expressible_string _, ihl hl, ihr hr, by simp⟩

/-! ## Reading the document of a rule -/

theorem Literal.ofJson?_toJson {l : Literal} (h : ∀ x, l = .number x → x.isFinite = true) :
    Literal.ofJson? l.toJson = some l := by
  cases l with
  | text s => rfl
  | number x =>
    rw [toJson, Json.ofDouble, if_pos (h x rfl)]
    rfl

theorem Comparison.ofJson?_toJson {c : Comparison} (h : c.WellFormed) : Comparison.ofJson? c.toJson = some c := by
  have literal := Literal.ofJson?_toJson h.2
  have comparator := Comparator.ofSymbol?_symbol c.comparator
  show Comparison.ofParts? (.string c.name) (.string c.comparator.symbol) c.literal.toJson = some c
  simp [Comparison.ofParts?, Json.string, Json.word?, comparator, literal]

theorem Comparison.isSound_toJson (c : Comparison) : c.toJson.isSound = true := by
  obtain ⟨name, comparator, x | s⟩ := c
  · show (true && (true && (Json.isSound (.ofDouble x) && true))) = true
    unfold Json.ofDouble
    split <;> rfl
  · rfl

namespace Node

theorem Value.ofJson?_comparison {c : Comparison} (h : c.WellFormed) :
    Value.ofJson? c.toJson = some (.predicate c) := by
  unfold Value.ofJson?
  rw [if_pos c.isSound_toJson, Comparison.ofJson?_toJson h]

theorem Value.ofJson?_string (s : String) : Value.ofJson? (.string s) = some (.text s) := rfl

/-- One container more is open inside, so that what nests one container less fits there. -/
theorem Room.enter_cases (room : Room) :
    (∃ inside : Room, room.enter = .ok inside ∧ ∀ n, room.fits (n + 1) = inside.fits n) ∨
      room.enter = .error .badDocument ∧ ∀ n, room.fits (n + 1) = false := by
  rcases room with _ | _ | left
  · exact .inl ⟨none, rfl, fun _ => rfl⟩
  · exact .inr ⟨rfl, fun n => by simp [fits]⟩
  · exact .inl ⟨some left, rfl, fun n => by simp [fits]⟩

theorem Room.fits_max (room : Room) (m n : ℕ) :
    room.fits (max m n + 1) = (room.fits (m + 1) && room.fits (n + 1)) := by
  cases room with
  | none => rfl
  | some left =>
    simp only [fits, Option.all_some, ← Bool.decide_and]
    exact decide_eq_decide.2 (by omega)

/-- A text opens no container, so there is always room for it. -/
theorem fits_string {α : Type} (room : Room) (s : String) (read : Json → Option α) :
    orBadDocument (if room.fits (Json.string s).nesting then read (.string s) else none) =
      orBadDocument (read (.string s)) := by
  rw [if_pos]
  cases room <;> simp [Room.fits, Json.string, Json.nesting]

/-- A node with its four members in order is judged by what each of them is. -/
theorem read_members (room : Room) (form value left right : Json) :
    read room (.object [(some "type", form), (some "value", value), (some "left", left), (some "right", right)]) = (do
      let inside ← room.enter
      let f ← orBadDocument (if inside.fits form.nesting then Form.ofJson? form else none)
      let v ← orBadDocument (if inside.fits value.nesting then Value.ofJson? value else none)
      let l ← childOf left fun _ => read inside left
      let r ← childOf right fun _ => read inside right
      (Draft.judge f v l r).mapError .badNode) := by
  rw [read]
  cases room.enter with
  | error e => rfl
  | ok inside =>
    simp only [ok_bind, addMembers, Field.ofKey?, Draft.add, Draft.has, Draft.empty, Option.isSome_none,
      Bool.false_eq_true, if_false]
    cases orBadDocument (if inside.fits form.nesting then Form.ofJson? form else none) with
    | error e => rfl
    | ok f =>
      cases orBadDocument (if inside.fits value.nesting then Value.ofJson? value else none) with
      | error e => rfl
      | ok v =>
        cases childOf left fun _ => read inside left with
        | error e => rfl
        | ok l => cases childOf right fun _ => read inside right <;> rfl

end Node

theorem Connective.ofPolicy?_keyword (k : Connective) : Connective.ofPolicy? k.keyword = some k := by
  cases k <;> decide

/-- The document of a join is an object, never `null`. -/
theorem Rule.childOf_toJson (r : Rule) (read : Unit → Except Fault Rule) :
    Node.childOf r.toJson read = (read ()).map some := by
  cases r <;> rfl

theorem Comparison.nesting_toJson (c : Comparison) : c.toJson.nesting = 1 := by
  obtain ⟨name, comparator, x | s⟩ := c
  · show max 0 (max 0 (max (Json.nesting (.ofDouble x)) 0)) + 1 = 1
    unfold Json.ofDouble
    split <;> rfl
  · rfl

section Containers

variable {room inside : Node.Room} (enter : room.enter = .ok inside)
include enter

/-- A predicate is one container in that of its node. -/
theorem Rule.read_test {c : Comparison} (h : c.WellFormed) :
    Node.read room (test c).toJson = if inside.fits 1 then .ok (test c) else .error .badDocument := by
  have form : Node.Form.ofJson? (.string "operand") = some .operand := rfl
  have judged : Node.Draft.judge .operand (.predicate c) none none = .ok (.test c) := by
    simp [Node.Draft.judge, h.1]
  rw [toJson, Node.read_members, enter, ok_bind, Node.fits_string, form, c.nesting_toJson,
    Node.Value.ofJson?_comparison h]
  cases inside.fits 1 with
  | false => rfl
  | true => exact congrArg (Except.mapError Fault.badNode) judged

/-- A join is a container around those of its parts. -/
theorem Rule.read_join (k : Connective) (l r : Rule) :
    Node.read room (join k l r).toJson = (do
      let l ← Node.read inside l.toJson
      let r ← Node.read inside r.toJson
      return join k l r) := by
  have form : Node.Form.ofJson? (.string "operator") = some .operator := rfl
  have judged : ∀ l r, Node.Draft.judge .operator (.text k.keyword) (some l) (some r) = .ok (.join k l r) := by
    simp [Node.Draft.judge, Connective.ofPolicy?_keyword]
  rw [toJson, Node.read_members, enter, ok_bind, Node.fits_string, form, Node.fits_string, Node.Value.ofJson?_string,
    childOf_toJson, childOf_toJson]
  cases Node.read inside l.toJson with
  | error e => rfl
  | ok l =>
    cases Node.read inside r.toJson with
    | error e => rfl
    | ok r =>
      simp only [Node.orBadDocument, Except.map, ok_bind, judged]
      rfl

end Containers

/-- The document of a rule is read as the rule where it fits, and refused where it does not. -/
theorem Rule.read_toJson {r : Rule} (h : r.WellFormed) (room : Node.Room) :
    Node.read room r.toJson = if room.fits (r.depth + 1) then .ok r else .error .badDocument := by
  induction r generalizing room with
  | test c =>
    rcases room.enter_cases with ⟨inside, enter, fits⟩ | ⟨full, fits⟩
    · rw [read_test enter (wellFormed_test.1 h), depth, fits]
    · rw [toJson, Node.read_members, full, fits]
      rfl
  | join k l r ihl ihr =>
    obtain ⟨hl, hr⟩ := wellFormed_join.1 h
    rcases room.enter_cases with ⟨inside, enter, fits⟩ | ⟨full, fits⟩
    · -- the two sides fit into what is left inside just if the deeper of them does
      rw [read_join enter, ihl hl inside, ihr hr inside, depth, fits, Node.Room.fits_max]
      cases inside.fits (l.depth + 1) <;> cases inside.fits (r.depth + 1) <;> rfl
    · rw [toJson, Node.read_members, full, fits]
      rfl

/-! ## Texts of rules -/

namespace Rule

theorem WellFormed.nanFree {r : Rule} (h : r.WellFormed) : r.NanFree := by
  intro c hc hnan
  cases (h c hc).2 _ hnan

theorem ofJsonText_written {r : Rule} (h : r.WellFormed) {write : Json → String}
    (hw : write ∈ [Json.compact, Json.pretty]) : ofJsonText (write r.toJson) = .ok r := by
  rw [ofJsonText, Json.read_written h.expressible hw]
  dsimp only
  rw [read_toJson h none]
  rfl

/-- A rule is read back from its JSON text, compact or indented, within a limit that admits its depth, and is
then equal to itself as numbers are compared. A lower limit refuses the text for the depth of the rule. -/
theorem ofJson_written_at_limit (r : Rule) (h : r.WellFormed) (limit : ℕ) :
    ∀ write ∈ [Json.compact, Json.pretty],
      (r.depth ≤ limit → ofJson limit (write r.toJson) = .ok r ∧ (r == r) = true) ∧
      (limit < r.depth → ofJson limit (write r.toJson) = .error (.badValue (.depthOverLimit r.depth limit))) := by
  intro write hw
  have text := ofJsonText_written h hw
  constructor
  · intro hd
    refine ⟨?_, beq_self h.nanFree⟩
    rw [ofJson, text, ok_bind, checkDepth, if_neg (by omega)]
    rfl
  · intro hd
    rw [ofJson, text, ok_bind, checkDepth, if_pos hd]
    rfl

/-- Both forms of node and both kinds of literal, with every escape of quoted text, a number in exponent
notation and a negative zero, at the limits on either side of the depth. -/
theorem ofJson_written_mixed_rule :
    let tag : Rule := .test ⟨"user.tag", .notEqual, .text "\"\\/\x08\x0c\n\r\t\x01 中"⟩
    let level : Rule := .test ⟨"level", .atLeast, .number (.ofDecimal ⟨true, 25, 20⟩)⟩
    let debt : Rule := .test ⟨"debt", .equal, .number (.zero true)⟩
    let r : Rule := .join .and tag (.join .or level debt)
    r.WellFormed ∧ ∀ write ∈ [Json.compact, Json.pretty],
      (ofJson 3 (write r.toJson) = .ok r ∧ (r == r) = true) ∧
      ofJson 2 (write r.toJson) = .error (.badValue (.depthOverLimit 3 2)) := by
  intro tag level debt r
  have htag : tag.WellFormed := wellFormed_test.2 ⟨by decide, by rintro _ ⟨⟩⟩
  have hlevel : level.WellFormed := wellFormed_test.2 ⟨by decide, by rintro _ ⟨⟩; decide +kernel⟩
  have hdebt : debt.WellFormed := wellFormed_test.2 ⟨by decide, by rintro _ ⟨⟩; rfl⟩
  have h : r.WellFormed := wellFormed_join.2 ⟨htag, wellFormed_join.2 ⟨hlevel, hdebt⟩⟩
  refine ⟨h, fun write hw => ⟨?_, ?_⟩⟩
  · exact (ofJson_written_at_limit r h 3 write hw).1 (by decide)
  · exact (ofJson_written_at_limit r h 2 write hw).2 (by decide)

end Rule
end Eligibility
