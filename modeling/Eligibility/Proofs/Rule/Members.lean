/-
Nodes that are written as objects with each key once. A key then has the one member that is found anywhere among
the others, every field of the node holds what the member of its key is, and the order of the members does not
matter. Nodes that are written as lists have their fields in their places, two to four of them.
-/
import Eligibility.Proofs.Rule.Node
import Mathlib.Data.List.Nodup

namespace Eligibility

variable {α : Type} {key : String} {j v : Json} {ms : List (Json.Text × Json)}

/-! ## Members with a key of their own -/

namespace Json

theorem eq_of_mem_of_mem {k : Text} (keys : (ms.map Prod.fst).Nodup) (hj : (k, j) ∈ ms) (hv : (k, v) ∈ ms) : j = v :=
  (Prod.ext_iff.1 (List.inj_on_of_nodup_map keys hj hv rfl)).2

/-- Among keys that stand once each, a member is found wherever it is. -/
theorem member?_eq_some (keys : (ms.map Prod.fst).Nodup) : member? key ms = some v ↔ (some key, v) ∈ ms := by
  constructor
  · exact mem_of_member?
  · intro h
    have only : ms.filter (·.1 = some key) = [(some key, v)] := by
      induction ms with
      | nil => cases h
      | cons m ms ih =>
        obtain ⟨notMem, keys⟩ := List.nodup_cons.1 keys
        rcases List.mem_cons.1 h with rfl | h
        · have none : ms.filter (·.1 = some key) = [] := by
            simp only [List.filter_eq_nil_iff, decide_eq_true_eq]
            exact fun m hm hk => notMem (List.mem_map.2 ⟨m, hm, hk⟩)
          simp [none]
        · have ne : m.1 ≠ some key := fun hk => notMem (List.mem_map.2 ⟨_, h, hk.symm⟩)
          simpa [ne] using ih keys h
    rw [member?, only]

theorem isSound_object : (object ms).isSound = true ↔ ∀ m ∈ ms, m.1.isSome = true ∧ m.2.isSound = true := by
  rw [isSound]
  induction ms with
  | nil => simp [membersSound]
  | cons m ms ih => simp [membersSound, ih, and_assoc]

theorem word?_eq_some {w : String} (h : ∀ es, j ≠ .object es) : j.word? = some w ↔ j = .string w := by
  cases j with
  | object es => exact absurd rfl (h es)
  | text t => simp [word?, string]
  | _ => simp [word?, string]

end Json

namespace Node

/-! ## Members of a node -/

/-- What a field holds after the members were read: what `Reads` makes of the document of its key, if the key is
among them and the field held nothing before, or else what it held. -/
def Slot (Reads : Json → α → Prop) (key : String) (ms : List (Json.Text × Json)) (before after : Option α) : Prop :=
  (∃ j a, (some key, j) ∈ ms ∧ before = none ∧ Reads j a ∧ after = some a) ∨
    (∀ j, (some key, j) ∉ ms) ∧ after = before

section Slot

variable {Reads : Json → α → Prop} {before after : Option α} {k : Json.Text}

theorem slot_nil : Slot Reads key [] before after ↔ after = before := by simp [Slot]

theorem slot_cons_of_ne (h : k ≠ some key) :
    Slot Reads key ((k, v) :: ms) before after ↔ Slot Reads key ms before after := by
  simp [Slot, Ne.symm h]

/-- The first member of a key fills the field, so nothing behind it may have the key. -/
theorem slot_cons_self (h : ∀ j, (some key, j) ∉ ms) :
    Slot Reads key ((some key, v) :: ms) before after ↔
      before = none ∧ ∃ a, Reads v a ∧ Slot Reads key ms (some a) after := by
  simp only [Slot, List.mem_cons, Prod.mk.injEq, true_and, h, or_false, not_false_eq_true, false_and, exists_false,
    false_or, implies_true]
  constructor
  · rintro (⟨j, a, rfl, hb, ha, hafter⟩ | ⟨hne, -⟩)
    · exact ⟨hb, a, ha, hafter⟩
    · exact absurd rfl (hne v)
  · rintro ⟨hb, a, ha, hafter⟩
    exact .inl ⟨v, a, rfl, hb, ha, hafter⟩

theorem slot_none_some {a : α} : Slot Reads key ms none (some a) ↔ ∃ j, (some key, j) ∈ ms ∧ Reads j a := by
  simp [Slot]

end Slot

/-- What the members of a node make of a draft. -/
def Fills (ms : List (Json.Text × Json)) (d d' : Draft) : Prop :=
  Slot (fun j f => Form.ofJson? j = some f) "type" ms d.form d'.form ∧
  Slot (fun j v => Value.ofJson? j = some v) "value" ms d.value d'.value ∧
  Slot (fun j child => childOf j (fun _ => read none j) = .ok child) "left" ms d.left d'.left ∧
  Slot (fun j child => childOf j (fun _ => read none j) = .ok child) "right" ms d.right d'.right

section Fills

variable {d d' : Draft}

/-- The members behind the first of a key are read from a draft in which the field of the key is taken. -/
theorem fills_cons_type (later : ∀ j, (some "type", j) ∉ ms) :
    Fills ((some "type", v) :: ms) d d' ↔
      ∃ d₁, d.add none .form v (fun _ => read none v) = .ok d₁ ∧ Fills ms d₁ d' := by
  rw [Fills, slot_cons_self later, slot_cons_of_ne (by decide), slot_cons_of_ne (by decide),
    slot_cons_of_ne (by decide)]
  constructor
  · rintro ⟨⟨hempty, f, hf, hform⟩, others⟩
    exact ⟨_, Draft.add_form_eq_ok.2 ⟨hempty, rfl, f, hf, rfl⟩, hform, others⟩
  · rintro ⟨_, hadd, h⟩
    obtain ⟨hempty, -, f, hf, rfl⟩ := Draft.add_form_eq_ok.1 hadd
    exact ⟨⟨hempty, f, hf, h.1⟩, h.2⟩

theorem fills_cons_value (later : ∀ j, (some "value", j) ∉ ms) :
    Fills ((some "value", v) :: ms) d d' ↔
      ∃ d₁, d.add none .value v (fun _ => read none v) = .ok d₁ ∧ Fills ms d₁ d' := by
  rw [Fills, slot_cons_of_ne (by decide), slot_cons_self later, slot_cons_of_ne (by decide),
    slot_cons_of_ne (by decide)]
  constructor
  · rintro ⟨hform, ⟨hempty, value, hv, hvalue⟩, others⟩
    exact ⟨_, Draft.add_value_eq_ok.2 ⟨hempty, rfl, value, hv, rfl⟩, hform, hvalue, others⟩
  · rintro ⟨_, hadd, h⟩
    obtain ⟨hempty, -, value, hv, rfl⟩ := Draft.add_value_eq_ok.1 hadd
    exact ⟨h.1, ⟨hempty, value, hv, h.2.1⟩, h.2.2⟩

theorem fills_cons_left (later : ∀ j, (some "left", j) ∉ ms) :
    Fills ((some "left", v) :: ms) d d' ↔
      ∃ d₁, d.add none (.child .left) v (fun _ => read none v) = .ok d₁ ∧ Fills ms d₁ d' := by
  rw [Fills, slot_cons_of_ne (by decide), slot_cons_of_ne (by decide), slot_cons_self later,
    slot_cons_of_ne (by decide)]
  constructor
  · rintro ⟨hform, hvalue, ⟨hempty, child, hchild, hleft⟩, hright⟩
    exact ⟨_, Draft.add_left_eq_ok.2 ⟨hempty, child, hchild, rfl⟩, hform, hvalue, hleft, hright⟩
  · rintro ⟨_, hadd, h⟩
    obtain ⟨hempty, child, hchild, rfl⟩ := Draft.add_left_eq_ok.1 hadd
    exact ⟨h.1, h.2.1, ⟨hempty, child, hchild, h.2.2.1⟩, h.2.2.2⟩

theorem fills_cons_right (later : ∀ j, (some "right", j) ∉ ms) :
    Fills ((some "right", v) :: ms) d d' ↔
      ∃ d₁, d.add none (.child .right) v (fun _ => read none v) = .ok d₁ ∧ Fills ms d₁ d' := by
  rw [Fills, slot_cons_of_ne (by decide), slot_cons_of_ne (by decide), slot_cons_of_ne (by decide),
    slot_cons_self later]
  constructor
  · rintro ⟨hform, hvalue, hleft, hempty, child, hchild, hright⟩
    exact ⟨_, Draft.add_right_eq_ok.2 ⟨hempty, child, hchild, rfl⟩, hform, hvalue, hleft, hright⟩
  · rintro ⟨_, hadd, h⟩
    obtain ⟨hempty, child, hchild, rfl⟩ := Draft.add_right_eq_ok.1 hadd
    exact ⟨h.1, h.2.1, h.2.2.1, hempty, child, hchild, h.2.2.2⟩

theorem fills_cons_other (other : Field.ofKey? key = none) : Fills ((some key, v) :: ms) d d' ↔ Fills ms d d' := by
  have ne : ∀ {k}, (Field.ofKey? k).isSome = true → some key ≠ some k := by
    rintro k hk ⟨⟩
    rw [other] at hk
    cases hk
  rw [Fills, slot_cons_of_ne (ne rfl), slot_cons_of_ne (ne rfl), slot_cons_of_ne (ne rfl), slot_cons_of_ne (ne rfl)]
  rfl

/-- Each field has a key of its own, so the order of the members does not matter. -/
theorem addMembers_eq_ok (keys : (ms.map Prod.fst).Nodup) (texts : ∀ m ∈ ms, m.1.isSome = true) :
    addMembers none d ms = .ok d' ↔ Fills ms d d' := by
  induction ms generalizing d with
  | nil =>
    obtain ⟨f, v, l, r⟩ := d
    obtain ⟨f', v', l', r'⟩ := d'
    simp [addMembers, Fills, slot_nil, eq_comm]
  | cons m ms ih =>
    obtain ⟨k, v⟩ := m
    obtain ⟨key, rfl⟩ := Option.isSome_iff_exists.1 (texts _ (List.mem_cons_self ..))
    obtain ⟨notMem, keys⟩ := List.nodup_cons.1 keys
    have later : ∀ j, (some key, j) ∉ ms := fun j hj => notMem (List.mem_map.2 ⟨_, hj, rfl⟩)
    have ih := fun d => ih (d := d) keys fun m hm => texts m (List.mem_cons_of_mem _ hm)
    rw [addMembers]
    split
    · rename_i field hfield
      obtain rfl := Field.key_of_ofKey? hfield
      simp only [bind_eq_ok, ih]
      rcases field with _ | _ | ⟨_ | _⟩
      case form => exact (fills_cons_type later).symm
      case value => exact (fills_cons_value later).symm
      case child.left => exact (fills_cons_left later).symm
      case child.right => exact (fills_cons_right later).symm
    · rename_i other
      rw [ih, fills_cons_other other]

end Fills

/-! ## Nodes -/

section Object

variable {c : Comparison} {k : Connective} {l r : Rule} (keys : (ms.map Prod.fst).Nodup)
  (texts : ∀ m ∈ ms, m.1.isSome = true)
include keys

/-- A child is not there if it has no member or its member is null. -/
theorem slot_child_none : (∃ child, Slot (fun j child => childOf j (fun _ => read none j) = .ok child) key ms none child ∧
    child.join = none) ↔ ∀ j, (some key, j) ∈ ms → j = .null := by
  constructor
  · rintro ⟨child, ⟨j, a, hj, -, ha, rfl⟩ | ⟨absent, -⟩, hnone⟩ j' hj'
    · obtain rfl : a = none := hnone
      rw [Json.eq_of_mem_of_mem keys hj' hj]
      exact childOf_eq_none.1 ha
    · exact absurd hj' (absent j')
  · intro h
    by_cases present : ∃ j, (some key, j) ∈ ms
    · obtain ⟨j, hj⟩ := present
      exact ⟨some none, slot_none_some.2 ⟨j, hj, childOf_eq_none.2 (h j hj)⟩, rfl⟩
    · exact ⟨none, .inr ⟨fun j hj => present ⟨j, hj⟩, rfl⟩, rfl⟩

include texts

/-- A node is what its members make of an empty draft, at its end. -/
theorem read_object_iff : read none (.object ms) = .ok r ↔ ∃ d, Fills ms .empty d ∧ d.finish = .ok r := by
  rw [read_object_eq_ok]
  constructor
  · rintro ⟨_, d, ⟨⟩, hd, hr⟩
    exact ⟨d, (addMembers_eq_ok keys texts).1 hd, hr⟩
  · rintro ⟨d, hd, hr⟩
    exact ⟨none, d, rfl, (addMembers_eq_ok keys texts).2 hd, hr⟩

/-- An object is read as a join just if it has the members of an operator, and both children are read. -/
theorem read_eq_join : read none (.object ms) = .ok (.join k l r) ↔
    (∃ j, (some "type", j) ∈ ms ∧ Form.ofJson? j = some .operator) ∧
    (∃ s, (some "value", .string s) ∈ ms ∧ Connective.ofPolicy? s = some k) ∧
    (∃ j, (some "left", j) ∈ ms ∧ j ≠ .null ∧ read none j = .ok l) ∧
    ∃ j, (some "right", j) ∈ ms ∧ j ≠ .null ∧ read none j = .ok r := by
  rw [read_object_iff keys texts]
  constructor
  · rintro ⟨⟨_, _, left, right⟩, ⟨hform, hvalue, hleft, hright⟩, h⟩
    obtain ⟨form, value, rfl, rfl, hjudge⟩ := Draft.finish_eq_ok.1 h
    cases form with
    | operand =>
      obtain ⟨-, -, _, ⟨⟩, -⟩ := Draft.judge_operand_eq_ok.1 hjudge
    | operator =>
      obtain ⟨s, k', l', r', rfl, hk, hl, hr, ⟨⟩⟩ := Draft.judge_operator_eq_ok.1 hjudge
      obtain rfl := Option.join_eq_some_iff.1 hl
      obtain rfl := Option.join_eq_some_iff.1 hr
      obtain ⟨jf, hjf, hf⟩ := slot_none_some.1 hform
      obtain ⟨jv, hjv, hs⟩ := slot_none_some.1 hvalue
      obtain rfl := Value.ofJson?_eq_text.1 hs
      obtain ⟨jl, hjl, hl⟩ := slot_none_some.1 hleft
      obtain ⟨jr, hjr, hr⟩ := slot_none_some.1 hright
      exact ⟨⟨jf, hjf, hf⟩, ⟨s, hjv, hk⟩, ⟨jl, hjl, childOf_eq_some.1 hl⟩, jr, hjr, childOf_eq_some.1 hr⟩
  · rintro ⟨hform, ⟨s, hs, hk⟩, ⟨jl, hjl, hl⟩, jr, hjr, hr⟩
    -- the draft in which every field holds what its member is
    refine ⟨⟨some .operator, some (.text s), some (some l), some (some r)⟩, ⟨?_, ?_, ?_, ?_⟩, ?_⟩
    · exact slot_none_some.2 hform
    · exact slot_none_some.2 ⟨_, hs, Value.ofJson?_eq_text.2 rfl⟩
    · exact slot_none_some.2 ⟨jl, hjl, childOf_eq_some.2 hl⟩
    · exact slot_none_some.2 ⟨jr, hjr, childOf_eq_some.2 hr⟩
    · exact Draft.finish_eq_ok.2 ⟨_, _, rfl, rfl, Draft.judge_operator_eq_ok.2 ⟨s, k, l, r, rfl, hk, rfl, rfl, rfl⟩⟩

/-- An object is read as a comparison just if it has the members of an operand, and no child but null. -/
theorem read_eq_test : read none (.object ms) = .ok (.test c) ↔
    (∃ j, (some "type", j) ∈ ms ∧ Form.ofJson? j = some .operand) ∧
    (∃ j, (some "value", j) ∈ ms ∧ ((j.isSound = true ∧ Comparison.ofJson? j = some c) ∧ Token.isName c.name = true ∨
      ∃ s, j = .string s ∧ Comparison.parse s = .ok c)) ∧
    (∀ j, (some "left", j) ∈ ms → j = .null) ∧ ∀ j, (some "right", j) ∈ ms → j = .null := by
  rw [read_object_iff keys texts, ← slot_child_none keys, ← slot_child_none keys]
  constructor
  · rintro ⟨⟨_, _, left, right⟩, ⟨hform, hvalue, hleft, hright⟩, h⟩
    obtain ⟨form, value, rfl, rfl, hjudge⟩ := Draft.finish_eq_ok.1 h
    cases form with
    | operator =>
      obtain ⟨_, _, _, _, -, -, -, -, ⟨⟩⟩ := Draft.judge_operator_eq_ok.1 hjudge
    | operand =>
      obtain ⟨hl, hr, c', ⟨⟩, hc⟩ := Draft.judge_operand_eq_ok.1 hjudge
      obtain ⟨jf, hjf, hf⟩ := slot_none_some.1 hform
      obtain ⟨jv, hjv, hv⟩ := slot_none_some.1 hvalue
      refine ⟨⟨jf, hjf, hf⟩, ⟨jv, hjv, ?_⟩, ⟨left, hleft, hl⟩, right, hright, hr⟩
      rcases hc with ⟨rfl, hname⟩ | ⟨s, rfl, hs⟩
      · exact .inl ⟨Value.ofJson?_eq_predicate.1 hv, hname⟩
      · exact .inr ⟨s, Value.ofJson?_eq_text.1 hv, hs⟩
  · rintro ⟨hform, ⟨jv, hjv, hv⟩, ⟨left, hleft, hl⟩, right, hright, hr⟩
    rcases hv with ⟨hc, hname⟩ | ⟨s, rfl, hs⟩
    · refine ⟨⟨some .operand, some (.predicate c), left, right⟩, ⟨slot_none_some.2 hform, ?_, hleft, hright⟩, ?_⟩
      · exact slot_none_some.2 ⟨jv, hjv, Value.ofJson?_eq_predicate.2 hc⟩
      · exact Draft.finish_eq_ok.2 ⟨_, _, rfl, rfl, Draft.judge_operand_eq_ok.2 ⟨hl, hr, c, rfl, .inl ⟨rfl, hname⟩⟩⟩
    · refine ⟨⟨some .operand, some (.text s), left, right⟩, ⟨slot_none_some.2 hform, ?_, hleft, hright⟩, ?_⟩
      · exact slot_none_some.2 ⟨_, hjv, Value.ofJson?_eq_text.2 rfl⟩
      · exact Draft.finish_eq_ok.2 ⟨_, _, rfl, rfl, Draft.judge_operand_eq_ok.2 ⟨hl, hr, c, rfl, .inr ⟨s, rfl, hs⟩⟩⟩

end Object

/-! ## Lists -/

theorem length_le_of_addElements {room : Room} {d d' : Draft} {index : ℕ} {es : List Json}
    (h : addElements room d index es = .ok d') (hi : index ≤ 4) : index + es.length ≤ 4 := by
  induction es generalizing d index with
  | nil => exact hi
  | cons e es ih =>
    rw [addElements] at h
    split at h
    · rename_i field hfield
      obtain ⟨d₁, -, h⟩ := bind_eq_ok.1 h
      -- there is no field for a fifth place
      have : index < 4 := by
        unfold Field.ofIndex? at hfield
        split at hfield <;> first | omega | cases hfield
      have := ih h (by omega)
      simp only [List.length_cons]
      omega
    · cases h

theorem length_of_read_list {room : Room} {es : List Json} {r : Rule} (h : read room (.list es) = .ok r) :
    2 ≤ es.length ∧ es.length ≤ 4 := by
  obtain ⟨inside, d, -, hd, hr⟩ := read_list_eq_ok.1 h
  refine ⟨?_, by have := length_le_of_addElements hd (Nat.zero_le 4); omega⟩
  obtain ⟨form, value, -, hvalue, -⟩ := Draft.finish_eq_ok.1 hr
  rcases es with _ | ⟨e, _ | ⟨e', es⟩⟩
  · cases hd
    cases hvalue
  · obtain ⟨d₁, hadd, hd⟩ := bind_eq_ok.1 hd
    obtain ⟨-, -, f, -, rfl⟩ := Draft.add_form_eq_ok.1 hadd
    cases hd
    cases hvalue
  · simp

end Node
end Eligibility
