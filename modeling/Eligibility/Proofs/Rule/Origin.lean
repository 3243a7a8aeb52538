/-
Where rules come from: from text, from JSON, out of other rules by combination, and as a part of one. Each
of these ways checks names and numbers in its own place, and the combiner and the paths do not check them
at all, yet every rule that they give is of the form that text can express.
-/
import Eligibility.Proofs.Combination.Distinct
import Eligibility.Proofs.Json.Finite
import Eligibility.Proofs.Rule.Node
import Eligibility.Proofs.Rule.WellFormed
import Eligibility.Target

namespace Eligibility

/-! ## Parts and combinations -/

theorem Comparison.wellFormed_of_parse {text : String} {c : Comparison} (h : Comparison.parse text = .ok c) :
    c.WellFormed := by
  obtain ⟨ts, hts, hkinds⟩ := Comparison.parse_eq_ok.1 h
  refine Comparison.wellFormed_of_kinds fun k hk => ?_
  rw [← hkinds] at hk
  obtain ⟨t, ht, rfl⟩ := List.mem_map.1 hk
  exact Token.wellFormed_of_tokenize hts t ht

namespace Rule

/-- Every part of a well-formed rule is well formed. -/
theorem WellFormed.at? {r part : Rule} {p : Path} (h : r.WellFormed) (hp : r.at? p = some part) :
    part.WellFormed := by
  fun_induction Rule.at? r p with
  | case1 =>
    cases hp
    exact h
  | case2 k l r p ih => exact ih (wellFormed_join.1 h).1 hp
  | case3 k l r p ih => exact ih (wellFormed_join.1 h).2 hp
  | case4 => cases hp

theorem wellFormed_leaningLeft {k : Connective} {first : Rule} {rest : List Rule} (hf : first.WellFormed)
    (hr : ∀ r ∈ rest, r.WellFormed) : (leaningLeft k first rest).WellFormed := by
  induction rest generalizing first with
  | nil => exact hf
  | cons r rest ih =>
    obtain ⟨hr, hrest⟩ := List.forall_mem_cons.1 hr
    exact ih (wellFormed_join.2 ⟨hf, hr⟩) hrest

end Rule

namespace Combiner

/-- A combination is made of the rules that are kept, joined under the policy, and so it is well formed if they are. -/
theorem wellFormed_of_combineRules {c : Combiner} {rules : List Rule} {r : Rule}
    (h : c.combineRules rules = .ok r) (hr : ∀ r ∈ rules, r.WellFormed) : r.WellFormed := by
  obtain ⟨first, rest, hkept, rfl, -⟩ := combineRules_eq_ok.1 h
  -- dropping repeated rules adds none
  have kept : ∀ r ∈ c.kept rules, r.WellFormed := by
    unfold kept
    split
    · exact fun r hmem => hr r ((distinct_sublist rules).subset hmem)
    · exact hr
  rw [hkept, List.forall_mem_cons] at kept
  exact Rule.wellFormed_leaningLeft kept.1 kept.2

theorem wellFormed_of_combine {c : Combiner} {texts : List String} {r : Rule} (h : c.combine texts = .ok r) :
    r.WellFormed := by
  obtain ⟨rules, hrules, hr⟩ := combine_eq_ok h
  refine wellFormed_of_combineRules hr fun r hmem => ?_
  obtain ⟨text, -, hparse⟩ := exists_of_mem_mapM hrules r hmem
  exact Rule.wellFormed_of_parse hparse

end Combiner

/-! ## Documents -/

/-- The literal, if it is a number, is finite. -/
def Literal.Finite (l : Literal) : Prop := ∀ x, l = .number x → x.isFinite = true

theorem Literal.finite_of_ofJson? {j : Json} {l : Literal} (h : Literal.ofJson? j = some l) (hj : j.FiniteNumbers) :
    l.Finite := by
  obtain ⟨n, x, rfl, hx, rfl⟩ | ⟨s, -, rfl⟩ := Literal.ofJson?_eq_some.1 h
  · rintro _ ⟨⟩
    exact Json.finiteNumbers_number.1 hj x hx
  · rintro _ ⟨⟩

/-- A comparison out of a document without infinite numbers has a finite literal. The list form keeps the literal as
its third element. -/
theorem Comparison.finite_of_ofJson? {j : Json} {c : Comparison} (h : Comparison.ofJson? j = some c)
    (hj : j.FiniteNumbers) : c.literal.Finite := by
  rcases j with _ | _ | _ | _ | es | ms
  case object =>
    obtain ⟨_, literal, -, -, -, hliteral, hl⟩ := Comparison.ofJson?_object_eq_some.1 h
    exact Literal.finite_of_ofJson? hl (Json.finiteNumbers_object.1 hj _ (Json.mem_of_member? hliteral))
  case list =>
    rcases es with _ | ⟨name, _ | ⟨comparator, _ | ⟨literal, _ | ⟨e, es⟩⟩⟩⟩
    case cons.cons.cons.nil =>
      obtain ⟨-, -, hl⟩ := Comparison.ofParts?_eq_some.1 h
      exact Literal.finite_of_ofJson? hl (Json.finiteNumbers_list.1 hj _ (by simp))
    all_goals cases h
  all_goals cases h

namespace Node

/-- A predicate that has been read has a finite literal, and a child that has been read is well formed. The name
of a predicate is looked at only when the node ends. -/
structure Draft.Fit (d : Draft) : Prop where
  predicate : ∀ c, d.value = some (.predicate c) → c.literal.Finite
  left : ∀ l, d.left = some (some l) → l.WellFormed
  right : ∀ r, d.right = some (some r) → r.WellFormed

theorem Draft.fit_empty : Draft.empty.Fit := ⟨by rintro _ ⟨⟩, by rintro _ ⟨⟩, by rintro _ ⟨⟩⟩

/-- A field that has been read keeps a node fit. -/
theorem Draft.Fit.add {d d' : Draft} {room : Room} {field : Field} {j : Json} {read : Unit → Except Fault Rule}
    (hd : d.Fit) (h : d.add room field j read = .ok d') (hj : j.FiniteNumbers)
    (hread : ∀ r, read () = .ok r → r.WellFormed) : d'.Fit := by
  rcases field with _ | _ | ⟨_ | _⟩
  case form =>
    obtain ⟨-, -, f, -, rfl⟩ := Draft.add_form_eq_ok.1 h
    exact ⟨hd.predicate, hd.left, hd.right⟩
  case value =>
    obtain ⟨-, -, v, hv, rfl⟩ := Draft.add_value_eq_ok.1 h
    refine ⟨?_, hd.left, hd.right⟩
    rintro c ⟨⟩
    -- the name of the predicate is still open: `finish` looks at it
    exact Comparison.finite_of_ofJson? (Value.ofJson?_eq_predicate.1 hv).2 hj
  case child.left =>
    obtain ⟨-, child, hchild, rfl⟩ := Draft.add_left_eq_ok.1 h
    refine ⟨hd.predicate, ?_, hd.right⟩
    rintro l ⟨⟩
    exact hread l (childOf_eq_some.1 hchild).2
  case child.right =>
    obtain ⟨-, child, hchild, rfl⟩ := Draft.add_right_eq_ok.1 h
    refine ⟨hd.predicate, hd.left, ?_⟩
    rintro r ⟨⟩
    exact hread r (childOf_eq_some.1 hchild).2

/-- The end of a node checks the name of a predicate, and a comparison that is given as text is read from it. -/
theorem Draft.Fit.finish {d : Draft} {r : Rule} (hd : d.Fit) (h : d.finish = .ok r) : r.WellFormed := by
  obtain ⟨form, value, -, hvalue, hjudge⟩ := Draft.finish_eq_ok.1 h
  cases form with
  | operator =>
    obtain ⟨s, k, left, right, -, -, hleft, hright, rfl⟩ := Draft.judge_operator_eq_ok.1 hjudge
    rw [Option.join_eq_some_iff] at hleft hright
    exact Rule.wellFormed_join.2 ⟨hd.left left hleft, hd.right right hright⟩
  | operand =>
    obtain ⟨-, -, c, rfl, ⟨rfl, hname⟩ | ⟨s, -, hc⟩⟩ := Draft.judge_operand_eq_ok.1 hjudge
    · exact Rule.wellFormed_test.2 ⟨hname, hd.predicate c hvalue⟩
    · exact Rule.wellFormed_test.2 (Comparison.wellFormed_of_parse hc)

mutual

/-- A node whose numbers are finite is read as a well-formed rule, by induction along the document: each child is
read before the node that it belongs to ends. -/
theorem wellFormed_of_read {room : Room} :
    ∀ {j : Json} {r : Rule}, read room j = .ok r → j.FiniteNumbers → r.WellFormed
  | .object ms, r, h, hj => by
    obtain ⟨inside, d, -, hd, hr⟩ := read_object_eq_ok.1 h
    exact (fit_of_addMembers Draft.fit_empty hd (Json.finiteNumbers_object.1 hj)).finish hr
  | .list es, r, h, hj => by
    obtain ⟨inside, d, -, hd, hr⟩ := read_list_eq_ok.1 h
    exact (fit_of_addElements Draft.fit_empty hd (Json.finiteNumbers_list.1 hj)).finish hr
  | .null, _, h, _ | .bool _, _, h, _ | .number _, _, h, _ | .text _, _, h, _ => by cases h

theorem fit_of_addMembers {room : Room} :
    ∀ {ms : List (Json.Text × Json)} {d d' : Draft}, d.Fit → addMembers room d ms = .ok d' →
      (∀ m ∈ ms, m.2.FiniteNumbers) → d'.Fit
  | [], d, d', hd, h, _ => by
    cases h
    exact hd
  | (none, _) :: _, _, _, _, h, _ => by cases h
  | (some key, v) :: ms, d, d', hd, h, hms => by
    obtain ⟨hv, hms⟩ := List.forall_mem_cons.1 hms
    rw [addMembers] at h
    split at h
    · obtain ⟨d₁, hadd, h⟩ := bind_eq_ok.1 h
      exact fit_of_addMembers (hd.add hadd hv fun r hr => wellFormed_of_read hr hv) h hms
    · -- a member under another key is passed over
      exact fit_of_addMembers hd h hms

theorem fit_of_addElements {room : Room} :
    ∀ {es : List Json} {index : ℕ} {d d' : Draft}, d.Fit → addElements room d index es = .ok d' →
      (∀ e ∈ es, e.FiniteNumbers) → d'.Fit
  | [], _, d, d', hd, h, _ => by
    cases h
    exact hd
  | e :: es, index, d, d', hd, h, hes => by
    obtain ⟨he, hes⟩ := List.forall_mem_cons.1 hes
    rw [addElements] at h
    split at h
    · obtain ⟨d₁, hadd, h⟩ := bind_eq_ok.1 h
      exact fit_of_addElements (hd.add hadd he fun r hr => wellFormed_of_read hr he) h hes
    · cases h

end

end Node

/-- A rule that is read from the text of a document is well formed, since the text holds no infinite number. -/
theorem Rule.wellFormed_of_ofJson {limit : ℕ} {text : String} {r : Rule} (h : Rule.ofJson limit text = .ok r) :
    r.WellFormed := by
  obtain ⟨r', htext, h⟩ := bind_eq_ok.1 h
  obtain ⟨_, -, h⟩ := bind_eq_ok.1 h
  cases h
  unfold Rule.ofJsonText at htext
  split at htext
  · cases htext
  · rename_i document trailing hread
    obtain ⟨r', hr, h⟩ := bind_eq_ok.1 htext
    cases trailing <;> cases h
    exact Node.wellFormed_of_read hr (Json.finiteNumbers_of_read hread)

namespace Target

theorem ofMember_eq_tree {key : Json.Text} {j : Json} {r : Rule} :
    ofMember key j = .ok (.tree r) ↔ key = some "tree" ∧ Node.read room j = .ok r := by
  unfold ofMember
  split
  · simp [map_eq_ok]
  · simp
  · rename_i noTree _
    simpa using fun h => absurd h noTree

theorem wellFormed_of_ofDocument {j : Json} {r : Rule} (h : ofDocument j = .ok (.tree r)) (hj : j.FiniteNumbers) :
    r.WellFormed := by
  unfold ofDocument at h
  split at h
  · rename_i key tree more
    obtain ⟨target, htarget, h⟩ := bind_eq_ok.1 h
    cases hmore : more.isEmpty <;> rw [hmore] at h <;> cases h
    exact Node.wellFormed_of_read (ofMember_eq_tree.1 htarget).2 (Json.finiteNumbers_object.1 hj _ (List.mem_cons_self ..))
  · cases h

/-- A target that is a rule is well formed too, although it is read inside another object. -/
theorem wellFormed_of_ofJson {text : String} {r : Rule} (h : ofJson text = .ok (.tree r)) : r.WellFormed := by
  unfold ofJson at h
  split at h
  · cases h
  · rename_i document trailing hread
    obtain ⟨target, htarget, h⟩ := bind_eq_ok.1 h
    cases trailing <;> cases h
    exact wellFormed_of_ofDocument htarget (Json.finiteNumbers_of_read hread)

end Target
end Eligibility
