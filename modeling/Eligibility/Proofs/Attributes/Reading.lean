/-
The two readers of attributes. What the members of an object give is listed once, a name for each and a value where
there is one; the strict reader wants a value from all of them, and the general one from those that are left in a
record, the last of each name. Main statement: which texts each reader takes, and that it is the same attributes.
-/
import Eligibility.Attributes.Json
import Eligibility.Proofs.Attributes.Record
import Eligibility.Proofs.Json.Document
import Eligibility.Proofs.Outcome
import Eligibility.Proofs.Rule.Members
import Mathlib.Data.Set.List

namespace Eligibility

/-! ## The last entry of each name -/

/-- No entry behind this one has its name. -/
def LastOf {κ α : Type} (es : List (κ × α)) (e : κ × α) : Prop :=
  ∃ before after, es = before ++ e :: after ∧ ∀ e' ∈ after, e'.1 ≠ e.1

section LastOf

variable {κ α : Type} {es : List (κ × α)} {e last : κ × α}

theorem LastOf.mem (h : LastOf es e) : e ∈ es := by
  obtain ⟨before, after, rfl, -⟩ := h
  exact List.mem_append_right before List.mem_cons_self

theorem not_lastOf_nil : ¬ LastOf [] e := fun h => List.not_mem_nil h.mem

theorem lastOf_append_singleton : LastOf (es ++ [last]) e ↔ e = last ∨ LastOf es e ∧ e.1 ≠ last.1 := by
  constructor
  · rintro ⟨before, after, h, others⟩
    -- either nothing comes behind the entry, and it is the last, or what comes behind ends with the last
    rcases List.eq_nil_or_concat after with rfl | ⟨after, x, rfl⟩
    · obtain ⟨-, hlast⟩ := List.append_inj' h rfl
      exact .inl (List.cons.inj hlast).1.symm
    · rw [List.concat_eq_append, ← List.cons_append, ← List.append_assoc] at h
      obtain ⟨rfl, hx⟩ := List.append_inj' h rfl
      cases hx
      rw [List.concat_eq_append, List.forall_mem_append] at others
      exact .inr ⟨⟨before, after, rfl, others.1⟩, (List.forall_mem_singleton.1 others.2).symm⟩
  · rintro (rfl | ⟨⟨before, after, rfl, others⟩, ne⟩)
    · exact ⟨es, [], rfl, nofun⟩
    · refine ⟨before, after ++ [last], by simp, ?_⟩
      exact List.forall_mem_append.2 ⟨others, List.forall_mem_singleton.2 ne.symm⟩

end LastOf

namespace Record

variable {α : Type} {e : String × α} {es : List (String × α)}

/-- A record holds the last entry of each name. -/
theorem mem_ofList : e ∈ ofList es ↔ LastOf es e := by
  induction es using List.reverseRecOn with
  | nil => exact ⟨nofun, fun h => absurd h not_lastOf_nil⟩
  | append_singleton es last ih =>
    rw [ofList_append_singleton, mem_set_of_sorted sorted_ofList, ih, lastOf_append_singleton]

end Record

/-! ## Members and what they give -/

namespace Json

/-- The object with a member for each entry, repeated names included. -/
def ofEntries (es : List (String × Json)) : Json := .object (es.map (Prod.map some id))

/-- Whether a document is a truth value, a number or a text, which the value of an attribute has to be. -/
def isPlain : Json → Bool
  | .bool _ | .number _ | .text _ => true
  | _ => false

theorem isSound_of_soundDocument? {text : String} {j : Json} (h : soundDocument? text = some j) : j.isSound = true :=
  (Bool.and_eq_true_iff.1 (Option.filter_eq_some_iff.1 h).2).1

/-- Every key of a sound object has its content. -/
theorem exists_ofEntries {ms : List (Text × Json)} (h : (object ms).isSound = true) :
    ∃ es, object ms = ofEntries es := by
  have inRange : ms ∈ Set.range (List.map (Prod.map some id)) := by
    rw [Set.range_list_map]
    rintro ⟨k, j⟩ hm
    obtain ⟨name, rfl⟩ := Option.isSome_iff_exists.1 (isSound_object.1 h _ hm).1
    exact ⟨(name, j), rfl⟩
  obtain ⟨es, rfl⟩ := inRange
  exact ⟨es, rfl⟩

theorem isSound_ofEntries {es : List (String × Json)} :
    (ofEntries es).isSound = true ↔ ∀ e ∈ es, e.2.isSound = true := by
  rw [ofEntries, isSound_object, List.forall_mem_map]
  simp

/-- The compact text of sound entries that can be written and do not nest too deep. -/
theorem soundDocument?_compact {es : List (String × Json)} (h : ∀ e ∈ es, e.2.Expressible)
    (sound : (ofEntries es).isSound = true) (within : (ofEntries es).nesting ≤ nestingLimit) :
    soundDocument? (ofEntries es).compact = some (ofEntries es) := by
  have expressible : (ofEntries es).Expressible :=
    expressible_object (List.forall_mem_map.2 fun e he => ⟨rfl, h e he⟩)
  rw [soundDocument?, document?, read_compact expressible]
  simp [Option.filter, sound, within]

theorem sortedMembers_ofEntries (es : List (String × Json)) :
    sortedMembers (es.map (Prod.map some id)) = es.map (Prod.map id sorted) := by
  induction es with
  | nil => rfl
  | cons e es ih => rw [List.map_cons, List.map_cons, Prod.map, sortedMembers, ih]; rfl

end Json

theorem Value.ofJson?_sorted (j : Json) : ofJson? j.sorted = ofJson? j := by cases j <;> simp [Json.sorted, ofJson?]

theorem Value.isSome_ofJson? {j : Json} (h : j.isSound = true) : (ofJson? j).isSome = j.isPlain := by
  cases j with
  | number n => simpa [ofJson?, Json.isPlain, Json.isSound] using h
  | text t => simpa [ofJson?, Json.isPlain, Json.isSound] using h
  | _ => rfl

namespace Attributes

variable {text : String} {a : Attributes} {es : List (String × Json)} {vs : List (String × Value)}

/-- What entries give: each its name, and a value if it has one. -/
def readings (es : List (String × Json)) : List (String × Option Value) := es.map (Prod.map id Value.ofJson?)

/-- Names that all have a value. -/
def given (vs : List (String × Value)) : List (String × Option Value) := vs.map (Prod.map id some)

theorem ofList_readings : Record.ofList (readings es) = readings (Record.ofList es) := Record.ofList_map _

theorem ofList_given : Record.ofList (given vs) = given (Record.ofList vs) := Record.ofList_map _

/-- Sorting the members of objects inside of the values does not change what the values are. -/
theorem readings_sorted : readings (es.map (Prod.map id Json.sorted)) = readings es := by
  simp [readings, Value.ofJson?_sorted]

theorem exists_given : (∃ vs, readings es = given vs) ↔ ∀ e ∈ es, (Value.ofJson? e.2).isSome = true := by
  constructor
  · rintro ⟨vs, h⟩ e he
    have reading : (e.1, Value.ofJson? e.2) ∈ given vs := h ▸ List.mem_map_of_mem he
    obtain ⟨⟨_, v⟩, -, hv⟩ := List.mem_map.1 reading
    exact Option.isSome_iff_exists.2 ⟨v, (Prod.mk.inj hv).2.symm⟩
  · intro h
    have inRange : readings es ∈ Set.range (List.map (Prod.map id some)) := by
      rw [Set.range_list_map]
      intro x hx
      obtain ⟨e, he, rfl⟩ := List.mem_map.1 hx
      obtain ⟨v, hv⟩ := Option.isSome_iff_exists.1 (h e he)
      exact ⟨(e.1, v), by rw [Prod.map, Prod.map, hv]⟩
    obtain ⟨vs, hvs⟩ := inRange
    exact ⟨vs, hvs.symm⟩

/-! ## The readers -/

theorem ofRecord_eq_ok {r : Record Json} : ofRecord r = .ok a ↔ readings r = given a.entries := by
  rw [readings, given, map_eq_map_iff_forall₂, ofRecord, bind_eq_ok]
  constructor
  · rintro ⟨entries, h, ⟨⟩⟩
    refine (mapM_eq_ok_iff_forall₂.1 h).imp ?_
    rintro ⟨n, j⟩ ⟨n', v⟩ read
    cases hj : Value.ofJson? j <;> simp_all
  · intro h
    refine ⟨a.entries, mapM_eq_ok_iff_forall₂.2 (h.imp ?_), rfl⟩
    rintro ⟨n, j⟩ ⟨n', v⟩ read
    cases hj : Value.ofJson? j <;> simp_all

/-- Neither reader takes anything but a sound object. -/
theorem exists_entries_of_read (h : ofJson text = .ok a ∨ ofStrictJson? text = some a) :
    ∃ es, Json.soundDocument? text = some (.ofEntries es) := by
  unfold ofJson ofStrictJson? at h
  cases document : Json.soundDocument? text with
  | none => simp [document] at h
  | some j =>
    cases j with
    | object ms =>
      obtain ⟨es, hes⟩ := Json.exists_ofEntries (Json.isSound_of_soundDocument? document)
      exact ⟨es, congrArg some hes⟩
    | _ => simp [document, Json.sorted] at h

section Document

variable (document : Json.soundDocument? text = some (.ofEntries es))
include document

/-- The general reader takes the values that are left in a record, the last of each name. -/
theorem ofJson_eq_ok : ofJson text = .ok a ↔ readings (Record.ofList es) = given a.entries := by
  -- every key has its content, so that it is a name as it stands
  have named : (fun m : Json.Text × Json => (m.1.getD "", m.2)) ∘ (fun e : String × Json => (some e.1, e.2)) = id :=
    rfl
  unfold ofJson
  rw [document, Json.ofEntries, Option.map_some, Json.sorted, Json.sortedMembers_ofEntries]
  dsimp only
  rw [List.map_map, named, List.map_id, ofRecord_eq_ok, ← ofList_readings, readings_sorted, ofList_readings]

/-- The strict reader takes the values of all entries before it makes a record of them. -/
theorem ofStrictJson?_eq_some : ofStrictJson? text = some a ↔ ∃ vs, readings es = given vs ∧ .ofList vs = a := by
  have entry : ∀ (e : String × Json) (v : String × Value),
      (∃ n, some e.1 = some n ∧ ∃ v', Value.ofJson? e.2 = some v' ∧ (n, v') = v) ↔
      Prod.map id Value.ofJson? e = Prod.map id some v := by
    rintro ⟨n, j⟩ ⟨n', v⟩
    cases h : Value.ofJson? j <;> simp [h, and_comm]
  unfold ofStrictJson?
  rw [document, Json.ofEntries]
  simp only [Option.bind_eq_bind, Option.bind_eq_some_iff, mapM_eq_some_iff_forall₂, List.forall₂_map_left_iff,
    Option.pure_def, Option.some.injEq, readings, given, map_eq_map_iff_forall₂]
  constructor
  · rintro ⟨vs, hvs, rfl⟩
    exact ⟨vs, hvs.imp fun e v => (entry e v).1, rfl⟩
  · rintro ⟨vs, hvs, rfl⟩
    exact ⟨vs, hvs.imp fun e v => (entry e v).2, rfl⟩

/-- Entries that stand in the document give a value just if they are plain. -/
theorem exists_given_iff {es' : List (String × Json)} (hes : ∀ e ∈ es', e ∈ es) :
    (∃ vs, readings es' = given vs) ↔ ∀ e ∈ es', e.2.isPlain = true := by
  have sound := Json.isSound_ofEntries.1 (Json.isSound_of_soundDocument? document)
  rw [exists_given]
  exact forall₂_congr fun e he => by rw [Value.isSome_ofJson? (sound e (hes e he))]

theorem ofJson_accepts : (∃ a, ofJson text = .ok a) ↔ ∀ e, LastOf es e → e.2.isPlain = true := by
  have kept := exists_given_iff document fun e he => (Record.mem_ofList.1 he).mem
  simp only [Record.mem_ofList] at kept
  rw [← kept]
  constructor
  · rintro ⟨a, h⟩
    exact ⟨a.entries, (ofJson_eq_ok document).1 h⟩
  · rintro ⟨vs, hvs⟩
    exact ⟨⟨vs⟩, (ofJson_eq_ok document).2 hvs⟩

theorem ofStrictJson?_accepts : (∃ a, ofStrictJson? text = some a) ↔ ∀ e ∈ es, e.2.isPlain = true := by
  rw [← exists_given_iff document fun e he => he]
  constructor
  · rintro ⟨a, h⟩
    obtain ⟨vs, hvs, -⟩ := (ofStrictJson?_eq_some document).1 h
    exact ⟨vs, hvs⟩
  · rintro ⟨vs, hvs⟩
    exact ⟨.ofList vs, (ofStrictJson?_eq_some document).2 ⟨vs, hvs, rfl⟩⟩

/-- What the strict reader takes, the general one reads the same. -/
theorem ofJson_of_ofStrictJson? (h : ofStrictJson? text = some a) : ofJson text = .ok a := by
  obtain ⟨vs, hvs, rfl⟩ := (ofStrictJson?_eq_some document).1 h
  rw [ofJson_eq_ok document, ← ofList_readings, hvs, ofList_given]
  rfl

theorem mem_entries (h : ofJson text = .ok a) {n : String} {v : Value} :
    (n, v) ∈ a.entries ↔ ∃ j, LastOf es (n, j) ∧ Value.ofJson? j = some v := by
  have reading : (n, v) ∈ a.entries ↔ (n, some v) ∈ readings (Record.ofList es) := by
    rw [(ofJson_eq_ok document).1 h, given]
    simp
  rw [reading, readings]
  simp [Record.mem_ofList]

end Document

/-- The general reader takes an object just if the last value of each name is plain, and the strict one just if all
values are. What the strict reader takes is read the same by the general one: the last value of each name. -/
theorem readers_agree (text : String) :
    ((∃ a, ofJson text = .ok a) ↔
      ∃ es, Json.soundDocument? text = some (.ofEntries es) ∧ ∀ e, LastOf es e → e.2.isPlain = true) ∧
    ((∃ a, ofStrictJson? text = some a) ↔
      ∃ es, Json.soundDocument? text = some (.ofEntries es) ∧ ∀ e ∈ es, e.2.isPlain = true) ∧
    (∀ a, ofStrictJson? text = some a → ofJson text = .ok a) ∧
    ∀ a es, ofJson text = .ok a → Json.soundDocument? text = some (.ofEntries es) →
      ∀ n v, (n, v) ∈ a.entries ↔ ∃ j, LastOf es (n, j) ∧ Value.ofJson? j = some v := by
  refine ⟨⟨?_, ?_⟩, ⟨?_, ?_⟩, ?_, fun a es h document n v => mem_entries document h⟩
  · rintro ⟨a, h⟩
    obtain ⟨es, document⟩ := exists_entries_of_read (.inl h)
    exact ⟨es, document, (ofJson_accepts document).1 ⟨a, h⟩⟩
  · rintro ⟨es, document, plain⟩
    exact (ofJson_accepts document).2 plain
  · rintro ⟨a, h⟩
    obtain ⟨es, document⟩ := exists_entries_of_read (.inr h)
    exact ⟨es, document, (ofStrictJson?_accepts document).1 ⟨a, h⟩⟩
  · rintro ⟨es, document, plain⟩
    exact (ofStrictJson?_accepts document).2 plain
  · intro a h
    obtain ⟨es, document⟩ := exists_entries_of_read (.inr h)
    exact ofJson_of_ofStrictJson? document h

/-- A name that is given two values has the second in either reading. -/
theorem readers_agree_second_value :
    let text := "\x7b\"age\":35,\"vip\":true,\"age\":36\x7d"
    let es : List (String × Json) :=
      [("age", .number (.integer 35)), ("vip", .bool true), ("age", .number (.integer 36))]
    let a : Attributes := ⟨[("age", .number (.ofInt 36)), ("vip", .bool true)]⟩
    Json.soundDocument? text = some (.ofEntries es) ∧ ofStrictJson? text = some a ∧ ofJson text = .ok a ∧
      ∃ j, LastOf es ("age", j) ∧ Value.ofJson? j = some (.number (.ofInt 36)) := by
  intro text es a
  have document : Json.soundDocument? text = some (.ofEntries es) := by
    -- the text is the compact one of its entries, and so it is read back as these
    have written : text = (Json.ofEntries es).compact := by decide +kernel
    have expressible : ∀ e ∈ es, e.2.Expressible := by
      simp only [es, List.forall_mem_cons]
      exact ⟨Json.expressible_one rfl ⟨by decide, by decide⟩, Json.expressible_one rfl trivial,
        Json.expressible_one rfl ⟨by decide, by decide⟩, List.forall_mem_nil _⟩
    rw [written, Json.soundDocument?_compact expressible rfl (by decide)]
  let vs : List (String × Value) :=
    [("age", .number (.ofInt 35)), ("vip", .bool true), ("age", .number (.ofInt 36))]
  have strict : ofStrictJson? text = some a := (ofStrictJson?_eq_some document).2 ⟨vs, rfl, rfl⟩
  obtain ⟨-, -, same, values⟩ := readers_agree text
  have general := same a strict
  exact ⟨document, strict, general, (values a es general document _ _).1 (List.mem_cons_self ..)⟩

/-- An earlier value of a repeated name is passed over by the general reader, whatever it is. -/
theorem ofJson_passes_over_null :
    let text := "\x7b\"a\":null,\"a\":2\x7d"
    ofJson text = .ok ⟨[("a", .number (.ofInt 2))]⟩ ∧ ofStrictJson? text = none := by
  intro text
  let es : List (String × Json) := [("a", .null), ("a", .number (.integer 2))]
  have document : Json.soundDocument? text = some (.ofEntries es) := by
    have written : text = (Json.ofEntries es).compact := by decide +kernel
    have expressible : ∀ e ∈ es, e.2.Expressible := by
      simp only [es, List.forall_mem_cons]
      exact ⟨Json.expressible_null, Json.expressible_one rfl ⟨by decide, by decide⟩, List.forall_mem_nil _⟩
    rw [written, Json.soundDocument?_compact expressible rfl (by decide)]
  constructor
  · exact (ofJson_eq_ok document).2 rfl
  · have refused := mt (ofStrictJson?_accepts document).1 (by decide)
    exact Option.eq_none_iff_forall_ne_some.2 fun a h => refused ⟨a, h⟩

end Attributes
end Eligibility
