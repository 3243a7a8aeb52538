/-
Records, whose entries stand in the order of their names, each name once: setting an entry keeps them so, and what a
name finds is what it was set to last.
-/
import Eligibility.Attributes.Basic
import Mathlib.Data.List.Induction
import Mathlib.Data.String.Basic
import Mathlib.Tactic.SplitIfs

namespace Eligibility.Record

variable {α β : Type} {name : String} {value : α} {r : Record α} {e : String × α} {es : List (String × α)}

/-! ## Order -/

/-- The names stand in their order, each once. -/
def Sorted (r : Record α) : Prop := r.Pairwise (·.1 < ·.1)

/-- Setting an entry puts it in the place of the one of its name and leaves the others. -/
theorem mem_set_of_sorted (h : Sorted r) : e ∈ set name value r ↔ e = (name, value) ∨ e ∈ r ∧ e.1 ≠ name := by
  induction r with
  | nil => simp [set]
  | cons first rest ih =>
    obtain ⟨n, v⟩ := first
    obtain ⟨(behind : ∀ e ∈ rest, n < e.1), sorted⟩ := List.pairwise_cons.1 h
    -- the name belongs before the first entry, or is its name, or belongs behind it
    rw [set]
    split_ifs with before same
    · have ne : ∀ e ∈ (n, v) :: rest, e.1 ≠ name :=
        List.forall_mem_cons.2 ⟨before.ne', fun e he => (before.trans (behind e he)).ne'⟩
      rw [List.mem_cons]
      exact or_congr_right ⟨fun he => ⟨he, ne e he⟩, And.left⟩
    · subst same
      have ne : ∀ e ∈ rest, e.1 ≠ name := fun e he => (behind e he).ne'
      rw [List.mem_cons, List.mem_cons]
      refine or_congr_right ⟨fun he => ⟨.inr he, ne e he⟩, ?_⟩
      rintro ⟨rfl | he, hne⟩
      · exact absurd rfl hne
      · exact he
    · rw [List.mem_cons, ih sorted, List.mem_cons]
      constructor
      · rintro (rfl | rfl | ⟨he, hne⟩)
        · exact .inr ⟨.inl rfl, Ne.symm same⟩
        · exact .inl rfl
        · exact .inr ⟨.inr he, hne⟩
      · rintro (rfl | ⟨rfl | he, hne⟩)
        · exact .inr (.inl rfl)
        · exact .inl rfl
        · exact .inr (.inr ⟨he, hne⟩)

theorem sorted_set (h : Sorted r) : Sorted (set name value r) := by
  induction r with
  | nil => exact List.pairwise_singleton ..
  | cons first rest ih =>
    obtain ⟨n, v⟩ := first
    obtain ⟨behind, sorted⟩ := List.pairwise_cons.1 h
    rw [set]
    split_ifs with before same
    · exact List.pairwise_cons.2 ⟨List.forall_mem_cons.2 ⟨before, fun e he => before.trans (behind e he)⟩, h⟩
    · subst same
      exact List.pairwise_cons.2 ⟨behind, sorted⟩
    · refine List.pairwise_cons.2 ⟨fun e he => ?_, ih sorted⟩
      rcases (mem_set_of_sorted sorted).1 he with rfl | ⟨he, -⟩
      · exact lt_of_le_of_ne (not_lt.1 before) (Ne.symm same)
      · exact behind e he

theorem ofList_append_singleton : ofList (es ++ [e]) = set e.1 e.2 (ofList es) := by
  rw [ofList, List.foldl_append]
  rfl

/-- Whatever order the entries come in, the record of them is sorted. -/
theorem sorted_ofList : Sorted (ofList es) := by
  -- on the last entry, which is set last
  induction es using List.reverseRecOn with
  | nil => exact List.Pairwise.nil
  | append_singleton es last ih =>
    rw [ofList_append_singleton]
    exact sorted_set ih

theorem map_set (f : α → β) (r : Record α) :
    (set name value r).map (Prod.map id f) = set name (f value) (r.map (Prod.map id f)) := by
  induction r with
  | nil => rfl
  | cons first rest ih =>
    simp only [set, List.map_cons, Prod.map, id]
    split_ifs
    · rfl
    · rfl
    · rw [List.map_cons, ih]
      rfl

/-- Values may be changed in the record or before. -/
theorem ofList_map (f : α → β) : ofList (es.map (Prod.map id f)) = (ofList es).map (Prod.map id f) := by
  induction es using List.reverseRecOn with
  | nil => rfl
  | append_singleton es last ih =>
    rw [List.map_append, List.map_singleton, ofList_append_singleton, ofList_append_singleton, ih, map_set]
    rfl

/-! ## Lookup -/

theorem get?_cons (name name' : String) (value : α) (r : Record α) :
    get? ((name, value) :: r) name' = if name = name' then some value else get? r name' := by
  rw [get?, List.find?_cons]
  by_cases same : name = name'
  · simp [same]
  · simp [same, get?]

/-- A name that was set finds what it was set to, and any other what it found before. -/
theorem get?_set (name name' : String) (value : α) (r : Record α) :
    get? (set name value r) name' = if name = name' then some value else get? r name' := by
  induction r with
  | nil => exact get?_cons name name' value []
  | cons first rest ih =>
    obtain ⟨n, v⟩ := first
    rw [set]
    by_cases before : name < n
    · rw [if_pos before, get?_cons]
    · rw [if_neg before]
      by_cases same : name = n
      · subst same
        rw [if_pos rfl, get?_cons, get?_cons]
        split_ifs <;> rfl
      · rw [if_neg same, get?_cons, get?_cons, ih]
        by_cases found : n = name'
        · subst found
          rw [if_pos rfl, if_pos rfl, if_neg same]
        · rw [if_neg found, if_neg found]

theorem get?_of_forall_ne (h : ∀ e ∈ r, e.1 ≠ name) : get? r name = none := by
  induction r with
  | nil => rfl
  | cons first rest ih =>
    obtain ⟨ne, others⟩ := List.forall_mem_cons.1 h
    obtain ⟨n, v⟩ := first
    rw [get?_cons, if_neg ne, ih others]

theorem mem_of_get? (h : get? r name = some value) : (name, value) ∈ r := by
  obtain ⟨⟨n, v⟩, found, rfl⟩ := Option.map_eq_some_iff.1 h
  obtain rfl : n = name := by simpa using List.find?_some found
  exact List.mem_of_find?_eq_some found

end Eligibility.Record
