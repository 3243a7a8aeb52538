/-
Looking up entries by their ids, after an entry was put and after one was removed. The ids of a catalog stand
for the entries that are found; each stands once if it did before.
-/
import Eligibility.Proofs.Catalog.Calls
import Mathlib.Data.List.Nodup

namespace Eligibility.Catalog

variable {c : Catalog} {id : String}

theorem contains_iff : c.contains id = true ↔ ∃ e, c.get? id = some e := Option.isSome_iff_exists

theorem get?_eq_none : c.get? id = none ↔ c.contains id = false := by simp [contains]

theorem mem_ids : id ∈ c.ids ↔ c.contains id = true := by
  simp [ids, contains, get?, eq_comm (b := id)]

/-! ## Entries that are put -/

/-- An entry in the place of the one of its id is found under that id, if there was one, and no other entry
is found differently. -/
theorem get?_replaced (c : Catalog) (id id' : String) (e : Entry) :
    (⟨c.entries.map fun old => if old.1 = id then (id, e) else old⟩ : Catalog).get? id' =
      (c.get? id').map fun old => if id' = id then e else old := by
  have keys : ((fun p : String × Entry => decide (p.1 = id')) ∘ fun old => if old.1 = id then (id, e) else old) =
      fun p => decide (p.1 = id') := by
    funext p
    by_cases hp : p.1 = id <;> simp [hp]
  rw [get?, get?, List.find?_map, keys, Option.map_map, Option.map_map]
  cases hfind : c.entries.find? (fun p => decide (p.1 = id')) with
  | none => rfl
  | some p =>
    obtain rfl : p.1 = id' := by simpa using List.find?_some hfind
    by_cases hp : p.1 = id <;> simp [hp]

/-- An entry that was put is found under its id, and no other id finds anything else than before. -/
theorem get?_put (c : Catalog) (id id' : String) (e : Entry) :
    (c.put id e).get? id' = if id' = id then some e else c.get? id' := by
  unfold put
  split
  · rename_i present
    rw [get?_replaced]
    split
    · subst id'
      obtain ⟨old, hold⟩ := contains_iff.1 present
      rw [hold, Option.map_some]
    · exact Option.map_id'
  · rename_i absent
    have none := Option.map_eq_none_iff.1 (get?_eq_none.2 (eq_false_of_ne_true absent))
    by_cases hid : id' = id
    · subst id'
      simp [get?, List.find?_append, none]
    · simp [get?, List.find?_append, hid, eq_comm (b := id')]

/-- The id of an entry that is put comes last if it is new, and stays where it is if it is not. -/
theorem ids_put (c : Catalog) (id : String) (e : Entry) :
    (c.put id e).ids = if c.contains id then c.ids else c.ids ++ [id] := by
  unfold put
  split
  · simp only [ids, List.map_map]
    refine List.map_congr_left fun p _ => ?_
    by_cases hp : p.1 = id <;> simp [hp]
  · simp [ids]

theorem nodup_ids_put (h : c.ids.Nodup) (id : String) (e : Entry) : (c.put id e).ids.Nodup := by
  rw [ids_put]
  split
  · exact h
  · rename_i absent
    rw [← List.concat_eq_append]
    exact List.Nodup.concat (fun present => absent (mem_ids.1 present)) h

/-! ## Entries that are removed -/

/-- An id that was removed finds nothing, and the others find what they found. -/
theorem get?_removed (c : Catalog) (id id' : String) :
    (⟨c.entries.filter (·.1 ≠ id)⟩ : Catalog).get? id' = if id' = id then none else c.get? id' := by
  rw [get?, get?, List.find?_filter]
  split
  · subst id'
    simp
  · rename_i hid
    -- no entry of the other id is among those that are removed
    refine congrArg _ (congrArg (List.find? · c.entries) ?_)
    funext p
    by_cases hp : p.1 = id' <;> simp [hp, hid]

theorem nodup_ids_removed (h : c.ids.Nodup) (id : String) :
    (⟨c.entries.filter (·.1 ≠ id)⟩ : Catalog).ids.Nodup :=
  h.sublist (List.filter_sublist.map _)

end Eligibility.Catalog
