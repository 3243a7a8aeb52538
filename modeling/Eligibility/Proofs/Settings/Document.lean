/-
The keys of a TOML document. A line changes a table in one way only: it sets one key, to a value or to a table that has
been changed in the same way. Main statement: the keys of a document stand in their order, each once, and so do those of
the tables at them.
-/
import Eligibility.Proofs.Attributes.Record
import Eligibility.Settings.Toml.Document

namespace Eligibility.Toml

variable {es es' : Record Item} {k : String} {item : Item} {v : Setting} {path : List String}

theorem settingsOf_eq_map (es : Record Item) : settingsOf es = es.map (Prod.map id Item.toSetting) := by
  induction es with
  | nil => rfl
  | cons e es ih => rw [settingsOf, ih]; rfl

theorem sorted_settingsOf : Record.Sorted (settingsOf es) ↔ Record.Sorted es := by
  rw [settingsOf_eq_map, Record.Sorted, List.pairwise_map]
  rfl

/-! ## Changes to a table -/

/-- A table with its keys in order, in which those of the tables at them are in order too. -/
structure Orderly (es : Record Item) : Prop where
  keys : Record.Sorted es
  inner : ∀ e ∈ es, Record.Sorted e.2.toSetting.entries

theorem orderly_nil : Orderly [] := ⟨.nil, nofun⟩

theorem Orderly.table {origin : Origin} {inner : Record Item} (h : Orderly es)
    (found : es.get? k = some (.table origin inner)) : Record.Sorted inner :=
  sorted_settingsOf.1 (h.inner _ (Record.mem_of_get? found))

/-- A change to a table sets one of its keys; what it sets it to has its own keys in order if the table was orderly. -/
def SetsKey (change : Record Item → Option (Record Item)) : Prop :=
  ∀ es es', change es = some es' →
    ∃ k item, es' = es.set k item ∧ (Orderly es → Record.Sorted (Item.toSetting item).entries)

section SetsKey

variable {change : Record Item → Option (Record Item)}

theorem SetsKey.sorted (h : SetsKey change) (sorted : Record.Sorted es) (hc : change es = some es') :
    Record.Sorted es' := by
  obtain ⟨k, item, rfl, -⟩ := h es es' hc
  exact Record.sorted_set sorted

/-- A change that sets one key to something orderly keeps a table orderly. -/
theorem SetsKey.orderly (h : SetsKey change) (orderly : Orderly es) (hc : change es = some es') : Orderly es' := by
  obtain ⟨k, item, rfl, set⟩ := h es es' hc
  refine ⟨Record.sorted_set orderly.keys, fun e he => ?_⟩
  rcases (Record.mem_set_of_sorted orderly.keys).1 he with rfl | ⟨he, -⟩
  · exact set orderly
  · exact orderly.inner e he

theorem setsKey_enter (hc : SetsKey change) (k : String) : SetsKey (enter change k) := by
  intro es es' h
  unfold enter at h
  split at h
  · obtain ⟨inner, changed, rfl⟩ := Option.map_eq_some_iff.1 h
    exact ⟨k, _, rfl, fun _ => sorted_settingsOf.2 (hc.sorted .nil changed)⟩
  · rename_i origin inner found
    obtain ⟨inner, changed, rfl⟩ := Option.map_eq_some_iff.1 h
    exact ⟨k, _, rfl, fun orderly => sorted_settingsOf.2 (hc.sorted (orderly.table found) changed)⟩
  · obtain ⟨last, -, rfl⟩ := Option.map_eq_some_iff.1 h
    exact ⟨k, _, rfl, fun _ => .nil⟩
  · cases h

/-- So does a change at the end of a path, whatever tables are made or entered on the way. -/
theorem setsKey_under (hc : SetsKey change) : ∀ path, SetsKey (under change path)
  | [] => hc
  | k :: ks => setsKey_enter (setsKey_under hc ks) k

end SetsKey

theorem setsKey_openTable : ∀ path, SetsKey (openTable path)
  | [] => nofun
  | [k] => by
    intro es es' h
    simp only [openTable] at h
    split at h
    · cases h
      exact ⟨k, _, rfl, fun _ => .nil⟩
    · rename_i inner found
      cases h
      exact ⟨k, _, rfl, fun orderly => sorted_settingsOf.2 (orderly.table found)⟩
    · cases h
  | k :: k' :: ks => setsKey_enter (setsKey_openTable (k' :: ks)) k

theorem setsKey_openSeries : ∀ path, SetsKey (openSeries path)
  | [] => nofun
  | [k] => by
    intro es es' h
    simp only [openSeries] at h
    split at h
    · cases h
      exact ⟨k, _, rfl, fun _ => .nil⟩
    · cases h
      exact ⟨k, _, rfl, fun _ => .nil⟩
    · cases h
  | k :: k' :: ks => setsKey_enter (setsKey_openSeries (k' :: ks)) k

/-- Inserting a value sets the first key of its path, to the value or to a table that it was inserted into. -/
theorem setsKey_insert (hv : Record.Sorted v.entries) (path : List String) : SetsKey (insert v path) := by
  induction path with
  | nil => nofun
  | cons k ks deeper =>
    intro es es' h
    cases ks with
    | nil =>
      rw [insert] at h
      split_ifs at h
      cases h
      exact ⟨k, _, rfl, fun _ => hv⟩
    | cons k' ks =>
      rw [insert.eq_def] at h
      dsimp only at h
      split at h
      · obtain ⟨inner, inserted, rfl⟩ := Option.map_eq_some_iff.1 h
        exact ⟨k, _, rfl, fun _ => sorted_settingsOf.2 (deeper.sorted .nil inserted)⟩
      · rename_i origin inner found
        split_ifs at h
        obtain ⟨inner, inserted, rfl⟩ := Option.map_eq_some_iff.1 h
        exact ⟨k, _, rfl, fun orderly => sorted_settingsOf.2 (deeper.sorted (orderly.table found) inserted)⟩
      · split_ifs at h
        obtain ⟨last, -, rfl⟩ := Option.map_eq_some_iff.1 h
        exact ⟨k, _, rfl, fun _ => .nil⟩
      · cases h

/-! ## Documents -/

/-- What every step keeps is kept by all steps together, if none of them fails. -/
theorem foldlM_invariant {α β : Type} {P : β → Prop} {f : β → α → Option β} {b b' : β} {xs : List α}
    (step : ∀ b x b', P b → f b x = some b' → P b') (h : P b) (hfold : xs.foldlM f b = some b') : P b' := by
  induction xs generalizing b with
  | nil =>
    cases hfold
    exact h
  | cons x xs ih =>
    obtain ⟨next, hx, hrest⟩ := Option.bind_eq_some_iff.1 (List.foldlM_cons.symm.trans hfold)
    exact ih (step b x next h hx) hrest

theorem entries_of_scalar? {cs : List Char} (h : scalar? cs = some v) : v.entries = [] := by
  unfold scalar? at h
  split_ifs at h
  · cases h; rfl
  · cases h; rfl
  · split at h <;> cases h <;> rfl

/-- The keys of a table in braces are set one after the other: by induction on the room, which is less inside. -/
theorem sorted_of_value? (room : ℕ) {xs : List Lexeme} {v : Setting} (h : value? room xs = some v) :
    Record.Sorted v.entries := by
  unfold value? at h
  split at h
  · cases h
    exact .nil
  · obtain ⟨inner, -, h⟩ := Option.bind_eq_some_iff.1 h
    obtain ⟨items, -, ⟨⟩⟩ := Option.bind_eq_some_iff.1 h
    exact .nil
  · obtain ⟨inner, -, h⟩ := Option.bind_eq_some_iff.1 h
    obtain ⟨entries, folded, ⟨⟩⟩ := Option.bind_eq_some_iff.1 h
    -- inside of braces only the order is kept, which is all that can be asked of a value
    refine sorted_settingsOf.2 (foldlM_invariant (P := Record.Sorted) (fun es part es' sorted step => ?_) .nil folded)
    obtain ⟨⟨path, rest⟩, -, step⟩ := Option.bind_eq_some_iff.1 step
    obtain ⟨v, value, inserted⟩ := Option.bind_eq_some_iff.1 step
    exact (setsKey_insert (sorted_of_value? _ value) path).sorted sorted inserted
  · obtain ⟨cs, -, scalar⟩ := Option.bind_eq_some_iff.1 h
    rw [entries_of_scalar? scalar]
    exact .nil
termination_by room

/-- A line keeps the document orderly: it is blank, opens a table or a series, or sets a key under its header. -/
theorem Orderly.readLine {r r' : Reading} {line : List Lexeme} (h : Orderly r.entries)
    (hr : Toml.readLine r line = some r') : Orderly r'.entries := by
  unfold Toml.readLine at hr
  split at hr
  · cases hr
    exact h
  · obtain ⟨outer, -, hr⟩ := Option.bind_eq_some_iff.1 hr
    obtain ⟨inner, -, hr⟩ := Option.bind_eq_some_iff.1 hr
    obtain ⟨path, -, hr⟩ := Option.bind_eq_some_iff.1 hr
    obtain ⟨es, opened, ⟨⟩⟩ := Option.bind_eq_some_iff.1 hr
    exact (setsKey_openSeries path).orderly h opened
  · obtain ⟨inner, -, hr⟩ := Option.bind_eq_some_iff.1 hr
    obtain ⟨path, -, hr⟩ := Option.bind_eq_some_iff.1 hr
    obtain ⟨es, opened, ⟨⟩⟩ := Option.bind_eq_some_iff.1 hr
    exact (setsKey_openTable path).orderly h opened
  · obtain ⟨⟨path, rest⟩, -, hr⟩ := Option.bind_eq_some_iff.1 hr
    obtain ⟨v, value, hr⟩ := Option.bind_eq_some_iff.1 hr
    obtain ⟨es, inserted, ⟨⟩⟩ := Option.bind_eq_some_iff.1 hr
    exact (setsKey_under (setsKey_insert (sorted_of_value? _ value) path) r.header).orderly h inserted

/-- The keys of a document stand in their order, each once, and so do those of the tables at them. -/
theorem sorted_of_read? {text : String} {es : Record Setting} (h : read? text = some es) :
    Record.Sorted es ∧ ∀ e ∈ es, Record.Sorted e.2.entries := by
  obtain ⟨lexemes, -, h⟩ := Option.bind_eq_some_iff.1 h
  obtain ⟨r, read, ⟨⟩⟩ := Option.bind_eq_some_iff.1 h
  have orderly : Orderly r.entries :=
    foldlM_invariant (P := fun r => Orderly r.entries) (fun _ _ _ h step => h.readLine step) orderly_nil read
  refine ⟨sorted_settingsOf.2 orderly.keys, ?_⟩
  rw [settingsOf_eq_map]
  exact List.forall_mem_map.2 orderly.inner

end Eligibility.Toml
