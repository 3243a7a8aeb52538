/-
Layers of settings, decided field by field. Putting a layer over others changes what they give a field only where the
layer gives it a value itself; so a run of layers gives a field what the last of them to give it does.
-/
import Eligibility.Proofs.Settings.Fields

namespace Eligibility

/-! ## Values over values -/

namespace Setting

variable {old es : Record Setting} {v : Setting}

theorem overlay_of_not_table (h : ∀ es, v ≠ .table es) (old : Setting) : overlay old v = v := by
  cases v with
  | table es => exact absurd rfl (h es)
  | _ => rfl

/-- A table over another gives a key what it says itself, or else what the other does. -/
theorem get?_overlayEntries {key : String} (sorted : Record.Sorted es)
    (leaf : ∀ v, Record.get? es key = some v → ∀ inner, v ≠ .table inner) :
    Record.get? (overlayEntries old es) key = (Record.get? es key).or (old.get? key) := by
  induction es generalizing old with
  | nil => rfl
  | cons e es ih =>
    obtain ⟨k, v⟩ := e
    obtain ⟨behind, sorted⟩ := List.pairwise_cons.1 sorted
    rw [Record.get?_cons] at leaf ⊢
    rw [overlayEntries]
    by_cases found : k = key
    · subst found
      -- no later entry has the key, and the value is no table to be merged
      have later : Record.get? es k = none := Record.get?_of_forall_ne fun e he => (behind e he).ne'
      rw [if_pos rfl] at leaf ⊢
      rw [ih sorted (by rw [later]; nofun), later, Record.get?_set, if_pos rfl, overlay_of_not_table (leaf v rfl)]
      rfl
    · rw [if_neg found] at leaf ⊢
      rw [ih sorted leaf, Record.get?_set, if_neg found]

end Setting

namespace Settings

variable {es : Record Setting} {f : Field} {k : String} {v : Setting}

/-! ## Fields of changed entries -/

namespace Field

/-- A value that can be taken for what a field may be is no table. -/
theorem not_table (h : (f.convert v).isSome) : ∀ inner, v ≠ .table inner := by
  rintro inner rfl
  cases f <;> cases h

theorem given?_cons (f : Field) (k : String) (v : Setting) (es : Record Setting) :
    f.given? ((k, v) :: es) = if k = f.top then f.pick? v else f.given? es := by
  rw [given?, Record.get?_cons]
  split_ifs <;> rfl

theorem given?_set (f : Field) (k : String) (v : Setting) (es : Record Setting) :
    f.given? (es.set k v) = if k = f.top then f.pick? v else f.given? es := by
  rw [given?, Record.get?_set]
  split_ifs <;> rfl

end Field

/-- A value fits the place that a key is: it is a table where the key leads to a table of fields, and what it gives to
fields can be taken for what these may be. -/
structure FitsAt (k : String) (v : Setting) : Prop where
  table : ∀ f : Field, f.inner?.isSome → k = f.top → ∃ inner, v = .table inner
  values : ∀ f : Field, k = f.top → ∀ w ∈ f.pick? v, (f.convert w).isSome

instance (v : Setting) : Decidable (∃ inner, v = .table inner) :=
  match v with
  | .table es => isTrue ⟨es, rfl⟩
  | .nothing | .bool _ | .integer _ | .real _ | .text _ | .list _ => isFalse nofun

instance (k : String) (v : Setting) : Decidable (FitsAt k v) :=
  decidable_of_iff
    ((∀ f : Field, f.inner?.isSome → k = f.top → ∃ inner, v = .table inner) ∧
      ∀ f : Field, k = f.top → ∀ w ∈ f.pick? v, (f.convert w).isSome)
    ⟨fun ⟨table, values⟩ => ⟨table, values⟩, fun ⟨table, values⟩ => ⟨table, values⟩⟩

/-- A value over what stands at its key gives a field what it says itself, or else what was given before. -/
theorem pick?_overlay (fits : FitsAt f.top v) (sorted : Record.Sorted v.entries) (es : Record Setting) :
    f.pick? (Setting.overlay ((es.get? f.top).getD .nothing) v) = (f.pick? v).or (f.given? es) := by
  cases inner : f.inner? with
  | none =>
    -- the key leads to one field, whose value is no table and so replaces what was there
    have whole : ∀ w, f.pick? w = some w := by
      intro w
      rw [Field.pick?, inner]
    have leaf : (f.convert v).isSome := fits.values f rfl v (whole v)
    rw [Setting.overlay_of_not_table (Field.not_table leaf), whole]
    rfl
  | some key =>
    -- the key leads to a table, which is merged with the one that was there
    have part : ∀ w, f.pick? w = w.entries.get? key := by
      intro w
      rw [Field.pick?, inner]
    obtain ⟨new, rfl⟩ := fits.table f (by rw [inner]; rfl) rfl
    have leaf : ∀ w, Record.get? new key = some w → ∀ es', w ≠ .table es' := fun w hw =>
      Field.not_table (fits.values f rfl w ((part _).trans hw))
    rw [part, part, Setting.overlay]
    refine (Setting.get?_overlayEntries sorted leaf).trans (congrArg _ ?_)
    rw [Field.given?]
    cases es.get? f.top with
    | none => rfl
    | some old => exact (part old).symm

/-! ## Runs of layers -/

/-- Layers put over the entries of others: tables stay where they belong, and a field is given what these layers give
it, or else what it was given before. -/
def Lays (layers : List Layer) (given : Field → Option Setting) : Prop :=
  ∀ es, Tabled es → ∃ es',
    layers.foldl (fun old layer => Setting.put layer.value layer.address old) (.table es) = .table es' ∧
    Tabled es' ∧ ∀ f : Field, f.given? es' = (given f).or (f.given? es)

variable {layers more : List Layer} {given given' : Field → Option Setting}

theorem lays_nil : Lays [] fun _ => none := fun es tabled => ⟨es, rfl, tabled, fun _ => rfl⟩

theorem Lays.append (h : Lays layers given) (h' : Lays more given') :
    Lays (layers ++ more) fun f => (given' f).or (given f) := by
  intro es tabled
  obtain ⟨es', put, tabled, fields⟩ := h es tabled
  obtain ⟨es'', put', tabled, fields'⟩ := h' es' tabled
  refine ⟨es'', ?_, tabled, fun f => ?_⟩
  · rw [List.foldl_append, put, put']
  · rw [fields', fields, Option.or_assoc]

/-- A layer at a key gives the fields that the key leads to what its value gives them. -/
theorem lays_key (fits : FitsAt k v) (sorted : Record.Sorted v.entries) :
    Lays [⟨[.key k], v⟩] fun f => f.given? [(k, v)] := by
  intro es tabled
  let new := Setting.overlay ((es.get? k).getD .nothing) v
  refine ⟨es.set k new, rfl, ?_, fun f => ?_⟩
  · intro f w hf hw
    rw [Record.get?_set] at hw
    split_ifs at hw with found
    · obtain ⟨inner, rfl⟩ := fits.table f hf found
      exact ⟨_, (Option.some.inj hw).symm⟩
    · exact tabled f w hf hw
  · show f.given? (es.set k new) = (f.given? [(k, v)]).or (f.given? es)
    rw [Field.given?_set, Field.given?_cons]
    split_ifs with found
    · subst found
      exact pick?_overlay fits sorted es
    · rfl

/-- A layer at a key that leads to no field gives none anything. -/
theorem lays_elsewhere (hk : ∀ f : Field, k ≠ f.top) (steps : Address) : Lays [⟨.key k :: steps, v⟩] fun _ => none := by
  intro es tabled
  let new := Setting.put v steps ((es.get? k).getD .nothing)
  refine ⟨es.set k new, rfl, ?_, fun f => ?_⟩
  · intro f w hf hw
    rw [Record.get?_set, if_neg (hk f)] at hw
    exact tabled f w hf hw
  · rw [Field.given?_set, if_neg (hk f)]
    rfl

/-- The entry that gives a field a value. -/
def Field.entry (f : Field) (v : Setting) : String × Setting :=
  (f.top, match f.inner? with
    | none => v
    | some key => .table [(key, v)])

theorem Field.given?_entry (f g : Field) (v : Setting) : g.given? [f.entry v] = if g = f then some v else none := by
  cases f <;> cases g <;> rfl

/-- A key leads to one field or to the fields of a table. -/
theorem Field.inner?_of_top {f g : Field} (h : f.top = g.top) : f.inner?.isSome = g.inner?.isSome := by
  revert f g
  decide

/-- The entry of a field fits its place if the value can be taken for what the field may be. -/
theorem fitsAt_entry (h : (f.convert v).isSome) : FitsAt (f.entry v).1 (f.entry v).2 := by
  constructor
  · intro g hg top
    obtain ⟨key, inner⟩ := Option.isSome_iff_exists.1 ((Field.inner?_of_top top).trans hg)
    refine ⟨[(key, v)], ?_⟩
    rw [Field.entry, inner]
  · intro g top w given
    have whole : g.given? [f.entry v] = some w := (g.given?_cons ..).trans ((if_pos top).trans given)
    rw [Field.given?_entry] at whole
    split_ifs at whole with same
    cases whole
    subst same
    exact h

theorem sorted_entry (h : (f.convert v).isSome) : Record.Sorted (f.entry v).2.entries := by
  have leaf : v.entries = [] := by
    cases v with
    | table es => exact absurd rfl (Field.not_table h es)
    | _ => rfl
  unfold Field.entry
  cases f.inner? with
  | none =>
    dsimp only
    rw [leaf]
    exact .nil
  | some key => exact List.pairwise_singleton ..

/-- A layer at the address of a field gives this field its value, and no other field anything. -/
theorem lays_field (h : (f.convert v).isSome) :
    Lays [⟨f.address, v⟩] fun g => if g = f then some v else none := by
  have address : ∀ old, Setting.put v f.address old = Setting.put (f.entry v).2 [.key (f.entry v).1] old := by
    intro old
    cases f <;> rfl
  have lays := lays_key (fitsAt_entry h) (sorted_entry h)
  intro es tabled
  obtain ⟨es', put, tabled, fields⟩ := lays es tabled
  refine ⟨es', ?_, tabled, fun g => ?_⟩
  · rw [← put]
    exact address _
  · rw [fields]
    exact congrArg (Option.or · _) (f.given?_entry g v)

end Settings

end Eligibility
