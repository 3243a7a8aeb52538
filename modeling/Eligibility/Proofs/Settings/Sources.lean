/-
The sources of settings. Files and variables are plain if their values fit the fields that they name. Main statement:
settings are read from plain sources whatever else these have, and each field is what the last source to give it says:
the common file, the file of the environment, that of the service and the variables come in this order.
-/
import Eligibility.Proofs.Settings.Document
import Eligibility.Proofs.Settings.Layers

namespace Eligibility

namespace Settings

variable {es : Record Setting} {v : Setting}

/-! ## Files -/

/-- An entry of a file is plain if its value fits its key, and if the key is no address by which a field can be reached,
unless it is that key alone. -/
structure PlainEntry (e : String × Setting) : Prop where
  key : ∀ f : Field, (Address.ofText e.1.toList).head? = some (.key f.top) → Address.ofText e.1.toList = [.key e.1]
  fits : FitsAt e.1 e.2

instance (e : String × Setting) : Decidable (PlainEntry e) :=
  decidable_of_iff
    ((∀ f : Field, (Address.ofText e.1.toList).head? = some (.key f.top) → Address.ofText e.1.toList = [.key e.1]) ∧
      FitsAt e.1 e.2)
    ⟨fun ⟨key, fits⟩ => ⟨key, fits⟩, fun ⟨key, fits⟩ => ⟨key, fits⟩⟩

theorem ofText_top (f : Field) : Address.ofText f.top.toList = [.key f.top] := by
  cases f <;> rfl

/-- An address begins with a key: a text that cannot be taken apart is a key as a whole. -/
theorem exists_ofText (cs : List Char) : ∃ k steps, Address.ofText cs = .key k :: steps := by
  unfold Address.ofText
  cases parsed : Address.parse? cs with
  | none => exact ⟨_, _, rfl⟩
  | some address =>
    unfold Address.parse? at parsed
    split at parsed
    · cases parsed
    · obtain ⟨k, -, parsed⟩ := Option.bind_eq_some_iff.1 parsed
      obtain ⟨steps, -, ⟨⟩⟩ := Option.bind_eq_some_iff.1 parsed
      exact ⟨k, steps, rfl⟩

theorem lays_entry {e : String × Setting} (plain : PlainEntry e) (sorted : Record.Sorted e.2.entries) :
    Lays [⟨Address.ofText e.1.toList, e.2⟩] fun f => f.given? [e] := by
  obtain ⟨k, steps, address⟩ := exists_ofText e.1.toList
  by_cases leads : ∃ f : Field, k = f.top
  · obtain ⟨f, rfl⟩ := leads
    rw [plain.key f (by rw [address]; rfl)]
    exact lays_key plain.fits sorted
  · -- a key with a field at it alone would be one that leads to fields
    have elsewhere : ∀ f : Field, k ≠ f.top := fun f h => leads ⟨f, h⟩
    have nothing : (fun f : Field => f.given? [e]) = fun _ => none := by
      funext f
      rw [Field.given?_cons, if_neg]
      · rfl
      · intro same
        rw [same, ofText_top] at address
        cases address
        exact elsewhere f rfl
    rw [nothing, address]
    exact lays_elsewhere elsewhere steps

/-- The layers of a plain file give a field what the file has for it. -/
theorem lays_file {es : Record Setting} (plain : ∀ e ∈ es, PlainEntry e) (sorted : Record.Sorted es)
    (inner : ∀ e ∈ es, Record.Sorted e.2.entries) :
    Lays (es.map fun e => ⟨Address.ofText e.1.toList, e.2⟩) fun f => f.given? es := by
  induction es with
  | nil => exact lays_nil
  | cons e es ih =>
    obtain ⟨first, others⟩ := List.forall_mem_cons.1 plain
    obtain ⟨firstInner, inner⟩ := List.forall_mem_cons.1 inner
    obtain ⟨behind, sorted⟩ := List.pairwise_cons.1 sorted
    have lays := (lays_entry first firstInner).append (ih others sorted inner)
    have fields : (fun f : Field => f.given? (e :: es)) = fun f => (f.given? es).or (f.given? [e]) := by
      funext f
      rw [Field.given?_cons, Field.given?_cons]
      split_ifs with found
      · -- keys are in order, so that one found first is not found again behind
        have later : Record.get? es f.top = none :=
          Record.get?_of_forall_ne fun e' he => found ▸ (behind e' he).ne'
        rw [Field.given?, later]
        rfl
      · exact Option.or_none.symm
    rw [fields]
    exact lays

/-! ## Variables -/

/-- A variable is plain if it does not lead to where fields are, or if it names a field and its value fits. -/
def PlainVariable (x : String × String) : Prop :=
  ∀ a ∈ addressOfVariable? x.1, (∃ f : Field, a.head? = some (.key f.top)) →
    ∃ f : Field, a = f.address ∧ (f.convert (ofVariable x.2)).isSome

instance (x : String × String) : Decidable (PlainVariable x) := by
  unfold PlainVariable
  infer_instance

/-- The value that variables give a field, the last of those that name it. -/
def Field.inVariables? (f : Field) (vars : List (String × String)) : Option Setting :=
  ((vars.filter fun x => addressOfVariable? x.1 = some f.address).getLast?).map fun x => ofVariable x.2

variable {x : String × String} {vars : List (String × String)}

theorem Field.eq_of_address {f g : Field} (h : f.address = g.address) : f = g := by
  cases f <;> cases g <;> first | rfl | exact absurd h (by decide)

theorem Field.inVariables?_singleton (f : Field) (x : String × String) :
    f.inVariables? [x] = if addressOfVariable? x.1 = some f.address then some (ofVariable x.2) else none := by
  unfold inVariables?
  rw [List.filter_singleton]
  split_ifs <;> simp_all

theorem exists_of_addressOfVariable? {name : String} {a : Address} (h : addressOfVariable? name = some a) :
    ∃ k steps, a = .key k :: steps := by
  unfold addressOfVariable? at h
  dsimp only at h
  split_ifs at h
  cases h
  exact exists_ofText _

theorem lays_variable (plain : PlainVariable x) : Lays (variableLayers [x]) fun f => f.inVariables? [x] := by
  simp only [Field.inVariables?_singleton]
  cases named : addressOfVariable? x.1 with
  | none =>
    have nothing : variableLayers [x] = [] := by simp [variableLayers, named]
    rw [nothing]
    exact lays_nil
  | some a =>
    have one : variableLayers [x] = [⟨a, ofVariable x.2⟩] := by simp [variableLayers, named]
    rw [one]
    by_cases leads : ∃ f : Field, a.head? = some (.key f.top)
    · obtain ⟨f, rfl, fits⟩ := plain a named leads
      have same : ∀ g : Field, some f.address = some g.address ↔ g = f := fun g =>
        ⟨fun h => (Field.eq_of_address (Option.some.inj h)).symm, fun h => h ▸ rfl⟩
      simp only [same]
      exact lays_field fits
    · have other : ∀ f : Field, some a ≠ some f.address := by
        rintro f ⟨⟩
        exact leads ⟨f, rfl⟩
      obtain ⟨k, steps, rfl⟩ := exists_of_addressOfVariable? named
      simp only [if_neg (other _)]
      exact lays_elsewhere (fun f h => leads ⟨f, congrArg (fun k => some (AddressStep.key k)) h⟩) steps

/-- Plain variables give a field what the last of them to name it says. -/
theorem lays_variables (plain : ∀ x ∈ vars, PlainVariable x) :
    Lays (variableLayers vars) fun f => f.inVariables? vars := by
  induction vars with
  | nil => exact lays_nil
  | cons x vars ih =>
    obtain ⟨first, others⟩ := List.forall_mem_cons.1 plain
    have lays := (lays_variable first).append (ih others)
    have fields : (fun f : Field => f.inVariables? (x :: vars)) =
        fun f => (f.inVariables? vars).or (f.inVariables? [x]) := by
      funext f
      unfold Field.inVariables?
      rw [← List.singleton_append, List.filter_append, List.getLast?_append, Option.map_or]
    have layers : variableLayers (x :: vars) = variableLayers [x] ++ variableLayers vars := by
      rw [variableLayers, ← List.singleton_append, List.filterMap_append]
      rfl
    rw [fields, layers]
    exact lays

/-! ## All sources -/

/-- `Holds file? name es`: the file of a name has the entries `es`. It has none where there is no such file, and a name
with nothing before the extension is no file's. -/
inductive Holds (file? : String → Option String) (name : String) : Record Setting → Prop
  | stemless (stem : hasStem name = false) : Holds file? name []
  | absent (file : file? s!"{name}.toml" = none) : Holds file? name []
  | present {text : String} {es : Record Setting} (stem : hasStem name = true)
      (file : file? s!"{name}.toml" = some text) (read : Toml.read? text = some es) : Holds file? name es

/-- What the sources of settings have: the entries of three files, and variables. -/
structure Sources where
  common : Record Setting
  ofEnvironment : Record Setting
  ofService : Record Setting
  vars : List (String × String)

namespace Sources

/-- The value that sources give a field, that of the last of them to give it one. -/
def given? (s : Sources) (f : Field) : Option Setting :=
  (f.inVariables? s.vars).or ((f.given? s.ofService).or ((f.given? s.ofEnvironment).or (f.given? s.common)))

/-- All that the sources have is plain. -/
structure Plain (s : Sources) : Prop where
  common : ∀ e ∈ s.common, PlainEntry e
  ofEnvironment : ∀ e ∈ s.ofEnvironment, PlainEntry e
  ofService : ∀ e ∈ s.ofService, PlainEntry e
  vars : ∀ x ∈ s.vars, PlainVariable x

instance (s : Sources) : Decidable s.Plain :=
  decidable_of_iff
    ((∀ e ∈ s.common, PlainEntry e) ∧ (∀ e ∈ s.ofEnvironment, PlainEntry e) ∧ (∀ e ∈ s.ofService, PlainEntry e) ∧
      ∀ x ∈ s.vars, PlainVariable x)
    ⟨fun ⟨common, ofEnvironment, ofService, vars⟩ => ⟨common, ofEnvironment, ofService, vars⟩,
      fun ⟨common, ofEnvironment, ofService, vars⟩ => ⟨common, ofEnvironment, ofService, vars⟩⟩

/-- What a field is by the sources: the value that the last of them gives it, or else what the caller named or the
default. It is nothing where that value cannot be taken for what the field may be. -/
def content? (s : Sources) (service environment : String) (f : Field) : Option f.Content :=
  (s.given? f).elim (some (f.of { default with serviceName := service, environment := environment })) f.convert

/-- The sources have the files of a service in an environment. -/
structure HeldBy (s : Sources) (file? : String → Option String) (service environment : String) : Prop where
  common : Holds file? "default" s.common
  ofEnvironment : Holds file? environment s.ofEnvironment
  ofService : Holds file? service s.ofService

end Sources

variable {file? : String → Option String} {name service environment : String} {s : Sources}

theorem lays_of_holds (holds : Holds file? name es) (plain : ∀ e ∈ es, PlainEntry e) :
    ∃ layers, fileLayers? file? name = some layers ∧ Lays layers fun f => f.given? es := by
  cases holds with
  | stemless stem =>
    refine ⟨[], ?_, lays_nil⟩
    rw [fileLayers?, stem]
    rfl
  | absent file =>
    refine ⟨[], ?_, lays_nil⟩
    rw [fileLayers?, file]
    split_ifs <;> rfl
  | present stem file read =>
    obtain ⟨sorted, inner⟩ := Toml.sorted_of_read? read
    refine ⟨_, ?_, lays_file plain sorted inner⟩
    rw [fileLayers?, if_pos stem, file]
    dsimp only
    rw [read]
    rfl

theorem fits_of_plain {f : Field} (plain : ∀ e ∈ es, PlainEntry e) (h : f.given? es = some v) :
    (f.convert v).isSome := by
  obtain ⟨w, found, picked⟩ := Option.bind_eq_some_iff.1 h
  exact (plain _ (Record.mem_of_get? found)).fits.values f rfl v picked

theorem fits_of_plain_variables {f : Field} (plain : ∀ x ∈ vars, PlainVariable x)
    (h : f.inVariables? vars = some v) : (f.convert v).isSome := by
  obtain ⟨x, last, rfl⟩ := Option.map_eq_some_iff.1 h
  obtain ⟨hx, named⟩ := List.mem_filter.1 (List.mem_of_getLast? last)
  obtain ⟨g, same, fits⟩ := plain x hx f.address (of_decide_eq_true named) ⟨f, rfl⟩
  cases Field.eq_of_address same
  exact fits

theorem Sources.Plain.fits {f : Field} (plain : s.Plain) (h : s.given? f = some v) : (f.convert v).isSome := by
  rcases Option.or_eq_some_iff.1 h with h | ⟨-, h⟩
  · exact fits_of_plain_variables plain.vars h
  rcases Option.or_eq_some_iff.1 h with h | ⟨-, h⟩
  · exact fits_of_plain plain.ofService h
  rcases Option.or_eq_some_iff.1 h with h | ⟨-, h⟩
  · exact fits_of_plain plain.ofEnvironment h
  · exact fits_of_plain plain.common h

theorem eq_of_fields {s s' : Settings} (h : ∀ f : Field, f.of s = f.of s') : s = s' := by
  obtain ⟨name, environment, ⟨policy, dedup, trace, depth⟩, ⟨level, json⟩⟩ := s
  obtain ⟨name', environment', ⟨policy', dedup', trace', depth'⟩, ⟨level', json'⟩⟩ := s'
  obtain rfl : name = name' := h .serviceName
  obtain rfl : environment = environment' := h .environment
  obtain rfl : policy = policy' := h .defaultPolicy
  obtain rfl : dedup = dedup' := h .dedup
  obtain rfl : trace = trace' := h .trace
  obtain rfl : depth = depth' := h .maxDepth
  obtain rfl : level = level' := h .logLevel
  obtain rfl : json = json' := h .jsonLogs
  rfl

/-- What the caller names, given to its fields. -/
def named? (service environment : String) (f : Field) : Option Setting :=
  (if f = .serviceName then some (.text service) else none).or
    (if f = .environment then some (.text environment) else none)

theorem fits_of_named? {f : Field} (h : named? service environment f = some v) : (f.convert v).isSome := by
  cases f <;> cases h <;> rfl

theorem elim_named? (f : Field) :
    (named? service environment f).elim (some (f.of default)) f.convert =
      some (f.of { default with serviceName := service, environment := environment }) := by
  cases f <;> rfl

/-- The layers of all sources, in their order. -/
theorem lays_sources (held : s.HeldBy file? service environment) (plain : s.Plain) :
    ∃ es, load? file? s.vars service environment = ofEntries? es ∧ Tabled es ∧
      ∀ f : Field, f.given? es = (s.given? f).or (named? service environment f) := by
  obtain ⟨first, readFirst, laysFirst⟩ := lays_of_holds held.common plain.common
  obtain ⟨second, readSecond, laysSecond⟩ := lays_of_holds held.ofEnvironment plain.ofEnvironment
  obtain ⟨third, readThird, laysThird⟩ := lays_of_holds held.ofService plain.ofService
  -- what the caller names lies lowest, the variables uppermost
  have laysNamed := (lays_field (f := .environment) (v := .text environment) rfl).append
    (lays_field (f := .serviceName) (v := .text service) rfl)
  have laysFiles := ((laysNamed.append laysFirst).append laysSecond).append laysThird
  have lays := laysFiles.append (lays_variables plain.vars)
  obtain ⟨es, put, tabled, fields⟩ := lays [] (fun _ _ _ h => nomatch h)
  refine ⟨es, ?_, tabled, fun f => ?_⟩
  · have files : ["default", environment, service].mapM (fileLayers? file?) = some [first, second, third] := by
      simp [readFirst, readSecond, readThird]
    have inTurn : ∀ l l' : Layer, [l, l'] ++ [first, second, third].flatten ++ variableLayers s.vars =
        [l] ++ [l'] ++ first ++ second ++ third ++ variableLayers s.vars := by
      intro l l'
      simp
    rw [load?, files]
    change ofEntries? (merged _) = _
    rw [inTurn, merged]
    exact congrArg (fun v => ofEntries? v.entries) put
  · rw [fields]
    change Option.or _ none = _
    simp only [Option.or_none, Sources.given?, named?, Option.or_assoc]

/-- Plain sources make settings, in which each field is what the sources make it. -/
theorem exists_settings_of_sources (held : s.HeldBy file? service environment) (plain : s.Plain) :
    ∃ settings, load? file? s.vars service environment = some settings ∧
      ∀ f : Field, some (f.of settings) = s.content? service environment f := by
  obtain ⟨es, loaded, tabled, given⟩ := lays_sources held plain
  have fits : Fits es := by
    intro f v hv
    rcases Option.or_eq_some_iff.1 ((given f).symm.trans hv) with hv | ⟨-, hv⟩
    · exact plain.fits hv
    · exact fits_of_named? hv
  obtain ⟨settings, made, fields⟩ := exists_settings tabled fits
  refine ⟨settings, loaded.trans made, fun f => ?_⟩
  rw [fields, given, Sources.content?]
  cases s.given? f with
  | some v => rfl
  | none => exact elim_named? f

/-- Settings of plain sources, field by field. Whatever the sources have, there are settings, in which each field is
what the last source to give it says, taken for what the field may be; where none gives it, the field is what the caller
named, or its default. Nothing else that sources have counts. -/
theorem load?_field_by_field (held : s.HeldBy file? service environment) (plain : s.Plain) :
    (∃ settings, load? file? s.vars service environment = some settings ∧
      ∀ f : Field, some (f.of settings) = s.content? service environment f) ∧
    ∀ (file?' : String → Option String) (s' : Sources), s'.HeldBy file?' service environment → s'.Plain →
      (∀ f : Field, s'.given? f = s.given? f) →
      load? file?' s'.vars service environment = load? file? s.vars service environment := by
  obtain ⟨settings, loaded, fields⟩ := exists_settings_of_sources held plain
  refine ⟨⟨settings, loaded, fields⟩, fun file?' s' held' plain' alike => ?_⟩
  obtain ⟨settings', loaded', fields'⟩ := exists_settings_of_sources held' plain'
  have same : settings' = settings := eq_of_fields fun f => by
    have contents := fields' f
    rw [Sources.content?, alike f] at contents
    exact Option.some.inj (contents.trans (fields f).symm)
  rw [loaded, loaded', same]

/-- Two files and a variable for one table. The file of the service changes one key of the common file and leaves the
others, of which one is no field; the variable that names the environment gives no field anything. -/
theorem load?_common_and_service_file :
    let common := "[engine]\ndefault_policy = \"and\"\ndedup = true\nmax_depth = 64\ncolour = 1\n"
    let own := "[engine]\ndedup = false\n"
    let file? (name : String) : Option String :=
      if name = "default.toml" then some common else if name = "rule-engine.toml" then some own else none
    let vars := [("RULE_ENGINE_ENV", "test"), ("RULE_ENGINE_ENGINE__TRACE", "true")]
    ∃ settings, load? file? vars "rule-engine" "test" = some settings ∧ settings.environment = "test" ∧
      settings.engine.defaultPolicy = "and" ∧ settings.engine.dedup = false ∧ settings.engine.trace = true ∧
      settings.engine.maxDepth = 64 := by
  intro common own file? vars
  have checked : (Toml.read? common).any fun common => (Toml.read? own).any fun own =>
      let s : Sources := ⟨common, [], own, vars⟩
      decide (s.Plain ∧ s.content? "rule-engine" "test" .environment = some "test" ∧
        s.content? "rule-engine" "test" .defaultPolicy = some "and" ∧
        s.content? "rule-engine" "test" .dedup = some false ∧ s.content? "rule-engine" "test" .trace = some true ∧
        s.content? "rule-engine" "test" .maxDepth = some 64) := by decide +kernel
  obtain ⟨esCommon, readCommon, checked⟩ := (Option.any_eq_true _ _).1 checked
  obtain ⟨esOwn, readOwn, checked⟩ := (Option.any_eq_true _ _).1 checked
  obtain ⟨plain, environment, policy, dedup, trace, depth⟩ := of_decide_eq_true checked
  have held : Sources.HeldBy ⟨esCommon, [], esOwn, vars⟩ file? "rule-engine" "test" :=
    ⟨.present rfl rfl readCommon, .absent rfl, .present rfl rfl readOwn⟩
  obtain ⟨⟨settings, loaded, fields⟩, -⟩ := load?_field_by_field held plain
  refine ⟨settings, loaded, ?_, ?_, ?_, ?_, ?_⟩
  · exact Option.some.inj ((fields .environment).trans environment)
  · exact Option.some.inj ((fields .defaultPolicy).trans policy)
  · exact Option.some.inj ((fields .dedup).trans dedup)
  · exact Option.some.inj ((fields .trace).trans trace)
  · exact Option.some.inj ((fields .maxDepth).trans depth)

/-- A file with nothing before its extension is not read for a service whose name is empty, though it is plain and gives
a field a value. -/
theorem stemless_file_unread :
    let text := "[engine]\nmax_depth = 11\n"
    let file? (name : String) : Option String := if name = ".toml" then some text else none
    (Toml.read? text).any (fun es =>
        decide ((∀ e ∈ es, PlainEntry e) ∧ (Field.maxDepth.given? es).bind Setting.toNatural? = some 11)) ∧
      (load? file? [] "" "").map (·.engine.maxDepth) = some 256 := by
  decide +kernel

end Settings

end Eligibility
