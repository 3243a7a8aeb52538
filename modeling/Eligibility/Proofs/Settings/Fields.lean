/-
The fields of the settings: where each stands, what type it has, and what entries give it. Main statement: entries
whose values fit make settings, in which each field is what the entries give it, or else its default.
-/
import Eligibility.Proofs.Attributes.Record
import Eligibility.Settings.Basic
import Mathlib.Data.Finset.Insert
import Mathlib.Data.Fintype.Defs

namespace Eligibility.Settings

/-- A field of the settings. -/
inductive Field where
  | serviceName
  | environment
  | defaultPolicy
  | dedup
  | trace
  | maxDepth
  | logLevel
  | jsonLogs
deriving DecidableEq

namespace Field

instance : Fintype Field where
  elems := {serviceName, environment, defaultPolicy, dedup, trace, maxDepth, logLevel, jsonLogs}
  complete f := by cases f <;> decide

/-- Where a field stands: at a key, or at a key of the table at a key. -/
def path : Field → String × Option String
  | serviceName => ("service_name", none)
  | environment => ("environment", none)
  | defaultPolicy => ("engine", some "default_policy")
  | dedup => ("engine", some "dedup")
  | trace => ("engine", some "trace")
  | maxDepth => ("engine", some "max_depth")
  | logLevel => ("observability", some "log_level")
  | jsonLogs => ("observability", some "json_logs")

/-- The key that leads to a field. -/
def top (f : Field) : String := f.path.1

/-- The key of a field in the table that it stands in, if it stands in one. -/
def inner? (f : Field) : Option String := f.path.2

/-- The address at which a field stands. -/
def address (f : Field) : Address := .key f.top :: (f.inner?.map .key).toList

/-- What a field may be. -/
abbrev Content : Field → Type
  | dedup | trace | jsonLogs => Bool
  | maxDepth => ℕ
  | serviceName | environment | defaultPolicy | logLevel => String

/-- A value taken for what a field may be. -/
def convert : (f : Field) → Setting → Option f.Content
  | dedup | trace | jsonLogs => Setting.toBool?
  | maxDepth => Setting.toNatural?
  | serviceName | environment | defaultPolicy | logLevel => Setting.toText?

/-- What a field is in some settings. -/
def of : (f : Field) → Settings → f.Content
  | serviceName => (·.serviceName)
  | environment => (·.environment)
  | defaultPolicy => (·.engine.defaultPolicy)
  | dedup => (·.engine.dedup)
  | trace => (·.engine.trace)
  | maxDepth => (·.engine.maxDepth)
  | logLevel => (·.report.logLevel)
  | jsonLogs => (·.report.jsonLogs)

/-- What the value at the key that leads to a field gives the field. -/
def pick? (f : Field) (v : Setting) : Option Setting :=
  match f.inner? with
  | none => some v
  | some key => v.entries.get? key

/-- The value that entries give a field. -/
def given? (f : Field) (es : Record Setting) : Option Setting := (es.get? f.top).bind f.pick?

variable {f : Field} {t key : String} {es : Record Setting}

theorem given?_of_top (h : f.path = (key, none)) : f.given? es = es.get? key := by
  unfold given? pick? top inner?
  simp only [h, Option.bind_fun_some]

theorem given?_of_inner (h : f.path = (t, some key)) :
    f.given? es = (es.get? t).bind fun part => part.entries.get? key := by
  unfold given? pick? top inner?
  simp only [h]

end Field

/-- Where the table of a field may be, there is a table or nothing. -/
def Tabled (es : Record Setting) : Prop :=
  ∀ (f : Field) v, f.inner?.isSome → es.get? f.top = some v → ∃ inner, v = .table inner

/-- All values that are given to fields can be taken for what these may be. -/
def Fits (es : Record Setting) : Prop := ∀ (f : Field) v, f.given? es = some v → (f.convert v).isSome

variable {es : Record Setting} {f : Field}

theorem field?_table {α : Type} (es : Record Setting) (place : ℕ) (key : String) (convert : Setting → Option α)
    (otherwise : α) :
    field? (.table es) place key convert otherwise = (es.get? key).elim (some otherwise) convert := by
  unfold field?
  dsimp only [Setting.entries]
  cases es.get? key <;> rfl

/-- A table that is not there is read as one without entries. -/
theorem section?_eq_table (h : Tabled es) (hf : f.inner?.isSome) :
    ∃ inner : Record Setting, section? es f.top = some (.table inner) ∧
      ∀ key, inner.get? key = (es.get? f.top).bind fun part => part.entries.get? key := by
  cases found : es.get? f.top with
  | none =>
    refine ⟨[], ?_, fun _ => rfl⟩
    rw [section?, found]
  | some v =>
    obtain ⟨inner, rfl⟩ := h f v hf found
    refine ⟨inner, ?_, fun _ => rfl⟩
    rw [section?, found]

theorem exists_content (h : Fits es) (f : Field) :
    ∃ x, (f.given? es).elim (some (f.of default)) f.convert = some x := by
  cases given : f.given? es with
  | none => exact ⟨_, rfl⟩
  | some v => exact Option.isSome_iff_exists.1 (h f v given)

/-- Entries with tables where they belong, and with values that fit, make settings, field by field. -/
theorem exists_settings (tabled : Tabled es) (fits : Fits es) :
    ∃ s, ofEntries? es = some s ∧ ∀ f : Field, some (f.of s) = (f.given? es).elim (some (f.of default)) f.convert := by
  obtain ⟨engine, hengine, engineKeys⟩ := section?_eq_table (f := .dedup) tabled rfl
  obtain ⟨report, hreport, reportKeys⟩ := section?_eq_table (f := .jsonLogs) tabled rfl
  -- what each field will be, whether given or left at its default
  choose content hcontent using exists_content fits
  have atTop : ∀ (f : Field) key, f.path = (key, none) → ∀ place,
      field? (.table es) place key f.convert (f.of default) = some (content f) := by
    intro f key path place
    rw [field?_table, ← hcontent, Field.given?_of_top path]
  have inEngine : ∀ (f : Field) key, f.path = ("engine", some key) → ∀ place,
      field? (.table engine) place key f.convert (f.of default) = some (content f) := by
    intro f key path place
    rw [field?_table, engineKeys, ← hcontent, Field.given?_of_inner path]
    rfl
  have inReport : ∀ (f : Field) key, f.path = ("observability", some key) → ∀ place,
      field? (.table report) place key f.convert (f.of default) = some (content f) := by
    intro f key path place
    rw [field?_table, reportKeys, ← hcontent, Field.given?_of_inner path]
    rfl
  refine ⟨⟨content .serviceName, content .environment,
    ⟨content .defaultPolicy, content .dedup, content .trace, content .maxDepth⟩,
    ⟨content .logLevel, content .jsonLogs⟩⟩, ?_, fun f => ?_⟩
  · -- the fields in the order in which they are read
    refine Option.bind_eq_some_iff.2 ⟨_, hengine, Option.bind_eq_some_iff.2 ⟨_, hreport, ?_⟩⟩
    refine Option.bind_eq_some_iff.2 ⟨_, atTop .serviceName _ rfl 0, ?_⟩
    refine Option.bind_eq_some_iff.2 ⟨_, atTop .environment _ rfl 1, ?_⟩
    refine Option.bind_eq_some_iff.2 ⟨_, inEngine .defaultPolicy _ rfl 0, ?_⟩
    refine Option.bind_eq_some_iff.2 ⟨_, inEngine .dedup _ rfl 1, ?_⟩
    refine Option.bind_eq_some_iff.2 ⟨_, inEngine .trace _ rfl 2, ?_⟩
    refine Option.bind_eq_some_iff.2 ⟨_, inEngine .maxDepth _ rfl 3, ?_⟩
    refine Option.bind_eq_some_iff.2 ⟨_, inReport .logLevel _ rfl 0, ?_⟩
    exact Option.bind_eq_some_iff.2 ⟨_, inReport .jsonLogs _ rfl 1, rfl⟩
  · rw [hcontent f]
    cases f <;> rfl

end Eligibility.Settings
