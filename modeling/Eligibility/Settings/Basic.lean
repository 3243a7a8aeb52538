/-
The settings of the program. They come in layers, each over the one before: what the caller names,
the common file, the file of the environment, the file of the service, and variables. A field that
no layer gives has its default, and a key that names no field is passed over.
-/
import Eligibility.Binary64.Text
import Eligibility.Rule.Basic
import Eligibility.Settings.Toml.Document

namespace Eligibility

/-- How rules are read, combined and evaluated. -/
structure EngineSettings where
  defaultPolicy : String
  dedup : Bool
  trace : Bool
  maxDepth : Nat

/-- How the program reports on itself. -/
structure ReportSettings where
  logLevel : String
  jsonLogs : Bool

/-- All settings. -/
structure Settings where
  serviceName : String
  environment : String
  engine : EngineSettings
  report : ReportSettings

namespace Settings

/-- The settings where nothing is said. -/
def default : Settings where
  serviceName := "rule-engine"
  environment := "development"
  engine := ⟨"or", false, false, defaultDepthLimit⟩
  report := ⟨"warn", false⟩

/-! ## Variables -/

/-- The value that the text of a variable stands for: a truth value, an integer, a decimal, or else
the text itself. -/
def ofVariable (text : String) : Setting :=
  let lower := String.ofList (text.toList.map Char.toLower)
  if lower = "true" then .bool true
  else if lower = "false" then .bool false
  else
    match (Setting.integer? text.toList).filter Setting.fits64 with
    | some n => .integer n
    | none =>
      match Binary64.ofText? text.toList with
      | some x => .real x
      | none => .text text

/-- A text with every two underscores, from the left, made a point. -/
def joinLevels : List Char → List Char
  | '_' :: '_' :: cs => '.' :: joinLevels cs
  | c :: cs => c :: joinLevels cs
  | [] => []

/-- The address that the name of a variable stands for, if it is one of the program's. -/
def addressOfVariable? (name : String) : Option Address :=
  let own := "rule_engine_".toList
  let lower := name.toList.map Char.toLower
  if own.isPrefixOf lower then some (Address.ofText (joinLevels (lower.drop own.length))) else none

/-! ## Layers -/

/-- A value that a source gives, and where it is to stand. -/
structure Layer where
  address : Address
  value : Setting

/-- The layers of variables. -/
def variableLayers (vars : List (String × String)) : List Layer :=
  vars.filterMap fun (name, text) => (addressOfVariable? name).map (⟨·, ofVariable text⟩)

/-- Whether a file can have a name: a name that ends with its directory has nothing before the
extension. -/
def hasStem (name : String) : Bool := name.toList.getLast?.any (· ≠ '/')

/-- The layers of a file, one for each entry; none where there is no such file. -/
def fileLayers? (file? : String → Option String) (name : String) : Option (List Layer) :=
  if hasStem name then
    match file? s!"{name}.toml" with
    | none => some []
    | some text => (Toml.read? text).map fun entries => entries.map fun (k, v) => ⟨Address.ofText k.toList, v⟩
  else some []

/-- The settings that layers make together. -/
def merged (layers : List Layer) : Record Setting :=
  (layers.foldl (fun old layer => Setting.put layer.value layer.address old) (.table [])).entries

/-! ## Fields -/

/-- A part of the settings that has fields: a table, or a list that gives them in their order. -/
def section? (entries : Record Setting) (key : String) : Option Setting :=
  match entries.get? key with
  | none => some (.table [])
  | some (.table es) => some (.table es)
  | some (.list xs) => some (.list xs)
  | some _ => none

/-- A field by its name and its place, or its default; `none` where the value cannot be taken for the
field's type. -/
def field? {α : Type} (part : Setting) (place : Nat) (key : String) (convert : Setting → Option α) (otherwise : α) :
    Option α :=
  let given := match part with
    | .list xs => xs[place]?
    | part => part.entries.get? key
  match given with
  | some v => convert v
  | none => some otherwise

/-- The settings that entries give. -/
def ofEntries? (entries : Record Setting) : Option Settings := do
  let engine ← section? entries "engine"
  let report ← section? entries "observability"
  return {
    serviceName := ← field? (.table entries) 0 "service_name" Setting.toText? default.serviceName
    environment := ← field? (.table entries) 1 "environment" Setting.toText? default.environment
    engine := {
      defaultPolicy := ← field? engine 0 "default_policy" Setting.toText? default.engine.defaultPolicy
      dedup := ← field? engine 1 "dedup" Setting.toBool? default.engine.dedup
      trace := ← field? engine 2 "trace" Setting.toBool? default.engine.trace
      maxDepth := ← field? engine 3 "max_depth" Setting.toNatural? default.engine.maxDepth }
    report := {
      logLevel := ← field? report 0 "log_level" Setting.toText? default.report.logLevel
      jsonLogs := ← field? report 1 "json_logs" Setting.toBool? default.report.jsonLogs } }

/-- The settings for a service in an environment, where `file?` gives the files of a directory;
`none` where a file is malformed or a value does not fit its field. -/
def load? (file? : String → Option String) (vars : List (String × String)) (service environment : String) :
    Option Settings := do
  let named : List Layer := [⟨[.key "environment"], .text environment⟩, ⟨[.key "service_name"], .text service⟩]
  let files ← ["default", environment, service].mapM (fileLayers? file?)
  ofEntries? (merged (named ++ files.flatten ++ variableLayers vars))

/-- The environment that the variables name. -/
def environmentOf (vars : List (String × String)) : String :=
  ((vars.find? (·.1 = "RULE_ENGINE_ENV")).map (·.2)).getD default.environment

end Settings
end Eligibility
