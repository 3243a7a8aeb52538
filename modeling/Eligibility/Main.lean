/-
The program: it reads its settings from files and variables, and prints what the command that was
given to it finds.
-/
import Eligibility.Command.Run

namespace Eligibility.Program

/-- The variables that give settings. -/
def settingVariables : List String :=
  ["RULE_ENGINE_ENV", "RULE_ENGINE_SERVICE_NAME", "RULE_ENGINE_ENVIRONMENT", "RULE_ENGINE_ENGINE__DEFAULT_POLICY",
    "RULE_ENGINE_ENGINE__DEDUP", "RULE_ENGINE_ENGINE__TRACE", "RULE_ENGINE_ENGINE__MAX_DEPTH",
    "RULE_ENGINE_OBSERVABILITY__LOG_LEVEL", "RULE_ENGINE_OBSERVABILITY__JSON_LOGS"]

/-- The content of a file, if it can be read. -/
def readFile? (path : String) : IO (Option String) := do
  try return some (← IO.FS.readFile path) catch _ => return none

/-- The contents of files by their names. -/
def readFiles (paths : List String) : IO (List (String × String)) :=
  paths.filterMapM fun path => do return (← readFile? path).map (path, ·)

/-- The variables that are set. -/
def readVariables : IO (List (String × String)) :=
  settingVariables.filterMapM fun name => do return (← IO.getEnv name).map (name, ·)

/-- The settings, or the defaults where they are missing or damaged. -/
def readSettings : IO Settings := do
  let directory := (← IO.getEnv "CONFIG_DIR").getD "config"
  let vars ← readVariables
  let environment := Settings.environmentOf vars
  let service := Settings.default.serviceName
  let files ← readFiles (["default", environment, service].map fun name => s!"{directory}/{name}.toml")
  match Settings.load? (fun name => files.lookup s!"{directory}/{name}") vars service environment with
  | some settings => return settings
  | none =>
    IO.eprintln "Failed to load config, using defaults"
    return Settings.default

/-- What is said of a failure. -/
def report (failure : Command.Failure) : String :=
  let cause := match failure.cause with
    | .fault f => [f.message]
    | .unreadableFile => []
  ": ".intercalate (failure.context ++ cause)

end Eligibility.Program

open Eligibility Program in
/-- Runs the command that the words name. -/
def main (words : List String) : IO UInt32 := do
  match Command.readLine words with
  | .error usage =>
    if usage.exitCode = 0 then IO.println usage.message else IO.eprintln usage.message
    return usage.exitCode
  | .ok invocation =>
    let settings ← readSettings
    let files ← readFiles invocation.command.files
    let started ← IO.monoNanosNow
    let result ← IO.lazyPure fun _ => Command.run settings.engine (fun path => files.lookup path) invocation.command
    let finished ← IO.monoNanosNow
    match result with
    | .ok output =>
      IO.println (output.render ((finished - started) / 1000))
      return 0
    | .error failure =>
      IO.eprintln s!"Error: {report failure}"
      return 1
