/-
What the commands do, as a function of the settings and of the files that they name. A failure
carries the remarks that were made on its way out, the outermost first.
-/
import Eligibility.Command.Basic
import Eligibility.Engine
import Eligibility.Settings.Basic

namespace Eligibility

/-- An explanation as a document, with the time that it took in microseconds. -/
def Explanation.toJson (e : Explanation) (elapsed : Nat) : Json :=
  .object [(some "matched", .bool e.matched), (some "matched_conditions", .list (e.matchedConditions.map .string)),
    (some "evaluation_trace", .list (e.evaluationTrace.map .string)),
    (some "evaluation_time_us", .number (.integer elapsed))]

namespace Command

/-- Why a command failed. -/
inductive Cause where
  | fault (f : Fault)
  | unreadableFile

/-- A failure with the remarks made on it. -/
structure Failure where
  context : List String
  cause : Cause

/-- What a command prints. -/
inductive Output where
  | text (t : String)
  | explanation (e : Explanation)

/-- The printed text; an explanation tells how long it took. -/
def Output.render (elapsed : Nat) : Output → String
  | text t => t
  | explanation e => (e.toJson elapsed).pretty

/-- A result without remarks. -/
def plain {α : Type} (x : Except Fault α) : Except Failure α := x.mapError fun f => ⟨[], .fault f⟩

/-- A result with a remark on its failure. -/
def remarked {α : Type} (remark : String) (x : Except Fault α) : Except Failure α :=
  x.mapError fun f => ⟨[remark], .fault f⟩

/-- The path of an argument that stands for the content of a file. -/
def filePath? (argument : String) : Option String :=
  match argument.toList with
  | '@' :: path => some (String.ofList path)
  | _ => none

/-- The content of an argument, or of the file that it names. -/
def content (file? : String → Option String) (argument : String) : Except Failure String :=
  match filePath? argument with
  | none => .ok argument
  | some path =>
    match file? path with
    | some text => .ok text
    | none => .error ⟨[s!"无法读取文件: {path}"], .unreadableFile⟩

/-- The files that a command may read. -/
def files : Command → List String
  | evaluate (.tree argument) attributes _ => [argument, attributes].filterMap filePath?
  | evaluate (.text _) attributes _ => [attributes].filterMap filePath?
  | render argument => [argument].filterMap filePath?
  | _ => []

/-- A rule as JSON text. -/
def printRule (pretty : Bool) (r : Rule) : Output := .text (if pretty then r.toJson.pretty else r.toJson.compact)

/-- The rule of a tree argument. -/
def readTree (settings : EngineSettings) (file? : String → Option String) (argument : String) :
    Except Failure Rule := do
  remarked "规则树 JSON 无效" (Rule.ofJson settings.maxDepth (← content file? argument))

/-- The rule that a command evaluates. -/
def readSource (settings : EngineSettings) (file? : String → Option String) : Source → Except Failure Rule
  | .text rule => plain (Rule.parse settings.maxDepth rule)
  | .tree argument => readTree settings file? argument

/-- The connective that a policy text names. -/
def readPolicy (text : String) : Except Fault Connective :=
  match Connective.ofPolicy? text with
  | some k => .ok k
  | none => .error (.badValue (.unknownPolicy (Connective.policyKey text)))

/-- Runs a command. What it is told itself counts before the settings. -/
def run (settings : EngineSettings) (file? : String → Option String) : Command → Except Failure Output
  | parse rule pretty => do return printRule pretty (← plain (Rule.parse settings.maxDepth rule))
  | combine rules policy? dedup pretty => do
    let policy ← remarked "无效的合并策略" (readPolicy (policy?.getD settings.defaultPolicy))
    let combiner : Combiner := ⟨policy, dedup || settings.dedup, settings.maxDepth⟩
    return printRule pretty (← plain (combiner.combine rules))
  | evaluate source argument trace => do
    let r ← readSource settings file? source
    let a ← remarked "属性集合解析失败" (Attributes.ofJson (← content file? argument))
    if trace || settings.trace then return .explanation (← plain (r.explain true a))
    else return .text (toString (← plain (r.verdict a)))
  | render argument => do return .text (← readTree settings file? argument).render

end Command
end Eligibility
