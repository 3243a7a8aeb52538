/-
The commands of the program and how a command line names them.
-/
import Eligibility.Command.Line

namespace Eligibility

/-- The rule that a command evaluates: its text, or a JSON tree. -/
inductive Command.Source where
  | text (rule : String)
  | tree (argument : String)

/-- A command with its arguments. -/
inductive Command where
  | parse (rule : String) (pretty : Bool)
  | combine (rules : List String) (policy? : Option String) (dedup pretty : Bool)
  | evaluate (source : Command.Source) (attributes : String) (trace : Bool)
  | render (tree : String)

/-- A command line that was understood. -/
structure Command.Invocation where
  logLevel? : Option String
  command : Command

namespace Command

/-- The options that every command and the program have. -/
def commonOptions : List OptionSpec := [⟨"help", some 'h', .help⟩, ⟨"version", some 'V', .version⟩]

/-- The words of the program before its command. -/
def programGrammar : Grammar :=
  ⟨⟨"log-level", some 'l', .value⟩ :: commonOptions, some 0, ["parse", "combine", "evaluate", "render", "help"]⟩

/-- The words of the command that reads a rule. -/
def parseGrammar : Grammar := ⟨⟨"pretty", none, .switch⟩ :: commonOptions, some 1, []⟩

/-- The words of the command that combines rules. -/
def combineGrammar : Grammar :=
  ⟨[⟨"policy", some 'p', .value⟩, ⟨"dedup", none, .switch⟩, ⟨"pretty", none, .switch⟩] ++ commonOptions, none, []⟩

/-- The words of the command that evaluates a rule. -/
def evaluateGrammar : Grammar :=
  ⟨[⟨"rule", some 'r', .value⟩, ⟨"tree", some 't', .value⟩, ⟨"attributes", some 'a', .value⟩,
    ⟨"trace", none, .switch⟩] ++ commonOptions, some 0, []⟩

/-- The words of the command that prints a tree as text. -/
def renderGrammar : Grammar := ⟨⟨"tree", some 't', .value⟩ :: commonOptions, some 0, []⟩

/-- Reads all words of a command. -/
def readAll (grammar : Grammar) (words : List String) : Except Usage Given := do
  let (g, _) ← Given.nothing.takeAll grammar words
  g.settle

/-- The command that reads a rule. -/
def readParse (words : List String) : Except Usage Command := do
  let g ← readAll parseGrammar words
  match g.operands with
  | rule :: _ => return .parse rule (g.has "pretty")
  | [] => throw .missingRequiredArgument

/-- The command that combines rules. -/
def readCombine (words : List String) : Except Usage Command := do
  let g ← readAll combineGrammar words
  if g.operands.isEmpty then throw .missingRequiredArgument
  return .combine g.operands (g.value? "policy") (g.has "dedup") (g.has "pretty")

/-- The command that evaluates a rule, which is given either as text or as a tree. -/
def readEvaluate (words : List String) : Except Usage Command := do
  let g ← readAll evaluateGrammar words
  match g.value? "rule", g.value? "tree", g.value? "attributes" with
  | some _, some _, _ => throw .argumentConflict
  | some rule, none, some attributes => return .evaluate (.text rule) attributes (g.has "trace")
  | none, some tree, some attributes => return .evaluate (.tree tree) attributes (g.has "trace")
  | _, _, _ => throw .missingRequiredArgument

/-- The command that prints a tree as text. -/
def readRender (words : List String) : Except Usage Command := do
  let g ← readAll renderGrammar words
  match g.value? "tree" with
  | some tree => return .render tree
  | none => throw .missingRequiredArgument

/-- What asks for help on a command. Only the commands of the program can be named, and one of them
has no commands of its own. -/
def readHelp : List String → Usage
  | [] => .displayHelp
  | [w] => if programGrammar.commands.contains w then .displayHelp else .invalidSubcommand
  | _ => .invalidSubcommand

/-- The command of a name and the words after it. -/
def readCommand (name : String) (words : List String) : Except Usage Command :=
  match name with
  | "parse" => readParse words
  | "combine" => readCombine words
  | "evaluate" => readEvaluate words
  | "render" => readRender words
  | _ => .error (readHelp words)

/-- The invocation that the words of a command line, without the program's name, stand for. -/
def readLine (words : List String) : Except Usage Invocation := do
  match ← Given.nothing.takeAll programGrammar words with
  | (g, some (name, rest)) =>
    let command ← readCommand name rest
    let g ← g.settle
    return ⟨g.value? "log-level", command⟩
  | (g, none) =>
    let g ← g.settle
    if g.values.isEmpty then throw .displayHelpOnMissingArgumentOrSubcommand else throw .missingSubcommand

end Command
end Eligibility
