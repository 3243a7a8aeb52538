/-
Words of a command line: options with and without a value, and operands. A value may be attached to
its option or be the next word; it is given to the option only when the next option or operand
begins, so a word that is no option at all is reported before a value that is missing or repeated.
-/
namespace Eligibility.Command

/-- Why a command line starts no command. -/
inductive Usage where
  | unknownArgument
  | missingRequiredArgument
  | argumentConflict
  | invalidValue
  | tooManyValues
  | invalidSubcommand
  | missingSubcommand
  | displayHelp
  | displayVersion
  | displayHelpOnMissingArgumentOrSubcommand
deriving DecidableEq

/-- The wording for a command line that starts no command. -/
def Usage.message : Usage → String
  | unknownArgument => "error: unexpected argument found"
  | missingRequiredArgument => "error: the following required arguments were not provided"
  | argumentConflict => "error: an argument cannot be used multiple times or with another one"
  | invalidValue => "error: a value is required but none was supplied"
  | tooManyValues => "error: unexpected value found; no more were expected"
  | invalidSubcommand => "error: unrecognized subcommand"
  | missingSubcommand => "error: a subcommand is required but one was not provided"
  | displayHelp | displayHelpOnMissingArgumentOrSubcommand =>
    "Usage: rule-engine [-l LEVEL] parse|combine|evaluate|render"
  | displayVersion => "rule-engine"

/-- Help and the version are answers, all else is a failure. -/
def Usage.exitCode : Usage → UInt32
  | displayHelp | displayVersion => 0
  | _ => 2

/-- What an option does. -/
inductive OptionKind where
  | value
  | switch
  | help
  | version
deriving DecidableEq

/-- An option and its names. -/
structure OptionSpec where
  long : String
  short? : Option Char
  kind : OptionKind

/-- The words that a command, or the program itself, takes. -/
structure Grammar where
  options : List OptionSpec
  /-- The greatest number of operands, if there is one. -/
  operands : Option Nat
  commands : List String

/-- What has been read of a command line. -/
structure Given where
  values : List (String × String)
  switches : List String
  operands : List String
  /-- An option that has begun and its value, if that has come. -/
  pending : Option (OptionSpec × Option String)
  /-- Whether only operands may follow. -/
  operandsOnly : Bool

/-- A command line of which nothing has been read. -/
def Given.nothing : Given := ⟨[], [], [], none, false⟩

/-- What a word is, before it is known whether it is of any use. -/
inductive Word where
  | separator
  | long (name : String) (attached? : Option String)
  | short (letter : Char) (rest : List Char)
  | plain

namespace Word

/-- What a word is by its hyphens. -/
def ofString (w : String) : Word :=
  match w.toList with
  | ['-', '-'] => .separator
  | '-' :: '-' :: cs =>
    match cs.dropWhile (· ≠ '=') with
    | [] => .long (String.ofList cs) none
    | _ :: value => .long (String.ofList (cs.takeWhile (· ≠ '='))) (some (String.ofList value))
  | '-' :: letter :: rest => .short letter rest
  | _ => .plain

end Word

namespace Given

/-- Gives the pending option its value. It must have one, and only once. -/
def settle (g : Given) : Except Usage Given :=
  match g.pending with
  | none => .ok g
  | some (_, none) => .error .invalidValue
  | some (option, some value) =>
    if g.values.any (·.1 = option.long) then .error .argumentConflict
    else .ok { g with values := g.values ++ [(option.long, value)], pending := none }

/-- Begins an option, with the value that is attached to it. -/
def beginOption (g : Given) (option : OptionSpec) (attached? : Option String) : Except Usage Given :=
  match option.kind, attached? with
  | .value, none => do return { ← g.settle with pending := some (option, none) }
  | .value, some value => do ({ ← g.settle with pending := some (option, some value) } : Given).settle
  | _, some _ => .error .tooManyValues
  | .help, none => do let _ ← g.settle; throw .displayHelp
  | .version, none => do let _ ← g.settle; throw .displayVersion
  | .switch, none => do
    let g ← g.settle
    if g.switches.contains option.long then throw .argumentConflict
    return { g with switches := option.long :: g.switches }

/-- Begins the option of a letter. What follows the letter in the word is its value; the letter of a
switch stands first and ends the command line. -/
def beginShort (g : Given) (option : OptionSpec) (rest : List Char) : Except Usage Given :=
  match option.kind, rest with
  | .value, '=' :: value => g.beginOption option (some (String.ofList value))
  | .value, c :: value => g.beginOption option (some (String.ofList (c :: value)))
  | _, _ => g.beginOption option none

/-- Takes an operand. Where none fits, the place of the word tells what it was meant to be. -/
def takeOperand (grammar : Grammar) (g : Given) (w : String) : Except Usage Given :=
  if grammar.operands.all (g.operands.length < ·) then do
    let g ← g.settle
    return { g with operands := g.operands ++ [w] }
  else if grammar.commands.isEmpty then .error .unknownArgument
  else if g.operandsOnly && grammar.commands.contains w then .error .unknownArgument
  else .error .invalidSubcommand

/-- Whether the next plain word is the value of an option. -/
def awaitsValue (g : Given) : Bool := g.pending.any (·.2.isNone)

/-- Takes a word that names no command. -/
def take (grammar : Grammar) (g : Given) (w : String) : Except Usage Given :=
  if g.operandsOnly then g.takeOperand grammar w
  else
    match Word.ofString w with
    | .separator => .ok { g with operandsOnly := true }
    | .long name attached? =>
      match grammar.options.find? (·.long = name) with
      | some option => g.beginOption option attached?
      | none => .error .unknownArgument
    | .short letter rest =>
      match grammar.options.find? (·.short? = some letter) with
      | some option => g.beginShort option rest
      | none => .error .unknownArgument
    | .plain =>
      match g.pending with
      | some (option, none) => .ok { g with pending := some (option, some w) }
      | _ => g.takeOperand grammar w

/-- Takes words up to one that names a command; that word and those after it are left. -/
def takeAll (grammar : Grammar) (g : Given) : List String → Except Usage (Given × Option (String × List String))
  | [] => .ok (g, none)
  | w :: ws =>
    if !g.operandsOnly && !g.awaitsValue && grammar.commands.contains w then .ok (g, some (w, ws))
    else do takeAll grammar (← g.take grammar w) ws

/-- The value of an option. -/
def value? (g : Given) (long : String) : Option String := (g.values.find? (·.1 = long)).map (·.2)

/-- Whether a switch was given. -/
def has (g : Given) (long : String) : Bool := g.switches.contains long

end Given
end Eligibility.Command
