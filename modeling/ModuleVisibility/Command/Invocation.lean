import ModuleVisibility.Command.Arguments

/-!
What a command line asks for.
-/
namespace ModuleVisibility

structure CheckRequest where
  path : String
  format : String
  failOnWarnings : Bool
  severity : Option String
  noColor : Bool
  deriving DecidableEq

inductive Invocation where
  | check (request : CheckRequest)
  | explain (id : String)
  | init (force : Bool)
  | help
  | version
  deriving DecidableEq

namespace Invocation

def commandNames : List String := ["check", "init", "explain", "help"]

def logLevels : List String := ["trace", "debug", "info", "warn", "error"]

/-- The options of the program and of every command. -/
def globalRules : List OptionRule :=
  [⟨.logLevel, "log-level", none, true⟩, ⟨.logJson, "log-json", none, false⟩,
    ⟨.help, "help", some 'h', false⟩]

/-- Only the level of the log is held to a list; other values are judged by the command. -/
def allows (name : OptionName) (value : String) : Bool :=
  name ≠ .logLevel || logLevels.contains value

def anyOperand (_ : String) : Bool := true

def programGrammar : ArgumentGrammar :=
  ⟨globalRules ++ [⟨.version, "version", some 'V', false⟩], allows, 0, anyOperand, commandNames⟩

/-- The path of `check` is not empty. -/
def checkGrammar : ArgumentGrammar :=
  ⟨globalRules ++ [⟨.format, "format", some 'f', true⟩,
    ⟨.failOnWarnings, "fail-on-warnings", none, false⟩, ⟨.severity, "severity", none, true⟩,
    ⟨.noColor, "no-color", none, false⟩], allows, 1, (!·.isEmpty), []⟩

def explainGrammar : ArgumentGrammar := ⟨globalRules, allows, 1, anyOperand, []⟩

def initGrammar : ArgumentGrammar :=
  ⟨globalRules ++ [⟨.force, "force", some 'f', false⟩], allows, 0, anyOperand, []⟩

/-- The arguments of a command. -/
def readAll (g : ArgumentGrammar) (arguments : List String) :
    Except ArgumentStop ReadArguments :=
  Prod.fst <$> g.read none false .empty arguments

/-- What `check` asks for. -/
def ofCheck (arguments : List String) : Except ArgumentStop Invocation := do
  let a ← readAll checkGrammar arguments
  match a.operands with
  | path :: _ => return .check ⟨path, (a.value? .format).getD "pretty", a.has .failOnWarnings,
      a.value? .severity, a.has .noColor⟩
  | [] => throw (.fault (.missingArgument "the path"))

def ofExplain (arguments : List String) : Except ArgumentStop Invocation := do
  match (← readAll explainGrammar arguments).operands with
  | id :: _ => return .explain id
  | [] => throw (.fault (.missingArgument "the diagnostic"))

def ofInit (arguments : List String) : Except ArgumentStop Invocation := do
  return .init ((← readAll initGrammar arguments).has .force)

/-- What `help` asks for: the program's help, or that of one command. -/
def ofHelp : List String → Except ArgumentStop Invocation
  | [] => .ok .help
  | [name] =>
    if commandNames.contains name then .ok .help else .error (.fault (.unknownCommand name))
  | _ :: name :: _ => .error (.fault (.unknownCommand name))

/-- What a command asks for. -/
def ofCommand (name : String) (arguments : List String) : Except ArgumentStop Invocation :=
  match name with
  | "check" => ofCheck arguments
  | "explain" => ofExplain arguments
  | "init" => ofInit arguments
  | _ => ofHelp arguments

/-- Reads the program's own options, and then the command with its arguments. -/
def readProgram (arguments : List String) : Except ArgumentStop Invocation := do
  match (← programGrammar.read none false .empty arguments).2 with
  | name :: arguments => ofCommand name arguments
  | [] => throw (.fault .missingCommand)

/-- What the arguments of the program ask for. -/
def ofArguments (arguments : List String) : Except UsageFault Invocation :=
  match readProgram arguments with
  | .ok invocation => .ok invocation
  | .error .help => .ok .help
  | .error .version => .ok .version
  | .error (.fault fault) => .error fault

end Invocation
end ModuleVisibility
