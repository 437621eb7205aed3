/-!
Arguments of a command line: options by long and short names, and the rest in order. An option
with a value takes it from behind an equals sign or from the next argument, which must not look like
an option; two dashes end the options.
-/
namespace ModuleVisibility

inductive OptionName where
  | logLevel
  | logJson
  | format
  | failOnWarnings
  | severity
  | noColor
  | force
  | help
  | version
  deriving DecidableEq

/-- How an option is written. -/
structure OptionRule where
  name : OptionName
  long : String
  short : Option Char
  takesValue : Bool

/-- Why arguments cannot be used. -/
inductive UsageFault where
  | unknownOption (argument : String)
  | missingValue (option : String)
  | unneededValue (option : String)
  | repeatedOption (option : String)
  | invalidValue (option value : String)
  | unexpected (argument : String)
  | missingArgument (what : String)
  | unknownCommand (argument : String)
  | missingCommand
  deriving DecidableEq

def UsageFault.message : UsageFault → String
  | unknownOption argument => "unknown option '" ++ argument ++ "'"
  | missingValue option => "option '--" ++ option ++ "' needs a value"
  | unneededValue option => "option '--" ++ option ++ "' takes no value"
  | repeatedOption option => "option '--" ++ option ++ "' is given more than once"
  | invalidValue option value => "'" ++ value ++ "' is no value of '--" ++ option ++ "'"
  | unexpected argument => "unexpected argument '" ++ argument ++ "'"
  | missingArgument what => what ++ " is missing"
  | unknownCommand argument => "unknown command '" ++ argument ++ "'"
  | missingCommand => "a command is missing"

/-- What ends the reading of arguments before their end. -/
inductive ArgumentStop where
  | fault (fault : UsageFault)
  | help
  | version
  deriving DecidableEq

/-- What an argument looks like. -/
inductive ArgumentShape where
  | plain
  | escape
  | long (name : List Char) (value : Option (List Char))
  | short (letters : List Char)
  deriving DecidableEq

/-- The part of a text before the first equals sign, and the part behind it. -/
def splitValue (cs : List Char) : List Char × Option (List Char) :=
  match cs.dropWhile (· != '=') with
  | _ :: value => (cs.takeWhile (· != '='), some value)
  | [] => (cs, none)

/-- A lone dash is an ordinary argument. -/
def ArgumentShape.of (argument : String) : ArgumentShape :=
  match argument.toList with
  | ['-', '-'] => .escape
  | '-' :: '-' :: cs => let (name, value) := splitValue cs; .long name value
  | ['-'] => .plain
  | '-' :: cs => .short cs
  | _ => .plain

/-- The options given and the other arguments, in order. -/
structure ReadArguments where
  options : List (OptionName × String)
  operands : List String

namespace ReadArguments

def empty : ReadArguments := ⟨[], []⟩

/-- The value of an option, if it is given. -/
def value? (a : ReadArguments) (name : OptionName) : Option String := a.options.lookup name

def has (a : ReadArguments) (name : OptionName) : Bool := (a.value? name).isSome

end ReadArguments

/-- What a command accepts. -/
structure ArgumentGrammar where
  rules : List OptionRule
  /-- Whether an option can have a value. -/
  allows : OptionName → String → Bool
  /-- Number of other arguments. -/
  operandLimit : Nat
  /-- Whether another argument can have a value. -/
  allowsOperand : String → Bool
  /-- The names of the commands at which reading ends. -/
  commands : List String

namespace ArgumentGrammar

def long? (g : ArgumentGrammar) (name : List Char) : Option OptionRule :=
  g.rules.find? (·.long == String.ofList name)

def short? (g : ArgumentGrammar) (letter : Char) : Option OptionRule :=
  g.rules.find? (·.short == some letter)

/-- The arguments with one more option. An option is given once. -/
def addOption (g : ArgumentGrammar) (read : ReadArguments) (rule : OptionRule) (value : String) :
    Except ArgumentStop ReadArguments :=
  if rule.name = .help then .error .help
  else if rule.name = .version then .error .version
  else if read.has rule.name then .error (.fault (.repeatedOption rule.long))
  else if g.allows rule.name value then
    .ok { read with options := read.options ++ [(rule.name, value)] }
  else .error (.fault (.invalidValue rule.long value))

/-- The arguments with one more operand. -/
def addOperand (g : ArgumentGrammar) (read : ReadArguments) (argument : String) :
    Except ArgumentStop ReadArguments :=
  if read.operands.length < g.operandLimit then
    if g.allowsOperand argument then .ok { read with operands := read.operands ++ [argument] }
    else .error (.fault (.unexpected argument))
  else if g.commands.isEmpty then .error (.fault (.unexpected argument))
  else .error (.fault (.unknownCommand argument))

/-- What letters behind one dash say: the arguments with their options, and the last letter's
option if its value is still to come. -/
def addLetters (g : ArgumentGrammar) (read : ReadArguments) :
    List Char → Except ArgumentStop (ReadArguments × Option OptionRule)
  | [] => .ok (read, none)
  | letter :: rest =>
    match g.short? letter with
    | none => .error (.fault (.unknownOption ("-" ++ letter.toString)))
    | some rule =>
      if rule.takesValue then
        match rest with
        | [] => .ok (read, some rule)
        | '=' :: value => (·, none) <$> g.addOption read rule (String.ofList value)
        | value => (·, none) <$> g.addOption read rule (String.ofList value)
      else do addLetters g (← g.addOption read rule "") rest

/-- What a long option says, as `addLetters` does for letters. -/
def addLong (g : ArgumentGrammar) (read : ReadArguments) (name : List Char)
    (value : Option (List Char)) : Except ArgumentStop (ReadArguments × Option OptionRule) :=
  match g.long? name with
  | none => .error (.fault (.unknownOption ("--" ++ String.ofList name)))
  | some rule =>
    match rule.takesValue, value with
    | true, none => .ok (read, some rule)
    | true, some value => (·, none) <$> g.addOption read rule (String.ofList value)
    | false, none => (·, none) <$> g.addOption read rule ""
    | false, some _ => .error (.fault (.unneededValue rule.long))

/-- Reads arguments up to a command, which is left with all behind it. `pending` waits for its
value, and `isEscaped` says that the options are over. -/
def read (g : ArgumentGrammar) (pending : Option OptionRule) (isEscaped : Bool)
    (done : ReadArguments) : List String → Except ArgumentStop (ReadArguments × List String)
  | [] =>
    match pending with
    | some rule => .error (.fault (.missingValue rule.long))
    | none => .ok (done, [])
  | argument :: rest =>
    let shape := if isEscaped then .plain else ArgumentShape.of argument
    match pending, shape with
    | some rule, .plain => do read g none false (← g.addOption done rule argument) rest
    | some rule, _ => .error (.fault (.missingValue rule.long))
    | none, .plain =>
      if !isEscaped && g.commands.contains argument then .ok (done, argument :: rest)
      else do read g none isEscaped (← g.addOperand done argument) rest
    | none, .escape => read g none true done rest
    | none, .long name value => do
      let (done, pending) ← g.addLong done name value
      read g pending false done rest
    | none, .short letters => do
      let (done, pending) ← g.addLetters done letters
      read g pending false done rest

end ArgumentGrammar
end ModuleVisibility
