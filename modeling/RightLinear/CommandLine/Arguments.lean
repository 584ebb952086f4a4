import RightLinear.Text.Numeral

/-!
# Arguments of the command line

The program has one command per capability. Arguments are options, in a long or a
short form, or positional; a short form may be bundled with others and carry its
value, an option may be given once, and everything after `--` is positional.
Misuse is noticed at the first argument that shows it.

* `Command`: what the program is asked to do.
* `Command.ofArguments`: the command that arguments stand for.
-/

namespace RightLinear.CommandLine

/-- What the program is asked to do. -/
inductive Command where
  /-- Test words against a grammar. -/
  | check (grammar : String) (inputs : List String)
  /-- Test words against an automaton. -/
  | simulate (automaton : String) (inputs : List String)
  /-- Convert a grammar to an automaton. -/
  | toAutomaton (grammar : String)
  /-- Convert a grammar to a pattern, by elimination if it is recursive and that is
  asked for. -/
  | toPattern (grammar : String) (closure : Bool)
  /-- Convert an automaton to a grammar. -/
  | toGrammar (automaton : String)
  /-- Produce words of a grammar. -/
  | generate (grammar : String) (start : Option String) (amount maxSteps : Nat)
  /-- Test words against a pattern. -/
  | matchPattern (pattern : String) (inputs : List String)
  /-- Show the sample grammar. -/
  | sample
deriving DecidableEq, Repr

/-- Why arguments stand for no command. -/
inductive Refusal where
  /-- Help was asked for. -/
  | help
  /-- The version was asked for. -/
  | version
  /-- The arguments do not fit together. -/
  | misuse
deriving DecidableEq, Repr

/-! ## Options -/

/-- The options of the program. -/
inductive Opt where
  | verbose
  | help
  | version
  | closure
  | start
  | amount
  | maxSteps
deriving DecidableEq, Repr

namespace Opt

/-- The long form of an option, without its hyphens. -/
def long : Opt → String
  | verbose => "verbose"
  | help => "help"
  | version => "version"
  | closure => "closure"
  | start => "start"
  | amount => "amount"
  | maxSteps => "max-steps"

/-- The letter of an option, if it has one. -/
def short? : Opt → Option Char
  | verbose => some 'v'
  | help => some 'h'
  | version => some 'V'
  | start => some 's'
  | amount => some 'n'
  | closure | maxSteps => none

/-- Whether an option carries a value. -/
def takesValue : Opt → Bool
  | start | amount | maxSteps => true
  | _ => false

end Opt

/-- A number below `2 ^ 32`, which may have a sign; only zero may have a minus. -/
def readAmount? (text : String) : Option Nat :=
  match text.toList with
  | '-' :: digits =>
    if digits.head?.all Char.isDigit && Numeral.read? 1 digits = some 0 then some 0 else none
  | text => Numeral.read? 0x100000000 text

/-- A number below `2 ^ 64`. -/
def readSteps? (text : String) : Option Nat := Numeral.read? 0x10000000000000000 text.toList

/-- Whether an option can have a value. -/
def Opt.allows (value : String) : Opt → Bool
  | .amount => (readAmount? value).isSome
  | .maxSteps => (readSteps? value).isSome
  | _ => true

/-! ## Reading arguments -/

/-- The arguments read so far: options with their values, and positional
arguments. -/
structure Arguments where
  options : List (Opt × String)
  positional : List String
deriving DecidableEq, Repr

namespace Arguments

/-- Whether an option was given. -/
def has (arguments : Arguments) (option : Opt) : Bool :=
  arguments.options.any (·.1 = option)

/-- The value of an option, if it was given. -/
def value? (arguments : Arguments) (option : Opt) : Option String :=
  (arguments.options.find? (·.1 = option)).map Prod.snd

/-- A further option; it may not be there already, and asking for help or for the
version ends the reading. -/
def give (arguments : Arguments) (option : Opt) (value : String) : Except Refusal Arguments :=
  if option = .help then .error .help
  else if option = .version then .error .version
  else if arguments.has option || !option.allows value then .error .misuse
  else .ok { arguments with options := arguments.options ++ [(option, value)] }

end Arguments

/-- What the reading of one argument leaves open. -/
inductive Pending where
  /-- Nothing. -/
  | none
  /-- The value of an option, which has to follow. -/
  | value (option : Opt)

/-- An argument in long form, without its hyphens. -/
def readLong (options : List Opt) (text : List Char) (arguments : Arguments) :
    Except Refusal (Arguments × Pending) :=
  let name := text.takeWhile (· ≠ '=')
  match options.find? (·.long.toList = name), text.dropWhile (· ≠ '=') with
  | none, _ => .error .misuse
  | some option, [] =>
    if option.takesValue then .ok (arguments, .value option)
    else (·, .none) <$> arguments.give option ""
  | some option, _ :: value =>
    if option.takesValue then (·, .none) <$> arguments.give option (String.ofList value)
    else .error .misuse

/-- The letters of an argument in short form. -/
def readShort (options : List Opt) :
    List Char → Arguments → Except Refusal (Arguments × Pending)
  | [], arguments => .ok (arguments, .none)
  | c :: rest, arguments =>
    match options.find? (·.short? = some c) with
    | none => .error .misuse
    | some option =>
      if option.takesValue then
        match rest with
        | [] => .ok (arguments, .value option)
        | '=' :: value => (·, .none) <$> arguments.give option (String.ofList value)
        | value => (·, .none) <$> arguments.give option (String.ofList value)
      else do readShort options rest (← arguments.give option "")

/-- Whether an argument begins like an option. A lone hyphen does not. -/
def looksLikeOption (argument : String) : Bool :=
  match argument.toList with
  | '-' :: _ :: _ => true
  | _ => false

/-- An argument that begins like an option. -/
def readOption (options : List Opt) (argument : String) (arguments : Arguments) :
    Except Refusal (Arguments × Pending) :=
  match argument.toList with
  | '-' :: '-' :: text => readLong options text arguments
  | '-' :: text => readShort options text arguments
  | _ => .error .misuse

/-- How a command takes its positional arguments: how many it needs, whether more
may follow, and whether the first names a file. -/
structure Shape where
  options : List Opt
  needed : Nat
  more : Bool
  isFile : Bool

/-- A further positional argument. -/
def Shape.place (shape : Shape) (arguments : Arguments) (argument : String) :
    Except Refusal Arguments :=
  let place := arguments.positional.length
  if shape.needed ≤ place && !shape.more then .error .misuse
  else if place = 0 && shape.isFile && argument.isEmpty then .error .misuse
  else .ok { arguments with positional := arguments.positional ++ [argument] }

/-- The arguments of a command. -/
def Shape.read (shape : Shape) : List String → Arguments → Except Refusal Arguments
  | [], arguments =>
    if arguments.positional.length < shape.needed then .error .misuse else .ok arguments
  | argument :: rest, arguments =>
    if argument = "--" then do
      let arguments ← rest.foldlM shape.place arguments
      if arguments.positional.length < shape.needed then .error .misuse else .ok arguments
    else if looksLikeOption argument then
      match readOption shape.options argument arguments with
      | .error refusal => .error refusal
      | .ok (arguments, .none) => shape.read rest arguments
      | .ok (arguments, .value option) =>
        match rest with
        | [] => .error .misuse
        | value :: rest =>
          if looksLikeOption value then .error .misuse
          else
            match arguments.give option value with
            | .error refusal => .error refusal
            | .ok arguments => shape.read rest arguments
    else
      match shape.place arguments argument with
      | .error refusal => .error refusal
      | .ok arguments => shape.read rest arguments

/-! ## Commands -/

/-- The names of the commands. -/
inductive CommandName where
  | check
  | simulate
  | toAutomaton
  | toPattern
  | toGrammar
  | generate
  | matchPattern
  | sample
deriving DecidableEq, Repr

namespace CommandName

/-- All commands. -/
def all : List CommandName :=
  [check, simulate, toAutomaton, toPattern, toGrammar, generate, matchPattern, sample]

/-- The word for a command. -/
def word : CommandName → String
  | check => "check"
  | simulate => "simulate"
  | toAutomaton => "to-automaton"
  | toPattern => "to-regex"
  | toGrammar => "to-grammar"
  | generate => "generate"
  | matchPattern => "regex"
  | sample => "example"

/-- The command of a word. -/
def ofWord? (text : String) : Option CommandName := all.find? (·.word = text)

/-- The arguments that a command takes. -/
def shape : CommandName → Shape
  | check | simulate => ⟨[.verbose, .help], 1, true, true⟩
  | toAutomaton | toGrammar => ⟨[.verbose, .help], 1, false, true⟩
  | toPattern => ⟨[.verbose, .help, .closure], 1, false, true⟩
  | generate => ⟨[.verbose, .help, .start, .amount, .maxSteps], 1, false, true⟩
  | matchPattern => ⟨[.verbose, .help], 1, true, false⟩
  | sample => ⟨[.verbose, .help], 0, false, false⟩

/-- Derivations have at most this many steps unless something else is asked for. -/
def defaultMaxSteps : Nat := 100

/-- The command with its arguments. -/
def command (name : CommandName) (arguments : Arguments) : Command :=
  let first := arguments.positional.headD ""
  let others := arguments.positional.tail
  match name with
  | check => .check first others
  | simulate => .simulate first others
  | toAutomaton => .toAutomaton first
  | toPattern => .toPattern first (arguments.has .closure)
  | toGrammar => .toGrammar first
  | generate =>
    .generate first (arguments.value? .start)
      (((arguments.value? .amount).bind readAmount?).getD 1)
      (((arguments.value? .maxSteps).bind readSteps?).getD defaultMaxSteps)
  | matchPattern => .matchPattern first others
  | sample => .sample

end CommandName

/-- The word that asks for help on a command. -/
def helpWord : String := "help"

/-- What asking for help on some words comes to. -/
def helpOn : List String → Refusal
  | [] => .help
  | [topic] =>
    if topic = helpWord || (CommandName.ofWord? topic).isSome then .help else .misuse
  | _ => .misuse

/-- The command that arguments stand for, after options that come before it. -/
def Command.read : List String → Arguments → Except Refusal Command
  | [], _ => .error .misuse
  | argument :: rest, arguments =>
    if looksLikeOption argument && argument ≠ "--" then
      match readOption [.verbose, .help, .version] argument arguments with
      | .error refusal => .error refusal
      | .ok (arguments, _) => Command.read rest arguments
    else if argument = helpWord then .error (helpOn rest)
    else
      match CommandName.ofWord? argument with
      | none => .error .misuse
      | some name => name.command <$> name.shape.read rest ⟨[], []⟩

/-- The command that arguments stand for. -/
def Command.ofArguments (arguments : List String) : Except Refusal Command :=
  Command.read arguments ⟨[], []⟩

end RightLinear.CommandLine
