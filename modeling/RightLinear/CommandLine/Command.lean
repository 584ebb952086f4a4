import RightLinear.Automaton.Directive
import RightLinear.Automaton.Printer
import RightLinear.Automaton.Productions
import RightLinear.Automaton.Simulation
import RightLinear.CommandLine.Arguments
import RightLinear.Grammar.Closure
import RightLinear.Grammar.Membership
import RightLinear.Grammar.Printer
import RightLinear.Grammar.Sampling
import RightLinear.Rule.File

/-!
# What commands do

A command reads at most one file and leaves some text, a message if it fails, and
an exit code. It is a function of the contents of that file, so that running it
needs nothing but reading the file first and printing afterwards.

* `Command.file?`: the file that a command reads.
* `Command.run`: what it leaves.
* `outcome`: what a list of arguments leaves.
-/

namespace RightLinear.CommandLine

/-- Why a file cannot be read. -/
inductive ReadFailure where
  /-- There is nothing at the path. -/
  | notFound
  /-- The file may not be read. -/
  | notPermitted
  /-- The path leads through a file. -/
  | notDirectory
  /-- The path leads to a directory. -/
  | isDirectory
  /-- The path or a name in it is too long. -/
  | nameTooLong
  /-- The bytes are no text. -/
  | notText
  /-- Something else went wrong. -/
  | other (message : String)
deriving DecidableEq, Repr

/-- The wording of a read failure. -/
def ReadFailure.message : ReadFailure → String
  | notFound => "No such file or directory (os error 2)"
  | notPermitted => "Permission denied (os error 13)"
  | notDirectory => "Not a directory (os error 20)"
  | isDirectory => "Is a directory (os error 21)"
  | nameTooLong => "File name too long (os error 36)"
  | notText => "stream did not contain valid UTF-8"
  | other message => message

/-- The text of a file's bytes. -/
def decode (bytes : ByteArray) : Except ReadFailure String :=
  (String.fromUTF8? bytes).elim (.error .notText) .ok

/-- What a run of the program leaves. -/
structure Outcome where
  code : Nat
  output : String
  message : String
deriving DecidableEq, Repr

/-- A run that ends well. -/
def Outcome.success (output : String) : Outcome := ⟨0, output, ""⟩

/-- A run that ends with a message. -/
def Outcome.failure (output message : String) : Outcome := ⟨1, output, message ++ "\n"⟩

/-- The outcome of a computation of the whole output. -/
def Outcome.ofExcept : Except String String → Outcome
  | .ok output => .success output
  | .error message => .failure "" message

namespace Command

/-- The file that a command reads. -/
def file? : Command → Option String
  | .check file _ | .simulate file _ | .toAutomaton file | .toPattern file _ | .toGrammar file
  | .generate file _ _ _ => some file
  | .matchPattern _ _ | .sample => none

/-- A message about a whole file. -/
def about (file : String) (message : String) : String :=
  (Location.wholeFile file).report message

/-- What a file stands for, or the reports of its faults. -/
def load {α : Type} (read : List Char → Except Faults α) (file : String)
    (source : Except ReadFailure String) : Except String α :=
  match source with
  | .error failure => .error (about file ("File error: " ++ failure.message))
  | .ok text => (read text.toList).mapError (reportFaults file)

/-- A line for each word, with its verdict. -/
def verdicts (accepts : Word → Bool) (inputs : List String) : String :=
  String.join (inputs.map fun input =>
    (if input.isEmpty then "ε" else input) ++ "\t" ++
      (if accepts input.toList then "accept" else "reject") ++ "\n")

/-- A number of sample words, one on each line after the `output` so far. -/
def generateFrom (file : String) (sampleWord : Draws → Except SamplingError Word × Draws) :
    Nat → String → Draws → Outcome
  | 0, output, _ => .success output
  | amount + 1, output, draws =>
    match sampleWord draws with
    | (.ok word, draws) =>
      generateFrom file sampleWord amount (output ++ String.ofList word ++ "\n") draws
    | (.error error, _) => .failure output (about file error.message)

/-- What a command leaves, given the contents of its file and random numbers. -/
def run (engine : Pattern.Engine) (source : Except ReadFailure String) (draws : Draws) :
    Command → Outcome
  | .check file inputs => .ofExcept do
    let G ← load Grammar.read file source
    return verdicts G.accepts inputs
  | .simulate file inputs => .ofExcept do
    let A ← load Automaton.read file source
    return verdicts A.accepts inputs
  | .toAutomaton file => .ofExcept do
    let G ← load Grammar.read file source
    return String.ofList G.toAutomaton.render
  | .toPattern file closure => .ofExcept do
    let G ← load Grammar.read file source
    let result := if closure then G.toPatternOrClosure engine else G.toPattern engine
    let text ← result.mapError fun error => about file error.message
    return String.ofList text ++ "\n"
  | .toGrammar file => .ofExcept do
    let A ← load Automaton.read file source
    let G ← A.toGrammar.mapError fun error => about file error.message
    return String.ofList G.render
  | .generate file start amount maxSteps =>
    match load Grammar.read file source with
    | .error message => .failure "" message
    | .ok G =>
      generateFrom file (G.sampleWord ((start.map String.toList).getD G.start) maxSteps)
        amount "" draws
  | .matchPattern pattern inputs =>
    match Pattern.compile engine pattern.toList with
    | .error refusal => .failure "" refusal.message
    | .ok p => .success (verdicts p.matchesSomewhere inputs)
  | .sample =>
    .success (String.ofList Grammar.sample.definition ++ "\n" ++
      String.ofList Grammar.sample.render)

end Command

/-- The name and version of the program. -/
def versionLine : String := "regula 0.1.0\n"

/-- What arguments that stand for no command leave. -/
def Refusal.outcome : Refusal → Outcome
  | .help => .success ""
  | .version => .success versionLine
  | .misuse => ⟨2, "", ""⟩

/-- What arguments leave, given an engine, a way to read files and random numbers. -/
def outcome (engine : Pattern.Engine) (readFile : String → Except ReadFailure String)
    (draws : Draws) (arguments : List String) : Outcome :=
  match Command.ofArguments arguments with
  | .error refusal => refusal.outcome
  | .ok command =>
    command.run engine ((command.file?.map readFile).getD (.error .notFound)) draws

end RightLinear.CommandLine
