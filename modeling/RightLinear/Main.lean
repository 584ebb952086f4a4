import RightLinear.CommandLine.Command

/-!
# The program

The outer layer: read the file that the arguments name, draw random numbers, and
print what the command leaves.
-/

namespace RightLinear.CommandLine

/-- The number of a system error, which may be reported with its sign changed. -/
def errorNumber (code : UInt32) : UInt32 := if code < 0x80000000 then code else 0 - code

/-- Why the system could not read a file. -/
def ReadFailure.ofError : IO.Error → ReadFailure
  | .noFileOrDirectory .. => .notFound
  | .permissionDenied .. => .notPermitted
  | .inappropriateType _ code _ => if errorNumber code = 21 then .isDirectory else .notDirectory
  | .invalidArgument _ code details =>
    if errorNumber code = 36 then .nameTooLong else .other details
  | error => .other (toString error)

/-- The contents of a file. -/
def readFile (file : String) : IO (Except ReadFailure String) := do
  try
    return decode (← IO.FS.readBinFile file)
  catch error =>
    return .error (.ofError error)

/-- Random numbers. -/
def randomNumbers (amount : Nat) : IO (List UInt32) := do
  let numbers ← (List.range amount).mapM fun _ => IO.rand 0 0xFFFFFFFF
  return numbers.map Nat.toUInt32

/-- As many random numbers as a word takes. -/
def randomDraws (sampleWord : Draws → Except SamplingError Word × Draws) : IO Draws := do
  let mut numbers ← randomNumbers 64
  -- numbers that were not enough stay in front of the new ones, so the word begins as before
  while numbers.length < (sampleWord (.ofList numbers)).2.taken do
    numbers := numbers ++ (← randomNumbers numbers.length)
  return .ofList numbers

/-- Prints what a run leaves. -/
def Outcome.show (outcome : Outcome) : IO UInt32 := do
  IO.print outcome.output
  IO.eprint outcome.message
  return outcome.code.toUInt32

/-- Sample words one by one, each from random numbers of its own. -/
def produce (file : String) (sampleWord : Draws → Except SamplingError Word × Draws) :
    Nat → IO UInt32
  | 0 => return 0
  | amount + 1 => do
    let draws ← randomDraws sampleWord
    let code ← (Command.generateFrom file sampleWord 1 "" draws).show
    if code = 0 then produce file sampleWord amount else return code

end RightLinear.CommandLine

open RightLinear RightLinear.CommandLine in
/-- Runs the command that the arguments stand for. -/
def main (arguments : List String) : IO UInt32 := do
  match Command.ofArguments arguments with
  | .error refusal => refusal.outcome.show
  | .ok command =>
    let source ←
      match command.file? with
      | none => pure (.error .notFound)
      | some file => readFile file
    match command with
    | .generate file start amount maxSteps =>
      match Command.load Grammar.read file source with
      | .error message => (Outcome.failure "" message).show
      | .ok G =>
        let first := (start.map String.toList).getD G.start
        produce file (G.sampleWord first maxSteps) amount
    | command => (command.run .counting source (.ofList [])).show
