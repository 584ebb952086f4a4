import RightLinear.Pattern.Basic

/-!
# Engines

A pattern is compiled by an engine before anything is searched for. An engine refuses a
text that is no pattern, a tree that is nested too deeply, and a tree whose program would
take too much space. The first two can be told from the text. How many bytes a program
takes is the engine's own affair, and so is the wording of its complaints; whatever is
proved about patterns is proved for all engines.

* `Pattern.Refusal`: why a text is refused.
* `Pattern.Engine`, `Pattern.read`: what an engine adds to the text, and the tree of a text
  that it compiles.
* `Pattern.Engine.counting`: an engine to run with, which estimates its programs.
-/

namespace RightLinear.Pattern

/-! ## Refusals -/

/-- Why a text is refused. -/
inductive Refusal where
  /-- The text is no pattern or is nested too deeply, about which the engine complains. -/
  | malformed (complaint : String)
  /-- The program of the pattern would take more bytes than the limit. -/
  | oversized (limit : Nat)
deriving DecidableEq, Repr

/-- The wording of a refusal. -/
def Refusal.message : Refusal → String
  | malformed complaint => complaint
  | oversized limit => "Compiled regex exceeds size limit of " ++ toString limit ++ " bytes."

/-- What is known of an engine: the bytes that its program for a text takes, and its
complaint about a text that is no pattern. -/
structure Engine where
  size : List Char → Nat
  complaint : List Char → String

/-- Programs that take more bytes than this are refused, unless a limit is asked for. -/
def sizeLimit : Nat := 10485760

/-- The tree of a text that an engine compiles. -/
def read (engine : Engine) (text : List Char) : Except Refusal Pattern :=
  match parse? text with
  | none => .error (.malformed (engine.complaint text))
  | some p =>
    if heightLimit < p.height then .error (.malformed (engine.complaint text))
    else if sizeLimit < engine.size text then .error (.oversized sizeLimit)
    else .ok p

/-! ## An estimate of programs -/

/-- The bytes of a character that an atom lists. A set is counted as one. -/
def Atom.bytes : Atom → Nat
  | literal c => c.utf8Size
  | dot | oneOf _ => 1
  | textStart | textEnd => 0

/-- One for a mark, which reads nothing. -/
def Atom.marks : Atom → Nat
  | textStart | textEnd => 1
  | _ => 0

/-- How often a program has what is repeated. -/
def Count.copies (count : Count) : Nat := count.most.getD (max count.least 1)

section

variable (weight : Atom → Nat) (times : Count → Nat)

mutual

/-- The weights of all atoms in a tree, those of a repetition so many times. -/
def tally : Pattern → Nat
  | empty => 0
  | atom a => weight a
  | group inner => tally inner
  | repeated count inner => times count * tally inner
  | concat items => tallyAll items
  | alt branches => tallyAll branches

/-- The weights of all atoms in some trees. -/
def tallyAll : List Pattern → Nat
  | [] => 0
  | p :: items => tally p + tallyAll items

end

end

/-- The states that a program has at least: one for each byte to be read, with the
repetitions written out, one for each mark, and the four around them. -/
def states (p : Pattern) : Nat :=
  tally Atom.bytes Count.copies p + tally Atom.marks (fun _ => 1) p + 4

/-- How many bytes a state takes. -/
def stateSize : Nat := 32

/-- An engine to run with. It goes by the states that are listed in a pattern, so it is
exact for a sequence of characters between marks, and mistaken where states are shared or
others are needed to connect them. -/
def Engine.counting : Engine where
  size text := (parse? text).elim 0 fun p => p.states * stateSize
  complaint _ := "regex parse error:"

end RightLinear.Pattern
