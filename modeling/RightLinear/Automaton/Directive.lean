import RightLinear.Automaton.Basic
import RightLinear.Fault
import RightLinear.Text.Coordinate

/-!
# Automaton files

A line of an automaton file declares a state, the initial state, final states or
a transition. The arrow, the colon and the comma separate words even where no
blank stands around them, and the comma says nothing else. States that are only
mentioned are declared by that.

* `Directive`, `Directive.read`: what one line says.
* `Automaton.apply`: what it does.
* `Automaton.read`: the automaton of a text, or all its faults.
-/

namespace RightLinear

/-- What a line of an automaton file says. -/
inductive Directive where
  /-- There is a state, drawn at a position if one is given. -/
  | state (id : Nat) (position : Option Position)
  /-- A state is the initial one. -/
  | initial (id : Nat)
  /-- States are final. -/
  | final (ids : List Nat)
  /-- A transition joins two states. -/
  | transition (source target : Nat) (symbols : List Char)

namespace Directive

/-! ## Words of a line -/

/-- The line with blanks around its arrows and colons and in place of its
commas. -/
def spaceOut : List Char → List Char
  | [] => []
  | '-' :: '>' :: rest => " -> ".toList ++ spaceOut rest
  | c :: rest =>
    if c = ':' then " : ".toList ++ spaceOut rest
    else if c = ',' then ' ' :: spaceOut rest
    else c :: spaceOut rest

/-- State ids are below this bound. -/
def idBound : Nat := 0x10000000000000000

/-- The state id that a word stands for. -/
def readId (word : List Char) : Except Fault Nat :=
  (Numeral.read? idBound word).elim (.error (.invalidStateId word)) .ok

/-- The state ids that words stand for, up to the first that is none. -/
def readIds : List (List Char) → Except Fault (List Nat)
  | [] => .ok []
  | word :: rest => do return (← readId word) :: (← readIds rest)

/-- The coordinate that a word stands for. -/
def readCoordinate (word : List Char) : Except Fault Float :=
  (Coordinate.read? word).elim (.error (.invalidPosition word)) .ok

/-- The symbols that words stand for, up to the first that is not one
character. -/
def readSymbols : List (List Char) → Except Fault (List Char)
  | [] => .ok []
  | [c] :: rest => (c :: ·) <$> readSymbols rest
  | word :: _ => .error (.invalidSymbol word)

/-! ## Kinds of lines -/

/-- The rest of a line that declares a state: its id and up to two coordinates;
further words are ignored. -/
def readState : List (List Char) → Except Fault Directive
  | [] => .error (.invalidStateId [])
  | [id] => (.state · none) <$> readId id
  | [id, x] => do
    let _ ← readId id
    .error (.invalidPosition x)
  | id :: x :: y :: _ => do
    let id ← readId id
    let x ← readCoordinate x
    let y ← readCoordinate y
    return .state id (some ⟨x, y⟩)

/-- The rest of a line that names the initial state; further words are ignored. -/
def readInitial : List (List Char) → Except Fault Directive
  | [] => .error (.invalidStateId [])
  | id :: _ => .initial <$> readId id

/-- The rest of a line that names final states. -/
def readFinal : List (List Char) → Except Fault Directive
  | [] => .error (.invalidStateId [])
  | ids => .final <$> readIds ids

/-- A line that begins with the source of a transition. -/
def readTransition (source : List Char) (rest : List (List Char)) : Except Fault Directive := do
  let source ← readId source
  match rest with
  | ['-', '>'] :: rest =>
    match rest with
    | [] => .error (.invalidStateId [])
    | target :: rest =>
      let target ← readId target
      match rest with
      | [':'] :: symbols =>
        match ← readSymbols symbols with
        | [] => .error .missingSymbols
        | symbols => return .transition source target symbols
      | _ => .error .missingSymbols
  | _ => .error .missingArrow

/-- What the words of a line say. -/
def ofWords : List (List Char) → Except Fault Directive
  | [] => .error .blankLine
  | word :: rest =>
    if word = "state".toList then readState rest
    else if word = "initial".toList then readInitial rest
    else if word = "final".toList then readFinal rest
    else if word.all Char.isDigit then readTransition word rest
    else .error (.unknownDirective word)

/-- What a line says. -/
def read (line : List Char) : Except Fault Directive :=
  ofWords (Text.words (spaceOut (Text.stripComment line)))

end Directive

namespace Automaton

/-- The automaton with what a line says added to it. -/
def apply (A : Automaton) : Directive → Automaton
  | .state id none => A.ensureState id
  | .state id (some position) => (A.ensureState id).setPosition id position
  | .initial id => (A.ensureState id).setInitial id
  | .final ids => ids.foldl (fun A id => (A.ensureState id).setFinal id true) A
  | .transition source target symbols =>
    (((A.ensureState source).ensureState target).addTransition source target
      (.ofList symbols)).2

/-- The automaton that lines describe, applied in order. -/
def ofDirectives (directives : List Directive) : Automaton := directives.foldl apply ∅

/-- The automaton that a text stands for. -/
def read (text : List Char) : Except Faults Automaton :=
  (fun lines => ofDirectives (lines.map Text.Numbered.item)) <$> readLines Directive.read text

end Automaton

end RightLinear
