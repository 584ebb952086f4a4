import RightLinear.Report
import RightLinear.Text.Line

/-!
# Faults of a line

Every line of a file is read on its own, and a line that cannot be read has one
fault. A file with faults is refused with all of them, in line order.

* `Fault`, `Fault.message`: the causes and their wording.
* `readLines`: reading all lines of a text, or collecting every fault.
-/

namespace RightLinear

/-- Why a line is refused, or in the case of `undefinedNonterminal` why it is
questioned. -/
inductive Fault where
  /-- A rule line without its separator. -/
  | missingSeparator
  /-- A rule line with a second separator. -/
  | unexpectedSeparator
  /-- A rule line that does not begin with a nonterminal. -/
  | missingNonterminal
  /-- A quote that is not closed on its line. -/
  | unmatchedQuote
  /-- A character that no rule line holds outside quotes. -/
  | invalidCharacter (c : Char)
  /-- An alternative that is not empty, a terminal, or a terminal and one nonterminal. -/
  | notRightLinear (text : List Char)
  /-- A nonterminal that is used but heads no rule. -/
  | undefinedNonterminal (name : List Char)
  /-- A separator of alternatives inside an alternative. -/
  | unsplitAlternatives
  /-- A word that is not the id of a state. -/
  | invalidStateId (text : List Char)
  /-- A word that is not a coordinate, or a lone coordinate. -/
  | invalidPosition (text : List Char)
  /-- A transition without its arrow. -/
  | missingArrow
  /-- A transition without its colon, or without a symbol after it. -/
  | missingSymbols
  /-- A symbol of a transition that is not one character. -/
  | invalidSymbol (text : List Char)
  /-- A line of an automaton that begins with an unknown word. -/
  | unknownDirective (text : List Char)
  /-- A line that holds no word. -/
  | blankLine
deriving DecidableEq, Repr

/-- The wording of a fault. -/
def Fault.message : Fault → String
  | missingSeparator => "Expected `->` after nonterminal"
  | unexpectedSeparator => "Unexpected `->` encountered"
  | missingNonterminal => "Tried to define something other than a nonterminal"
  | unmatchedQuote => "Unmatched quotes"
  | invalidCharacter c => "Unexpected character " ++ cite [c]
  | notRightLinear text =>
    cite text ++ " is not right-linear (expected ε, a terminal, or a terminal followed by one " ++
      "nonterminal)"
  | undefinedNonterminal name => "Could not find definition for " ++ cite name
  | unsplitAlternatives =>
    "Alternatives were not fully split (this is a problem with regula, not the file)"
  | invalidStateId text => cite text ++ " is not a state id"
  | invalidPosition text => cite text ++ " is not a position"
  | missingArrow => "Expected `->` between the two states of a transition"
  | missingSymbols => "Expected `:` followed by the transition's symbols"
  | invalidSymbol text => "Transition symbol " ++ cite text ++ " must be a single character"
  | unknownDirective text => "Unknown line start " ++ cite text
  | blankLine =>
    "Blank line encountered in rule parser (this is a problem with regula, not the file)"

open Text (Numbered ruleLines)

/-- The faults of a file, each on its line, in line order. -/
abbrev Faults := List (Numbered Fault)

/-- The report of a fault found in a file. -/
def reportFault (file : String) (fault : Numbered Fault) : String :=
  Location.report ⟨file, fault.line⟩ fault.item.message

/-- The reports of all faults, one on each line. -/
def reportFaults (file : String) (faults : Faults) : String :=
  "\n".intercalate (faults.map (reportFault file))

variable {α : Type}

/-- The faults that reading every line of a text gives. -/
def faultsOf (read : List Char → Except Fault α) (text : List Char) : Faults :=
  (ruleLines text).filterMap fun line =>
    match read line.item with
    | .ok _ => none
    | .error fault => some ⟨line.line, fault⟩

/-- The lines of a text that can be read, as what they say. -/
def itemsOf (read : List Char → Except Fault α) (text : List Char) : List (Numbered α) :=
  (ruleLines text).filterMap fun line =>
    match read line.item with
    | .ok item => some ⟨line.line, item⟩
    | .error _ => none

/-- What every line of a text says, or all faults if there are any. -/
def readLines (read : List Char → Except Fault α) (text : List Char) :
    Except Faults (List (Numbered α)) :=
  if faultsOf read text = [] then .ok (itemsOf read text) else .error (faultsOf read text)

end RightLinear
