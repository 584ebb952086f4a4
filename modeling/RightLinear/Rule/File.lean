import RightLinear.Rule.Basic

/-!
# Grammar files

A grammar file is a list of rule lines. The grammar starts with the nonterminal
of the first rule, and rules for the same nonterminal are joined; a file without
rules stands for the empty word. Nonterminals that are used but head no rule are
no fault, since they only make some derivations dead ends: they are noticed.

* `GrammarFile.read`: the rules of a text, or all its faults.
* `GrammarFile.grammar`, `GrammarFile.notices`: what the rules amount to.
-/

namespace RightLinear

open Text (Numbered)

/-- The rules of a file, each on its line. -/
structure GrammarFile where
  rules : List (Numbered Rule)
deriving DecidableEq, Repr

/-- What is noticed about a file that can be read. -/
inductive Notice where
  /-- There is no rule in the file. -/
  | noRules
  /-- Something on a line is questionable. -/
  | questioned (fault : Numbered Fault)
deriving DecidableEq, Repr

/-- The text of a notice about a file. -/
def Notice.render (file : String) : Notice → String
  | noRules => "no rules found, using S -> ε"
  | questioned fault => reportFault file fault

namespace GrammarFile

/-- The rules of a text. -/
def read (text : List Char) : Except Faults GrammarFile :=
  GrammarFile.mk <$> readLines Rule.read text

/-- The alternatives of a file, in order. -/
def alternatives (file : GrammarFile) : List (Name × Body) :=
  file.rules.flatMap fun rule => rule.item.bodies.map (rule.item.head, ·)

/-- The grammar of a file. -/
def grammar (file : GrammarFile) : Grammar :=
  match file.rules with
  | [] => Grammar.emptyWord
  | first :: _ => Grammar.ofRules first.item.head file.alternatives

/-- Each use of a nonterminal that heads no rule, at the line that uses it; or
that there are no rules at all. -/
def notices (file : GrammarFile) : List Notice :=
  let G := file.grammar
  match file.rules with
  | [] => [.noRules]
  | rules => rules.flatMap fun rule =>
    ((rule.item.bodies.filterMap Body.continuation?).filter fun name => !G.defines name).map
      fun name => .questioned ⟨rule.line, .undefinedNonterminal name⟩

end GrammarFile

/-- The grammar that a text stands for. -/
def Grammar.read (text : List Char) : Except Faults Grammar :=
  GrammarFile.grammar <$> GrammarFile.read text

end RightLinear
