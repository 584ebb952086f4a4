import RightLinear.Grammar.Basic

/-!
# The text of a grammar

A grammar is written as a grammar file: one line for each production, its
alternatives separated by bars, the empty word written `ε` and a terminal
followed by its nonterminal without a gap.
-/

namespace RightLinear

/-- Pieces of text with a separator between them. -/
def joinWith (separator : List Char) (pieces : List (List Char)) : List Char :=
  separator.intercalate pieces

/-- The text of an alternative. -/
def Body.render : Body → List Char
  | .empty => ['ε']
  | .terminal text => text
  | .continued text next => text ++ next

/-- The line of a production. -/
def Production.render (p : Production) : List Char :=
  p.left ++ " -> ".toList ++ joinWith " | ".toList (p.bodies.map Body.render)

namespace Grammar

/-- The grammar as a file. -/
def render (G : Grammar) : List Char :=
  G.productions.flatMap fun p => p.render ++ ['\n']

/-- The grammar as a tuple: nonterminals, terminals, productions and start
symbol. -/
def definition (G : Grammar) : List Char :=
  "G = (\x7b".toList ++ joinWith ", ".toList G.nonterminals ++
    "\x7d, \x7b".toList ++ joinWith ", ".toList (G.terminals.map fun c => [c]) ++
    "\x7d, P, ".toList ++ G.start ++ [')']

end Grammar

end RightLinear
