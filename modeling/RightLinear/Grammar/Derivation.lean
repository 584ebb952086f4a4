import RightLinear.Grammar.Basic

/-!
# Derivations

What a nonterminal derives, defined by the alternatives of each nonterminal and
by nothing else. `Grammar.Derives` is the relation that the recogniser, the
automaton of a grammar and the patterns of a grammar are measured against.

* `Grammar.Derives`: a nonterminal derives a word.
* `Grammar.derives_iff_exists_body`: the same, one alternative at a time.
* `Grammar.DerivesIn`: the same, with the number of alternatives applied.
* `Grammar.Continues`: an alternative of one nonterminal continues with another.
-/

namespace RightLinear

namespace Grammar

/-- A nonterminal derives a word: by an alternative that ends the derivation, or
by one whose terminal begins the word and whose nonterminal derives the rest. -/
inductive Derives (G : Grammar) : Name → Word → Prop
  | empty {name : Name} : .empty ∈ G.bodies name → Derives G name []
  | terminal {name : Name} {text : Word} :
    .terminal text ∈ G.bodies name → Derives G name text
  | continued {name next : Name} {text rest : Word} :
    .continued text next ∈ G.bodies name → Derives G next rest →
    Derives G name (text ++ rest)

/-- A nonterminal derives a word by a number of applied alternatives. -/
inductive DerivesIn (G : Grammar) : Nat → Name → Word → Prop
  | empty {name : Name} : .empty ∈ G.bodies name → DerivesIn G 1 name []
  | terminal {name : Name} {text : Word} :
    .terminal text ∈ G.bodies name → DerivesIn G 1 name text
  | continued {steps : Nat} {name next : Name} {text rest : Word} :
    .continued text next ∈ G.bodies name → DerivesIn G steps next rest →
    DerivesIn G (steps + 1) name (text ++ rest)

/-- Some alternative of a nonterminal continues with another. -/
def Continues (G : Grammar) (name next : Name) : Prop :=
  ∃ text, .continued text next ∈ G.bodies name

/-- The language of a grammar: what its start symbol derives. -/
def language (G : Grammar) : Language := G.Derives G.start

/-- What is left after the terminal of an alternative: a word that its nonterminal
derives, or nothing if it has none. -/
def DerivesFrom (G : Grammar) : Option Name → Word → Prop
  | none, w => w = []
  | some name, w => G.Derives name w

/-- A nonterminal derives what the terminals of its alternatives and their
nonterminals make up. -/
theorem derives_iff_exists_body {G : Grammar} {name : Name} {w : Word} :
    G.Derives name w ↔
      ∃ body ∈ G.bodies name, ∃ rest, w = body.text ++ rest ∧
        G.DerivesFrom body.continuation? rest := by
  constructor
  · intro h
    cases h with
    | empty mem => exact ⟨_, mem, [], rfl, rfl⟩
    | terminal mem => exact ⟨_, mem, [], (List.append_nil w).symm, rfl⟩
    | continued mem h => exact ⟨_, mem, _, rfl, h⟩
  · rintro ⟨body, mem, rest, rfl, h⟩
    cases body with
    | empty =>
      obtain rfl : rest = [] := h
      exact .empty mem
    | terminal text =>
      obtain rfl : rest = [] := h
      rw [List.append_nil]
      exact .terminal mem
    | continued text next => exact .continued mem h

/-- A nonterminal derives a word exactly if it does so in some number of steps. -/
theorem derives_iff_exists_derivesIn {G : Grammar} {name : Name} {w : Word} :
    G.Derives name w ↔ ∃ steps, G.DerivesIn steps name w := by
  constructor
  · intro h
    induction h with
    | empty mem => exact ⟨1, .empty mem⟩
    | terminal mem => exact ⟨1, .terminal mem⟩
    | continued mem _ ih => exact ih.elim fun steps h => ⟨steps + 1, .continued mem h⟩
  · rintro ⟨steps, h⟩
    induction h with
    | empty mem => exact .empty mem
    | terminal mem => exact .terminal mem
    | continued mem _ ih => exact .continued mem ih

end Grammar

end RightLinear
