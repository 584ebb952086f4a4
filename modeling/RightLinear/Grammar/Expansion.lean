import RightLinear.ConversionError

/-!
# The pattern of a grammar without recursion

A grammar in which no nonterminal continues with itself is written as a pattern
by writing every nonterminal out where it stands. While a nonterminal is written
out its production is set aside, so that meeting it again is noticed and the
expansion ends.

* `Grammar.expand`: the text of a nonterminal, with the productions that are not
  set aside.
* `Grammar.toPattern`: the pattern of the start symbol, if it is compiled.
-/

namespace RightLinear

/-- Alternatives separated by bars, in a group unless there is one only. -/
def groupAlternatives : List (List Char) → List Char
  | [] => []
  | [text] => text
  | texts => '(' :: ['|'].intercalate texts ++ [')']

namespace Grammar

/-- The production of a nonterminal, and the productions without it. -/
def takeProduction? (name : Name) : List Production → Option (Production × List Production)
  | [] => none
  | p :: rest =>
    if p.left = name then some (p, rest)
    else (takeProduction? name rest).map fun found => (found.1, p :: found.2)

/-- With every production that is set aside there are fewer left, so the expansion ends. -/
theorem length_takeProduction? {name : Name} {p : Production} :
    ∀ {available rest : List Production},
      takeProduction? name available = some (p, rest) → rest.length < available.length
  | [], _, h => by cases h
  | q :: available, rest, h => by
    unfold takeProduction? at h
    split at h
    · cases h; simp
    · obtain ⟨found, eq, same⟩ := Option.map_eq_some_iff.mp h
      cases same
      have := length_takeProduction? eq
      simp only [List.length_cons]
      omega

/-- The texts of alternatives, where `write` gives the text of a nonterminal. -/
def expandBodies (write : Name → Except ConversionError (List Char)) :
    List Body → Except ConversionError (List (List Char))
  | [] => .ok []
  | body :: rest => do
    let tail ←
      match body.continuation? with
      | none => .ok []
      | some next => write next
    return (Pattern.escape body.text ++ tail) :: (← expandBodies write rest)

/-- The text of a nonterminal, written out with the available productions. A
nonterminal whose production is set aside is being written out already. -/
def expand (G : Grammar) (available : List Production) (name : Name) :
    Except ConversionError (List Char) :=
  match _taken : takeProduction? name available with
  | none => .error (if G.defines name then .cycle name else .undefinedNonterminal name)
  | some (p, rest) => groupAlternatives <$> expandBodies (fun next => G.expand rest next) p.bodies
termination_by available.length
decreasing_by exact length_takeProduction? _taken

/-- The pattern of a grammar without recursion. -/
def toPattern (engine : Pattern.Engine) (G : Grammar) : Except ConversionError (List Char) :=
  G.expand G.productions G.start >>= Pattern.checked engine

end Grammar

end RightLinear
