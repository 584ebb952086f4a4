/-!
# Words and languages

Grammars, automata and patterns all describe sets of words over characters.
-/

namespace RightLinear

/-- A word is a sequence of characters. -/
abbrev Word := List Char

/-- A language is a set of words. -/
abbrev Language := Word → Prop

end RightLinear
