/-!
# Characters with a meaning in patterns

A character that a pattern would read as punctuation stands for itself after a
backslash. Escaping is defined here once, for all that writes patterns.
-/

namespace RightLinear.Pattern

/-- The characters that patterns read as punctuation, or may come to read so. -/
def metacharacters : List Char := "\\.+*?()|[]\x7b\x7d^$#&-~".toList

/-- A character as a pattern for itself. -/
def escapeChar (c : Char) : List Char := if metacharacters.contains c then ['\\', c] else [c]

/-- A text as a pattern for itself. -/
def escape (text : List Char) : List Char := text.flatMap escapeChar

end RightLinear.Pattern
