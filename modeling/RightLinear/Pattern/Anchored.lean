import RightLinear.Pattern.Engine
import RightLinear.Pattern.Matching
import RightLinear.Pattern.Text

/-!
# Patterns for whole words

A pattern describes whole words, so its text is put into a group between the
marks for the beginning and the end. It has to be a pattern on its own as well:
otherwise a stray parenthesis could leave the group.

* `Pattern.compile`: the pattern that whole words are matched against.
* `Pattern.Engine.Fits`: texts whose programs an engine has the space for.
* `Pattern.accepts?`: whether a pattern describes a word.
-/

namespace RightLinear.Pattern

/-- The text of a pattern between the marks for the beginning and the end. -/
def anchor (text : List Char) : List Char := "^(?:".toList ++ text ++ ")$".toList

/-- The pattern of whole words that a text stands for. The text is compiled alone first. -/
def compile (engine : Engine) (text : List Char) : Except Refusal Pattern :=
  match read engine text with
  | .error refusal => .error refusal
  | .ok _ => read engine (anchor text)

/-- Whether the pattern of a text describes a word, if the text is compiled. -/
def accepts? (engine : Engine) (text : List Char) (w : Word) : Option Bool :=
  (compile engine text).toOption.map fun p => p.matchesSomewhere w

/-- Neither the program of a text nor that of its anchored form takes too much space. -/
def Engine.Fits (engine : Engine) (text : List Char) : Prop :=
  engine.size text ≤ sizeLimit ∧ engine.size (anchor text) ≤ sizeLimit

end RightLinear.Pattern
