import RightLinear.Rule.Basic

/-!
# How rules are spelled

The format of a rule line as a relation between texts and what they say, with
blanks allowed between tokens and words read as far as they go.

* `Token.Spells`: the spellings of one token.
* `Token.Line`: the texts of a sequence of tokens.
* `Body.Spells`, `Rule.Line`: the texts of an alternative and of a rule.
-/

namespace RightLinear

namespace Token

/-- A spelling of a token. -/
inductive Spells : List Char → Token → Prop
  | arrow : Spells ['-', '>'] separator
  | equals : Spells ['='] separator
  | bar : Spells ['|'] bar
  | epsilon : Spells ['ε'] empty
  | quoted {quote : Char} {text : List Char} :
    isQuote quote → quote ∉ text → Spells (quote :: text ++ [quote]) (quoted text)
  | word {text : List Char} :
    text ≠ [] → text.all Char.isAlphanum → Spells text (word text)

/-- A text that a character could be joined to without a blank, so that both are
one token: letters and digits before a letter or digit. -/
def Joins (text rest : List Char) : Prop :=
  text.all Char.isAlphanum ∧ ∃ c, rest.head? = some c ∧ c.isAlphanum

/-- A line that holds these tokens and otherwise only blanks; a word is as long as
it can be. -/
inductive Line : List Char → List Token → Prop
  | nil : Line [] []
  | blank {c : Char} {rest : List Char} {tokens : List Token} :
    Text.isBlank c → Line rest tokens → Line (c :: rest) tokens
  | token {text rest : List Char} {token : Token} {tokens : List Token} :
    Spells text token → ¬ Joins text rest → Line rest tokens →
    Line (text ++ rest) (token :: tokens)

end Token

/-- A spelling of an alternative as a single run of text. -/
inductive Body.Spells : List Char → Body → Prop
  | empty : Spells [] empty
  | terminal {text : List Char} :
    text ≠ [] → (∀ c ∈ text, ¬ c.isUpper) → Spells text (terminal text)
  | continued {text next : List Char} :
    text ≠ [] → (∀ c ∈ text, ¬ c.isUpper) → isNonterminal next →
    Spells (text ++ next) (continued text next)

namespace Rule

/-- The texts of tokens that are neither separators nor bars, one after another. -/
inductive Run : List Token → List Char → Prop
  | nil : Run [] []
  | empty {tokens : List Token} {text : List Char} :
    Run tokens text → Run (.empty :: tokens) text
  | word {word text : List Char} {tokens : List Token} :
    Run tokens text → Run (.word word :: tokens) (word ++ text)

/-- Tokens that stand for alternatives, with bars between them. -/
inductive Choice : List Token → List Body → Prop
  | last {tokens : List Token} {text : List Char} {body : Body} :
    Run tokens text → Body.Spells text body → Choice tokens [body]
  | more {tokens others : List Token} {text : List Char} {body : Body} {bodies : List Body} :
    Run tokens text → Body.Spells text body → Choice others bodies →
    Choice (tokens ++ .bar :: others) (body :: bodies)

/-- A line, without its comment, that stands for a rule. -/
def Line (text : List Char) (rule : Rule) : Prop :=
  ∃ tokens, isNonterminal rule.head ∧ Choice tokens rule.bodies ∧
    Token.Line text (.word rule.head :: .separator :: tokens)

end Rule

end RightLinear
