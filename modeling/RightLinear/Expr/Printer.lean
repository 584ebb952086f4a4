import RightLinear.Expr.Basic
import RightLinear.Pattern.Text

/-!
# The pattern of an expression

An expression is written as a pattern with as few groups as its precedences
allow: a choice binds weakest, then a sequence, then a repetition. The empty
word is written as nothing.
-/

namespace RightLinear

namespace Expr

/-- How tightly an expression binds. -/
def precedence : Expr → Nat
  | alt _ => 0
  | concat _ => 1
  | star _ => 2
  | epsilon | literal _ => 3

/-- The text in a group if an expression binds more weakly than its place
demands. -/
def grouped (e : Expr) (place : Nat) (text : List Char) : List Char :=
  if e.precedence < place then '(' :: text ++ [')'] else text

mutual

/-- The pattern of an expression without a group around it. -/
def renderBare : Expr → List Char
  | epsilon => []
  | literal c => Pattern.escapeChar c
  | concat items => renderSequence items
  | alt items => renderAlternatives items
  | star inner => grouped inner 3 (renderBare inner) ++ ['*']

/-- The patterns of the items of a sequence, one after another. -/
def renderSequence : List Expr → List Char
  | [] => []
  | e :: items => grouped e 1 (renderBare e) ++ renderSequence items

/-- The patterns of the items of a choice, separated by bars. -/
def renderAlternatives : List Expr → List Char
  | [] => []
  | [e] => grouped e 1 (renderBare e)
  | e :: items => grouped e 1 (renderBare e) ++ '|' :: renderAlternatives items

end

/-- The pattern of an expression. -/
def render (e : Expr) : List Char := e.renderBare

end Expr

end RightLinear
