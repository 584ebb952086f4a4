import RightLinear.Expr.Basic
import RightLinear.Word

/-!
# The language of an expression

The words an expression denotes, by the shape of its tree alone. A sequence of
no items denotes the empty word, and a choice between no items nothing.
-/

namespace RightLinear

namespace Expr

/-- An expression denotes a word. -/
inductive Denotes : Expr → Word → Prop
  | epsilon : Denotes epsilon []
  | literal {c : Char} : Denotes (literal c) [c]
  | concatNil : Denotes (concat []) []
  | concatCons {e : Expr} {items : List Expr} {u v : Word} :
    Denotes e u → Denotes (concat items) v → Denotes (concat (e :: items)) (u ++ v)
  | alt {e : Expr} {items : List Expr} {w : Word} :
    e ∈ items → Denotes e w → Denotes (alt items) w
  | starNil {inner : Expr} : Denotes (star inner) []
  | starCons {inner : Expr} {u v : Word} :
    Denotes inner u → Denotes (star inner) v → Denotes (star inner) (u ++ v)

end Expr

end RightLinear
