import RightLinear.Expr.Basic

/-!
# Simplified trees

The trees that the simplifying operations build, and a description of such trees
that does not mention the operations.

* `Expr.Built`: trees built from the empty word and from characters.
* `Expr.Simplified`: trees in which no node could be written in a shorter way.
-/

namespace RightLinear

namespace Expr

/-- The operations build this tree from the empty word and from characters. -/
inductive Built : Expr → Prop
  | epsilon : Built epsilon
  | literal {c : Char} : Built (literal c)
  | followedBy {e f : Expr} : Built e → Built f → Built (e.followedBy f)
  | or {e f : Expr} : Built e → Built f → Built (e.or f)
  | repeated {e : Expr} : Built e → Built e.repeated

/-- Whether a tree is a sequence. -/
def isConcat : Expr → Bool
  | concat _ => true
  | _ => false

/-- Whether a tree is a choice. -/
def isAlt : Expr → Bool
  | alt _ => true
  | _ => false

/-- Every node is simple: a sequence has two items at least, none of them empty or
a sequence; a choice has two different items at least, none of them a choice, and
not both the empty word and a repetition; a repetition is of nothing that is
empty, a repetition, or a choice with the empty word. -/
inductive Simplified : Expr → Prop
  | epsilon : Simplified epsilon
  | literal {c : Char} : Simplified (literal c)
  | concat {items : List Expr} :
    2 ≤ items.length → Expr.epsilon ∉ items → (∀ e ∈ items, ¬ e.isConcat) →
    (∀ e ∈ items, Simplified e) → Simplified (concat items)
  | alt {items : List Expr} :
    2 ≤ items.length → items.Nodup → (∀ e ∈ items, ¬ e.isAlt) →
    (Expr.epsilon ∈ items → ∀ e ∈ items, ¬ e.isStar) →
    (∀ e ∈ items, Simplified e) → Simplified (alt items)
  | star {inner : Expr} :
    ¬ inner.isStar → Expr.epsilon ∉ inner.alternativeItems →
    Simplified inner → Simplified (star inner)

end Expr

end RightLinear
