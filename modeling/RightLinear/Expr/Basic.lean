/-!
# Regular expressions

Expressions for regular languages as trees, with sequences and alternatives of
any length. The operations `concat`, `alt` and `star` build the tree of a
concatenation, a union and a repetition, and keep it simple while doing so: they
flatten nested sequences and alternatives, drop repeated alternatives, and drop
the empty word where it adds nothing.
-/

namespace RightLinear

/-- A regular expression. -/
inductive Expr where
  /-- The empty word. -/
  | epsilon
  /-- One character. -/
  | literal (c : Char)
  /-- The words of the items one after another. -/
  | concat (items : List Expr)
  /-- The words of any of the items. -/
  | alt (items : List Expr)
  /-- Any number of words of the inner expression. -/
  | star (inner : Expr)
deriving Repr, Inhabited

namespace Expr

/-! ## Equality -/

mutual

/-- Whether two expressions are the same tree. -/
def same : Expr → Expr → Bool
  | epsilon, epsilon => true
  | literal c, literal d => c = d
  | concat items, concat others => sameItems items others
  | alt items, alt others => sameItems items others
  | star inner, star other => same inner other
  | _, _ => false

/-- Whether two lists of expressions are the same. -/
def sameItems : List Expr → List Expr → Bool
  | [], [] => true
  | e :: items, f :: others => same e f && sameItems items others
  | _, _ => false

end

mutual

theorem same_iff : ∀ {e f : Expr}, same e f = true ↔ e = f
  | epsilon, f => by cases f <;> simp [same]
  | literal c, f => by cases f <;> simp [same]
  | concat items, f => by cases f <;> simp [same, sameItems_iff]
  | alt items, f => by cases f <;> simp [same, sameItems_iff]
  | star inner, f => by cases f <;> simp [same, same_iff]

theorem sameItems_iff : ∀ {items others : List Expr}, sameItems items others = true ↔ items = others
  | [], others => by cases others <;> simp [sameItems]
  | e :: items, others => by cases others <;> simp [sameItems, same_iff, sameItems_iff]

end

instance : DecidableEq Expr := fun _ _ => decidable_of_iff _ same_iff

/-! ## Simplifying operations -/

/-- Whether an expression is a repetition. -/
def isStar : Expr → Bool
  | star _ => true
  | _ => false

/-- The items that an expression adds to a sequence. -/
def sequenceItems : Expr → List Expr
  | epsilon => []
  | concat items => items
  | e => [e]

/-- The items that an expression adds to alternatives. -/
def alternativeItems : Expr → List Expr
  | alt items => items
  | e => [e]

/-- The sequence of some items. -/
def ofSequence : List Expr → Expr
  | [] => epsilon
  | [e] => e
  | items => concat items

/-- The choice between some items. -/
def ofAlternatives : List Expr → Expr
  | [e] => e
  | items => alt items

/-- The items without the empty word. -/
def dropEpsilon (items : List Expr) : List Expr := items.filter (· ≠ epsilon)

/-- The items without the empty word if one of them is a repetition, which
contains it already. -/
def absorbEpsilon (items : List Expr) : List Expr :=
  if items.any isStar then dropEpsilon items else items

/-- One expression after another. -/
def followedBy (e f : Expr) : Expr := ofSequence (e.sequenceItems ++ f.sequenceItems)

/-- Either of two expressions. -/
def or (e f : Expr) : Expr :=
  ofAlternatives (absorbEpsilon (e.alternativeItems ++ f.alternativeItems).eraseDups)

/-- Any number of repetitions of an expression. -/
def repeated : Expr → Expr
  | epsilon => epsilon
  | star inner => star inner
  | alt items =>
    match dropEpsilon items with
    | [] => epsilon
    | items => star (ofAlternatives items)
  | e => star e

end Expr

end RightLinear
