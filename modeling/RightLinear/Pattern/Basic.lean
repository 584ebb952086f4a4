import RightLinear.Pattern.Token

/-!
# Patterns

A pattern is read into a tree: atoms, groups, repetitions, sequences and choices.
Tokens are consumed one by one against a stack of open groups, so what a piece of
a pattern contributes does not depend on what comes after it.

* `Pattern`, `Pattern.height`: the trees, and how deeply they are nested.
* `Pattern.ofTokens?`: the tree that tokens form, if their groups match up and
  every repetition has something to repeat.
* `Pattern.parse?`: the tree of a text.
-/

namespace RightLinear

/-- The tree of a pattern. -/
inductive Pattern where
  /-- Nothing, which stands for the empty word. -/
  | empty
  /-- What stands for at most one character. -/
  | atom (atom : Pattern.Atom)
  /-- A pattern in parentheses. -/
  | group (inner : Pattern)
  /-- A pattern some number of times. -/
  | repeated (count : Pattern.Count) (inner : Pattern)
  /-- Patterns one after another, two at least. -/
  | concat (items : List Pattern)
  /-- A choice between patterns, two at least. -/
  | alt (branches : List Pattern)
deriving Repr, Inhabited

namespace Pattern

/-! ## Height -/

/-- A single character is a leaf. A bracketed set is higher by one, and by one
more if it lists more than one range. -/
def Atom.height : Atom → Nat
  | oneOf set => if set.ranges.length ≤ 1 then 1 else 2
  | _ => 0

mutual

/-- How deeply a tree is nested. -/
def height : Pattern → Nat
  | empty => 0
  | atom a => a.height
  | group inner => inner.height + 1
  | repeated _ inner => inner.height + 1
  | concat items => heightAll items + 1
  | alt branches => heightAll branches + 1

/-- How deeply the deepest of some trees is nested. -/
def heightAll : List Pattern → Nat
  | [] => 0
  | p :: items => max p.height (heightAll items)

end

/-! ## Trees of tokens -/

/-- The sequence of some items. -/
def ofSequence : List Pattern → Pattern
  | [] => empty
  | [p] => p
  | items => concat items

/-- The choice between some branches. -/
def ofBranches : List Pattern → Pattern
  | [p] => p
  | branches => alt branches

/-- What has been read of a group that is still open: its finished branches, and
the items of the branch that is being read, both latest first. -/
structure Frame where
  branches : List Pattern
  items : List Pattern

namespace Frame

/-- A group of which nothing has been read. -/
def fresh : Frame := ⟨[], []⟩

/-- A further item. -/
def push (frame : Frame) (p : Pattern) : Frame := { frame with items := p :: frame.items }

/-- The branch that is being read, finished. -/
def finish (frame : Frame) : Frame := ⟨ofSequence frame.items.reverse :: frame.branches, []⟩

/-- The tree of the whole group. -/
def toPattern (frame : Frame) : Pattern := ofBranches frame.finish.branches.reverse

end Frame

/-- The innermost open group, and the groups around it from the inside out. -/
abbrev Stack := Frame × List Frame

/-- The open groups after one more token. -/
def Stack.step? : Stack → Token → Option Stack
  | (frame, outer), .opening => some (.fresh, frame :: outer)
  | (_, []), .closing => none
  | (frame, around :: outer), .closing => some (around.push (group frame.toPattern), outer)
  | (frame, outer), .bar => some (frame.finish, outer)
  | (frame, outer), .atom a => some (frame.push (atom a), outer)
  | (⟨_, []⟩, _), .repeated _ => none
  | (⟨branches, p :: items⟩, outer), .repeated count =>
    some (⟨branches, repeated count p :: items⟩, outer)

/-- The tree that tokens form. -/
def ofTokens? (tokens : List Token) : Option Pattern :=
  match tokens.foldlM Stack.step? (.fresh, []) with
  | some (frame, []) => some frame.toPattern
  | _ => none

/-! ## Reading -/

/-- Trees higher than this are refused. -/
def heightLimit : Nat := 250

/-- The tree of a text, however high it is. -/
def parse? (text : List Char) : Option Pattern := Token.readAll? text >>= ofTokens?

end Pattern

end RightLinear
