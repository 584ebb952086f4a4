import RightLinear.OrderedSet
import RightLinear.Pattern.Basic
import RightLinear.Reachability
import RightLinear.Word

/-!
# Matching a pattern

A pattern is matched by following sets of places in a text: from the places where
a piece of the pattern may begin to the places where it may end. The second half
of the module defines the same by single matches, without sets.

* `Pattern.ends`: the places where a match that begins at given places may end.
* `Pattern.matchesSomewhere`: whether a text has a match anywhere in it.
* `Pattern.Matches`: a match between two places of a text.
-/

namespace RightLinear.Pattern

/-! ## Sets of places -/

/-- Whether an atom matches at a place, and the place after it. -/
def Atom.after? (text : Array Char) (place : Nat) : Atom → Option Nat
  | literal c => if text[place]? = some c then some (place + 1) else none
  | dot => if text[place]?.any (· ≠ '\n') then some (place + 1) else none
  | oneOf set => if text[place]?.any set.contains then some (place + 1) else none
  | textStart => if place = 0 then some place else none
  | textEnd => if place = text.size then some place else none

/-- Places in ascending order, each of them once. -/
def inOrder (places : List Nat) : List Nat := (OrderedSet.ofList places).toList

/-- The places after a number of rounds, and whether rounds change nothing any
more. A match never leads back, so rounds that go on come to that soon, however
many there should be. -/
def rounds (round : List Nat → List Nat) : Nat → List Nat → List Nat × Bool
  | 0, places => (places, false)
  | n + 1, places =>
    let next := inOrder (round places)
    if next = places then (places, true) else rounds round n next

/-- The places after one round or more, in a text of some length, if there is a
limit up to so many rounds. -/
def roundsAgain (round : List Nat → List Nat) (length : Nat) (limit : Option Nat)
    (places : List Nat) : List Nat :=
  reachAgain round (limit.getD (length + 2))
    ((List.range (length + 1)).filter fun place => !places.contains place) places

/-- The places after as many rounds as a count allows, in a text of some length. -/
def roundsOf (round : List Nat → List Nat) (length : Nat) (count : Count) (places : List Nat) :
    List Nat :=
  match count.least with
  | 0 => inOrder (places ++ roundsAgain round length count.most places)
  | least + 1 =>
    match rounds round least places with
    | (places, true) => places
    | (places, false) =>
      inOrder (roundsAgain round length (count.most.map (· - least)) places)

mutual

/-- The places where a match that begins at one of the given places may end. -/
def ends (text : Array Char) : Pattern → List Nat → List Nat
  | _, [] => []
  | empty, places => places
  | atom a, places => places.filterMap fun place => a.after? text place
  | group inner, places => inner.ends text places
  | repeated count inner, places => roundsOf (inner.ends text) text.size count places
  | concat items, places => endsSequence text items places
  | alt branches, places => (endsBranches text branches places).eraseDups

/-- The same for patterns one after another. -/
def endsSequence (text : Array Char) : List Pattern → List Nat → List Nat
  | [], places => places
  | p :: items, places => endsSequence text items (p.ends text places)

/-- The same for a choice between patterns. -/
def endsBranches (text : Array Char) : List Pattern → List Nat → List Nat
  | [], _ => []
  | p :: branches, places => p.ends text places ++ endsBranches text branches places

end

/-- Whether a match begins and ends anywhere in a text. -/
def matchesSomewhere (p : Pattern) (w : Word) : Bool :=
  let text := w.toArray
  !(p.ends text (List.range (text.size + 1))).isEmpty

/-! ## Single matches -/

mutual

/-- A pattern matches a text between two places. -/
inductive Matches (w : Word) : Pattern → Nat → Nat → Prop
  | empty {i : Nat} : Matches w empty i i
  | literal {c : Char} {i : Nat} : w[i]? = some c → Matches w (atom (.literal c)) i (i + 1)
  | dot {c : Char} {i : Nat} : w[i]? = some c → c ≠ '\n' → Matches w (atom .dot) i (i + 1)
  | oneOf {set : Class} {c : Char} {i : Nat} :
    w[i]? = some c → set.contains c → Matches w (atom (.oneOf set)) i (i + 1)
  | textStart : Matches w (atom .textStart) 0 0
  | textEnd : Matches w (atom .textEnd) w.length w.length
  | group {p : Pattern} {i j : Nat} : Matches w p i j → Matches w (group p) i j
  | repeated {count : Count} {p : Pattern} {n i j : Nat} :
    count.least ≤ n → (∀ most, count.most = some most → n ≤ most) →
    MatchesTimes w p n i j → Matches w (repeated count p) i j
  | concat {items : List Pattern} {i j : Nat} :
    MatchesSequence w items i j → Matches w (concat items) i j
  | alt {p : Pattern} {branches : List Pattern} {i j : Nat} :
    p ∈ branches → Matches w p i j → Matches w (alt branches) i j

/-- A pattern matches a number of times in a row. -/
inductive MatchesTimes (w : Word) : Pattern → Nat → Nat → Nat → Prop
  | zero {p : Pattern} {i : Nat} : MatchesTimes w p 0 i i
  | succ {p : Pattern} {n i j k : Nat} :
    Matches w p i j → MatchesTimes w p n j k → MatchesTimes w p (n + 1) i k

/-- Patterns match one after another. -/
inductive MatchesSequence (w : Word) : List Pattern → Nat → Nat → Prop
  | nil {i : Nat} : MatchesSequence w [] i i
  | cons {p : Pattern} {items : List Pattern} {i j k : Nat} :
    Matches w p i j → MatchesSequence w items j k → MatchesSequence w (p :: items) i k

end

/-- A pattern matches the whole of a word. -/
def MatchesWhole (p : Pattern) (w : Word) : Prop := Matches w p 0 w.length

end RightLinear.Pattern
