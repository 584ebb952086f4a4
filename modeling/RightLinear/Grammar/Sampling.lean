import RightLinear.Grammar.Basic
import RightLinear.Report

/-!
# Sample words of a grammar

A word is produced by a random derivation. Alternatives that continue with an
undefined nonterminal are never chosen, and from half of the allowed steps on an
alternative that ends the derivation is preferred.

* `Draws`, `Draws.choose`: random numbers, and the choice of a list element.
* `Grammar.walk`: a derivation, with the alternatives it applied.
* `Grammar.sampleWord`: its word, or why there is none.
-/

namespace RightLinear

/-! ## Random choice -/

/-- A source of random numbers: some that are still to come, zeros after them,
and how many were taken. -/
structure Draws where
  pending : List UInt32
  taken : Nat
deriving DecidableEq, Repr

namespace Draws

/-- The source of some numbers, then zeros. -/
def ofList (numbers : List UInt32) : Draws := ⟨numbers, 0⟩

/-- The largest accepted low half of the product of a number and the length `n` of
a list: every element of the list is reached by equally many accepted numbers. -/
def zone (n : Nat) : Nat := n * Nat.pow 2 (31 - n.log2) - 1

/-- An index into a list of `n` elements: the high half of the product of a number
and `n`. Numbers whose product has its low half outside the zone are passed over;
zero never is. -/
def index (n : Nat) : List UInt32 → Nat → Nat × Draws
  | [], taken => (0, ⟨[], taken + 1⟩)
  | number :: pending, taken =>
    let product := number.toNat * n
    if product % UInt32.size ≤ zone n then (product / UInt32.size, ⟨pending, taken + 1⟩)
    else index n pending (taken + 1)

variable {α : Type}

/-- An element of a list. Nothing is drawn for the empty list. -/
def choose (draws : Draws) : List α → Option α × Draws
  | [] => (none, draws)
  | l =>
    let (i, draws) := index l.length draws.pending draws.taken
    (l[i]?, draws)

end Draws

/-! ## Derivations -/

/-- Why no word was produced. -/
inductive SamplingError where
  /-- A nonterminal without production was needed. -/
  | undefinedNonterminal (name : Name)
  /-- The derivation from this nonterminal took too many steps. -/
  | noTerminatingDerivation (name : Name)
deriving DecidableEq, Repr

/-- The wording of a sampling error. -/
def SamplingError.message : SamplingError → String
  | undefinedNonterminal name => "No definition for nonterminal " ++ cite name
  | noTerminatingDerivation name => "Could not finish a derivation from " ++ cite name

/-- A random derivation: the alternatives applied, in order, why it ended without
a word if it did, and the random numbers that are left. -/
structure Walk where
  applied : List Body
  error : Option SamplingError
  draws : Draws
deriving DecidableEq, Repr

/-- The word of a derivation. -/
def Walk.word (walk : Walk) : Word := walk.applied.flatMap Body.text

namespace Grammar

/-- The alternatives that do not continue with an undefined nonterminal. -/
def liveBodies (G : Grammar) (name : Name) : List Body :=
  (G.bodies name).filter fun body => body.continuation?.all G.defines

/-- An alternative among some, preferably one that ends the derivation if it is to
finish. -/
def chooseBody (bodies : List Body) (finishing : Bool) (draws : Draws) : Option Body × Draws :=
  let ending := bodies.filter fun body => body.continuation?.isNone
  if finishing && !ending.isEmpty then draws.choose ending else draws.choose bodies

/-- The nonterminal to blame when nothing can be chosen: one that the current
nonterminal continues with, or itself if it continues with none. -/
def missingName (G : Grammar) (current : Name) : Name :=
  ((G.bodies current).findSome? Body.continuation?).getD current

/-- The derivation from `current` with `left` of `budget` steps to go; `applied`
holds the alternatives applied before, latest first. -/
def walkFrom (G : Grammar) (start : Name) (budget : Nat) :
    Nat → Name → List Body → Draws → Walk
  | 0, _, applied, draws =>
    ⟨applied.reverse, some (.noTerminatingDerivation start), draws⟩
  | left + 1, current, applied, draws =>
    let step := budget - (left + 1)
    match chooseBody (G.liveBodies current) (budget ≤ step * 2) draws with
    | (none, draws) =>
      ⟨applied.reverse, some (.undefinedNonterminal (G.missingName current)), draws⟩
    | (some body, draws) =>
      match body.continuation? with
      | none => ⟨(body :: applied).reverse, none, draws⟩
      | some next => G.walkFrom start budget left next (body :: applied) draws

/-- A random derivation of at most `budget` steps. -/
def walk (G : Grammar) (start : Name) (budget : Nat) (draws : Draws) : Walk :=
  G.walkFrom start budget budget start [] draws

/-- A random word that a nonterminal derives, and the random numbers that are
left. -/
def sampleWord (G : Grammar) (start : Name) (budget : Nat) (draws : Draws) :
    Except SamplingError Word × Draws :=
  let walk := G.walk start budget draws
  (walk.error.elim (.ok walk.word) .error, walk.draws)

end Grammar

end RightLinear
