import RightLinear.Text.Blank

/-!
# Lines, comments and words

Both file formats are read line by line. A line ends at a line feed or at a
carriage return followed by one, everything from the first `;` on is comment,
and a line with nothing but blanks before its comment is skipped but counted.

* `lines`: the lines of a text, without their ends.
* `stripComment`, `ruleLines`: the numbered lines that say something.
* `words`: the maximal runs of characters that are not blank.
-/

namespace RightLinear.Text

/-- The lines of a text. A text that ends with a line end has no empty last
line. -/
def lines : List Char → List (List Char)
  | [] => []
  | c :: rest =>
    if c = '\n' then [] :: lines rest
    else if c = '\r' && rest.head? = some '\n' then lines rest
    else
      match lines rest with
      | [] => [[c]]
      | line :: others => (c :: line) :: others

/-- The part of a line before its first `;`. -/
def stripComment (line : List Char) : List Char := line.takeWhile (· ≠ ';')

/-- Whether a line holds anything besides blanks and a comment. -/
def isRuleLine (line : List Char) : Bool := (stripComment line).any fun c => !isBlank c

/-- Something that stands on a numbered line. -/
structure Numbered (α : Type) where
  line : Nat
  item : α
deriving DecidableEq, Repr

/-- The lines that hold something, each with its number; lines are numbered from
one. -/
def ruleLines (text : List Char) : List (Numbered (List Char)) :=
  (((lines text).zipIdx 1).filter fun line => isRuleLine line.1).map fun line =>
    ⟨line.2, line.1⟩

/-- The maximal runs of characters that are not blank. -/
def words : List Char → List (List Char)
  | [] => []
  | c :: rest =>
    if isBlank c then words rest
    else if rest.head?.all isBlank then [c] :: words rest
    else
      match words rest with
      | [] => [[c]]
      | word :: others => (c :: word) :: others

end RightLinear.Text
