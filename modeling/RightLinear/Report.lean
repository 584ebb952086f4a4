/-!
# Locations and reports

A problem is reported as one line of text in terminal colours: the place in
brackets, then the message.
-/

namespace RightLinear

/-- A place in a file. Line zero stands for the whole file. -/
structure Location where
  file : String
  line : Nat
deriving DecidableEq, Repr

namespace Location

/-- The whole file. -/
def wholeFile (file : String) : Location := ⟨file, 0⟩

/-- The file, followed by the line if there is one. -/
def render (place : Location) : String :=
  if place.line = 0 then place.file else place.file ++ ":" ++ toString place.line

/-- A message about a place, the place in red brackets. -/
def report (place : Location) (message : String) : String :=
  "\x1b[31;49;1m[" ++ place.render ++ "]\x1b[39;49;1m  " ++ message ++ "\x1b[0m"

end Location

/-- A text in the quotes that messages put around what they cite. -/
def cite (text : List Char) : String := "`" ++ String.ofList text ++ "`"

end RightLinear
