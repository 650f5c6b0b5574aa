/-!
# Positions

A position is a line and a column of a named text, both counted from one. Line zero marks the
positions of declarations that no text spells out; such a position is written as a dash.

Lines and columns are words of 32 bits, which come around in a text that is too long for them. So a
position also says which character of its text it is, and two places of one text are never the same
position.
-/

namespace Shader

/-- A place in a source text. -/
structure Pos where
  /-- the name of the text, empty if it has none -/
  file : String := ""
  /-- the line, counted from one; zero if the place is in no text -/
  line : UInt32 := 0
  /-- the column, counted in characters from one -/
  col : UInt32 := 0
  /-- which character of the text stands there, counted from one, the end of the text being the
  last; zero if the place is in front of all or in no text -/
  index : Nat := 0
  deriving DecidableEq, Repr, Inhabited

namespace Pos

/-- The position of what no text spells out. -/
def implicit : Pos := {}

/-- A position is valid if it has a line. -/
def isValid (p : Pos) : Bool := 0 < p.line

/-- A position is placed if it is valid, or so far in its text that the line may have come around to
zero. -/
def isPlaced (p : Pos) : Bool := p.isValid || UInt32.size ≤ p.index

/-- `file:line:col`, without the file if it has no name, and a dash if the position is not valid. -/
def text (p : Pos) : String :=
  if p.isValid then
    let place := toString p.line ++ ":" ++ toString p.col
    if p.file = "" then place else p.file ++ ":" ++ place
  else "-"

/-- A message with the position it is about in front of it. -/
def locate (p : Pos) (message : String) : String := p.text ++ ": " ++ message

@[simp] theorem isValid_implicit : implicit.isValid = false := rfl

@[simp] theorem isPlaced_implicit : implicit.isPlaced = false := rfl

@[simp] theorem text_implicit : implicit.text = "-" := rfl

end Pos

end Shader
