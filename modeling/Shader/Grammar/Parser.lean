import Shader.Token.Scan
import Shader.Token.Stream
import Shader.Tree

/-!
# Parsers

A parser reads items of a stream and yields a node or nothing. The stream keeps what has been done
to it: a parser that fails leaves the cursor where it was when it failed, and an alternative is
tried from there. So a production, which has to leave the cursor where it started if it fails,
keeps a mark of that place, and resets the cursor to the mark once something may have been read.

The furthest place of the stream is not taken back by a reset; errors are reported there. Only a
whole shader reports an error, the productions report nothing.
-/

namespace Shader

/-- A stream that is being parsed. -/
structure Parsing where
  /-- the stream -/
  stream : Stream
  /-- what is wrong with the text, as far as it is known -/
  reports : List Report := []
  /-- the places that reading has moved the cursor to, the last one first -/
  moves : List Nat := []
  deriving DecidableEq, Repr

/-- Reads a node, or nothing. -/
def Parser (α : Type) : Type := Parsing → Option α × Parsing

namespace Parser

variable {α β : Type}

/-- Reads nothing. -/
protected def pure (x : α) : Parser α := fun s => (some x, s)

/-- Reads one node and then another that may depend on it. -/
protected def bind (p : Parser α) (f : α → Parser β) : Parser β := fun s =>
  match p s with
  | (some x, s) => f x s
  | (none, s) => (none, s)

instance : Monad Parser where
  pure := Parser.pure
  bind := Parser.bind

/-- Reads no node. -/
def fail : Parser α := fun s => (none, s)

/-- Reads by the second parser where the first one has failed. -/
protected def orElse (p : Parser α) (q : Unit → Parser α) : Parser α := fun s =>
  match p s with
  | (some x, s) => (some x, s)
  | (none, s) => q () s

instance : OrElse (Parser α) := ⟨Parser.orElse⟩

/-! ## The stream -/

/-- The place of the cursor. -/
def mark : Parser Int := fun s => (some s.stream.cursor, s)

/-- Resets the cursor to a mark if the parser fails. -/
def orReset (m : Int) (p : Parser α) : Parser α := fun s =>
  match p s with
  | (some x, s) => (some x, s)
  | (none, s) => (none, { s with stream := s.stream.reset m })

/-- The item a number of places after the cursor. -/
def peek (offset : Int) : Parser Item := fun s => (s.stream.peek? offset, s)

/-- The item at the cursor. -/
def current : Parser Item := peek 0

/-- Moves past an item, unless it is the last. -/
def advance : Parser Unit := fun s =>
  match s.stream.next? with
  | none => (none, s)
  | some (_, stream) =>
    let moves :=
      if stream.cursor = s.stream.cursor then s.moves else stream.cursor.toNat :: s.moves
    (some (), { s with stream, moves })

/-! ## Items -/

/-- The token at the cursor. -/
def token : Parser Token := do return (← current).token

/-- The position at the cursor. -/
def pos : Parser Pos := do return (← current).pos

/-- Moves past a token if it is the given one, and tells whether it was. -/
def accept (t : Token) : Parser Bool := do
  if (← token) = t then
    advance
    return true
  else return false

/-- Moves past the given token. -/
def expect (t : Token) : Parser Unit := do
  if ← accept t then return () else fail

/-- One or more nodes with commas between them, at most as many as the number says. -/
def commaList (p : Parser α) : Nat → Parser (List α)
  | 0 => fail
  | n + 1 => do
    let x ← p
    if ← accept (.delim .comma) then
      let xs ← commaList p n
      return x :: xs
    else return [x]

/-- A name. -/
def name : Parser Name := do
  let item ← current
  match item.token with
  | .name =>
    advance
    return ⟨item.text, item.pos⟩
  | _ => fail

/-- The name of a type. -/
def typeName : Parser DataType := do
  match ← token with
  | .typeName t =>
    advance
    return t
  | _ => fail

end Parser

end Shader
