import Shader.Token

/-!
# Streams

A stream is a sequence of items that ends with the end of the text, together with a cursor. Reading
moves the cursor on, but never past the last item, and a mark keeps the furthest place it has moved
to. The cursor can be set to any number; only reading at a number that no item has fails.
-/

namespace Shader

/-- The items with the end of the text behind them, unless they end with it. -/
def closeItems (items : List Item) : List Item :=
  match items.getLast? with
  | none => [⟨.eof, "", .implicit⟩]
  | some last => if last.token.isEof then items else items ++ [⟨.eof, "", last.pos⟩]

/-- Items with a cursor. -/
structure Stream where
  /-- the items, the last of which is the end of the text -/
  items : List Item
  /-- the number of the item to be read next -/
  cursor : Int := 0
  /-- the furthest number that reading has moved to -/
  far : Nat := 0
  deriving DecidableEq, Repr

namespace Stream

/-- The stream of the given items, closed by an end of text. -/
def ofItems (items : List Item) : Stream := { items := closeItems items }

/-- The item a number of places after the cursor; the first or the last one if there is none. -/
def peek? (s : Stream) (offset : Int) : Option Item :=
  s.items[min (s.cursor + offset).toNat (s.items.length - 1)]?

/-- Reads the item at the cursor. -/
def next? (s : Stream) : Option (Item × Stream) :=
  match s.cursor with
  | .negSucc _ => none
  | .ofNat n =>
    s.items[n]?.map fun item =>
      (item,
        if n + 1 < s.items.length then
          { s with cursor := (n + 1 : Nat), far := max s.far (n + 1) }
        else s)

/-- Sets the cursor. -/
def reset (s : Stream) (cursor : Int) : Stream := { s with cursor }

/-- The item at the furthest place that reading has moved to. -/
def furthest? (s : Stream) : Option Item := s.items[s.far]?

end Stream

end Shader
