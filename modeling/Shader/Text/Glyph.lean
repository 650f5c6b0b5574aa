import Shader.Position

/-!
# Glyphs

A source is a sequence of bytes. It is read as UTF-8, one glyph at a time: a well-formed sequence
of bytes gives the character it encodes, and every other byte gives a replacement character of its
own, marked as ill-formed. Lines and columns count glyphs, as words of 32 bits.

The ranges below are those of the UTF-8 definition: overlong forms, surrogates and numbers above
`0x10FFFF` are not well formed, and neither is a sequence that the end of the text cuts off.
-/

namespace Shader.Text

/-- The character that stands for an ill-formed byte. -/
def replacement : Char := '\ufffd'

/-- A continuation byte. -/
def isTail (b : UInt8) : Bool := 0x80 ≤ b && b ≤ 0xBF

/-- A well-formed sequence of two bytes. -/
def isPair (a b : UInt8) : Bool := 0xC2 ≤ a && a ≤ 0xDF && isTail b

/-- A well-formed sequence of three bytes. -/
def isTriple (a b c : UInt8) : Bool :=
  isTail c &&
    ((a == 0xE0 && 0xA0 ≤ b && b ≤ 0xBF) ||
      (0xE1 ≤ a && a ≤ 0xEC && isTail b) ||
      (a == 0xED && 0x80 ≤ b && b ≤ 0x9F) ||
      (0xEE ≤ a && a ≤ 0xEF && isTail b))

/-- A well-formed sequence of four bytes. -/
def isQuad (a b c d : UInt8) : Bool :=
  isTail c && isTail d &&
    ((a == 0xF0 && 0x90 ≤ b && b ≤ 0xBF) ||
      (0xF1 ≤ a && a ≤ 0xF3 && isTail b) ||
      (a == 0xF4 && 0x80 ≤ b && b ≤ 0x8F))

/-- The payload of a continuation byte. -/
def low6 (b : UInt8) : Nat := b.toNat % 64

/-- What a text starts with: the character, whether it is well formed, and how many bytes after the
first one it takes. -/
structure Lead where
  /-- the character -/
  char : Char
  /-- whether it is well formed -/
  wellFormed : Bool
  /-- the bytes it takes after the first -/
  extra : Nat

/-- An ill-formed byte. -/
def Lead.illFormed : Lead := ⟨replacement, false, 0⟩

/-- The character that starts with byte `a` in a text that goes on with the given bytes. -/
def Lead.of (a : UInt8) (more : List UInt8) : Lead :=
  if a < 0x80 then ⟨Char.ofNat a.toNat, true, 0⟩
  else
    match more with
    | [] => .illFormed
    | b :: more =>
      if isPair a b then ⟨Char.ofNat (a.toNat % 32 * 64 + low6 b), true, 1⟩
      else
        match more with
        | [] => .illFormed
        | c :: more =>
          if isTriple a b c then
            ⟨Char.ofNat ((a.toNat % 16 * 64 + low6 b) * 64 + low6 c), true, 2⟩
          else
            match more with
            | [] => .illFormed
            | d :: _ =>
              if isQuad a b c d then
                ⟨Char.ofNat (((a.toNat % 8 * 64 + low6 b) * 64 + low6 c) * 64 + low6 d), true, 3⟩
              else .illFormed

/-- The characters of a text whose first `skip` bytes belong to an earlier character, and whether
each is well formed. -/
def decodeFrom : (skip : Nat) → List UInt8 → List (Char × Bool)
  | _, [] => []
  | skip + 1, _ :: more => decodeFrom skip more
  | 0, a :: more =>
    let lead := Lead.of a more
    (lead.char, lead.wellFormed) :: decodeFrom lead.extra more

/-- The characters of a text and whether each is well formed. -/
def decode (bytes : List UInt8) : List (Char × Bool) := decodeFrom 0 bytes

/-- A character of a source and its place there. -/
structure Glyph where
  /-- the character -/
  char : Char
  /-- whether bytes of the source encode the character -/
  wellFormed : Bool
  /-- the line it stands on -/
  line : UInt32
  /-- its column -/
  col : UInt32
  /-- its number in the source, counted from one -/
  index : Nat
  deriving DecidableEq, Repr

/-- The place after a character at line `line` and column `col`. -/
def after (c : Char) (line col : UInt32) : UInt32 × UInt32 :=
  if c = '\n' then (line + 1, 1) else (line, col + 1)

/-- Gives every character its line, its column and its number; the second part is the place of the
end. -/
def arrange : (line col : UInt32) → (index : Nat) → List (Char × Bool) →
    List Glyph × (UInt32 × UInt32 × Nat)
  | line, col, index, [] => ([], (line, col, index))
  | line, col, index, (c, ok) :: cs =>
    let next := after c line col
    let (glyphs, last) := arrange next.1 next.2 (index + 1) cs
    (⟨c, ok, line, col, index⟩ :: glyphs, last)

section

variable (line col : UInt32) (index : Nat)

@[simp] theorem arrange_nil : arrange line col index [] = ([], (line, col, index)) := rfl

theorem arrange_cons (c : Char) (ok : Bool) (cs : List (Char × Bool)) :
    arrange line col index ((c, ok) :: cs) =
      (⟨c, ok, line, col, index⟩ ::
          (arrange (after c line col).1 (after c line col).2 (index + 1) cs).1,
        (arrange (after c line col).1 (after c line col).2 (index + 1) cs).2) := rfl

end

/-- The text of a run of glyphs. -/
def spell (gs : List Glyph) : String := String.ofList (gs.map Glyph.char)

end Shader.Text
