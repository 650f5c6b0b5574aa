import Shader.DataType

/-!
# Uniform blocks

Sizes, alignments and offsets of the members of a uniform block under the std140 rules. All amounts
are in bytes, as signed words of 64 bits. A scalar is aligned to its size, a vector to two or four
of its components, and a column of a matrix like a vector of four. A block ends at a multiple of the
largest alignment of its members and of the alignment of a column.

All alignments are powers of two. A number is rounded up to a multiple of one of them by clearing
the bits below it.
-/

namespace Shader

/-- The number `x` rounded up to a multiple of `a`, which is a power of two. -/
def roundUp (x a : Int64) : Int64 := (x + a - 1) &&& ~~~(a - 1)

/-- The alignment of a column of a matrix. -/
def columnAlignment : Int64 := 16

namespace ScalarType

/-- The size of a number; truth values take a full word. -/
def byteSize : ScalarType → Int64
  | double => 8
  | _ => 4

end ScalarType

namespace Dim

/-- The number of components that a vector of this length is aligned to. -/
def padded : Dim → Nat
  | two => 2
  | three => 4
  | four => 4

end Dim

namespace DataType

/-- The distance between the columns of a matrix with columns of the given length. -/
def columnStride (n : Dim) : Int64 :=
  roundUp (.ofNat n.padded * ScalarType.float.byteSize) columnAlignment

/-- The size of a value; `void` has none. -/
def byteSize : DataType → Int64
  | void => 0
  | scalar s => s.byteSize
  | vector s n => .ofNat n.size * s.byteSize
  | matrix n => .ofNat n.size * columnStride n

/-- The base alignment of a value. -/
def alignment : DataType → Int64
  | void => 1
  | scalar s => s.byteSize
  | vector s n => .ofNat n.padded * s.byteSize
  | matrix n => columnStride n

end DataType

namespace Block

/-- The offsets of members that are laid out from `start` on, and the end of the last one. -/
def offsetsFrom (start : Int64) : List (Int64 × Int64) → List Int64 × Int64
  | [] => ([], start)
  | (size, alignment) :: members =>
    let offset := roundUp start alignment
    let (offsets, last) := offsetsFrom (offset + size) members
    (offset :: offsets, last)

/-- The largest alignment of the members, and at least that of a column. -/
def alignment (members : List (Int64 × Int64)) : Int64 :=
  members.foldl (fun a m => if a < m.2 then m.2 else a) columnAlignment

/-- The offsets of a block's members, given by size and alignment, and the size of the block. -/
def layout (members : List (Int64 × Int64)) : List Int64 × Int64 :=
  let (offsets, last) := offsetsFrom 0 members
  (offsets, roundUp last (alignment members))

end Block

end Shader
