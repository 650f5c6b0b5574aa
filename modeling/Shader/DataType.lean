/-!
# Data types

The twenty-four types that a shader can name: `void`, five scalar types, vectors of two, three or
four scalars, and square matrices of `float`, which are stored column by column.

A type is described by its shape and its component type rather than by an entry of a table; the
numbering of the types, which some answers show, is their place in `DataType.all`.
-/

namespace Shader

/-- The types of single numbers. -/
inductive ScalarType where
  /-- truth values, the integers zero and one -/
  | bool
  /-- signed integers of 32 bits -/
  | int
  /-- unsigned integers of 32 bits -/
  | uint
  /-- numbers in single precision -/
  | float
  /-- numbers in double precision -/
  | double
  deriving DecidableEq, Repr

namespace ScalarType

/-- The spelling of the type. -/
def name : ScalarType → String
  | bool => "bool"
  | int => "int"
  | uint => "uint"
  | float => "float"
  | double => "double"

/-- What stands before `vec` in the name of a vector of this type. -/
def vectorLetter : ScalarType → String
  | bool => "b"
  | int => "i"
  | uint => "u"
  | float => ""
  | double => "d"

/-- The floating-point types. -/
def isFloating : ScalarType → Bool
  | float | double => true
  | _ => false

/-- The integer types; truth values are not among them. -/
def isInteger : ScalarType → Bool
  | int | uint => true
  | _ => false

/-- The unsigned type. -/
def isUnsigned : ScalarType → Bool
  | uint => true
  | _ => false

end ScalarType

/-- The lengths of vectors and of the columns of matrices. -/
inductive Dim where
  /-- two components -/
  | two
  /-- three components -/
  | three
  /-- four components -/
  | four
  deriving DecidableEq, Repr

namespace Dim

/-- The length as a number. -/
def size : Dim → Nat
  | two => 2
  | three => 3
  | four => 4

/-- The length with the given number. -/
def ofNat? : Nat → Option Dim
  | 2 => some two
  | 3 => some three
  | 4 => some four
  | _ => none

@[simp] theorem ofNat?_size (n : Dim) : ofNat? n.size = some n := by cases n <;> rfl

end Dim

/-- The types of a shader. -/
inductive DataType where
  /-- no value -/
  | void
  /-- a single number -/
  | scalar (s : ScalarType)
  /-- a vector of numbers -/
  | vector (s : ScalarType) (n : Dim)
  /-- a square matrix of `float`, a sequence of columns -/
  | matrix (n : Dim)
  deriving DecidableEq, Repr

namespace DataType

/-- The type of truth values. -/
abbrev bool : DataType := scalar .bool
/-- The type of signed integers. -/
abbrev int : DataType := scalar .int
/-- The type of unsigned integers. -/
abbrev uint : DataType := scalar .uint
/-- The type of numbers in single precision. -/
abbrev float : DataType := scalar .float
/-- The type of numbers in double precision. -/
abbrev double : DataType := scalar .double
/-- The type of positions. -/
abbrev vec4 : DataType := vector .float .four

/-- The spelling of the type. -/
def name : DataType → String
  | void => "void"
  | scalar s => s.name
  | vector s n => s.vectorLetter ++ "vec" ++ toString n.size
  | matrix n => "mat" ++ toString n.size

/-- The vector types of one component type, shortest first. -/
def vectorsOf (s : ScalarType) : List DataType :=
  [vector s .two, vector s .three, vector s .four]

/-- All types, in the order of their numbers. -/
def all : List DataType :=
  [void, bool, int, uint, float, double] ++
    vectorsOf .float ++ vectorsOf .double ++ vectorsOf .bool ++ vectorsOf .int ++
    vectorsOf .uint ++ [matrix .two, matrix .three, matrix .four]

/-- The type that a text spells. -/
def ofName? (text : String) : Option DataType := all.find? fun t => t.name = text

/-- The number of the type. -/
def code (t : DataType) : Nat := all.idxOf t

/-- Single numbers. -/
def isScalar : DataType → Bool
  | scalar _ => true
  | _ => false

/-- Vectors. -/
def isVector : DataType → Bool
  | vector _ _ => true
  | _ => false

/-- Matrices. -/
def isMatrix : DataType → Bool
  | matrix _ => true
  | _ => false

/-- The type of the numbers that a value is made of; `void` has none. -/
def component? : DataType → Option ScalarType
  | void => none
  | scalar s => some s
  | vector s _ => some s
  | matrix _ => some .float

/-- The component of a vector, the column of a matrix, and a scalar itself. -/
def element? : DataType → Option DataType
  | void => none
  | scalar s => some (scalar s)
  | vector s _ => some (scalar s)
  | matrix n => some (vector .float n)

/-- The number of components of a vector, of columns of a matrix, one for a scalar. -/
def length : DataType → Nat
  | void => 0
  | scalar _ => 1
  | vector _ n => n.size
  | matrix n => n.size

/-- The number of scalars that a value holds. -/
def components : DataType → Nat
  | matrix n => n.size * n.size
  | t => t.length

/-- Types made of truth values. -/
def isBoolean (t : DataType) : Bool := t.component? == some .bool

/-- Types made of integers. -/
def isInteger (t : DataType) : Bool := t.component?.any ScalarType.isInteger

/-- Types made of unsigned integers. -/
def isUnsigned (t : DataType) : Bool := t.component?.any ScalarType.isUnsigned

/-- Types made of floating-point numbers. -/
def isFloating (t : DataType) : Bool := t.component?.any ScalarType.isFloating

/-- Types with arithmetic: all but `void`, as truth values count as the integers zero and one. -/
def isNumeric : DataType → Bool
  | void => false
  | _ => true

theorem mem_all (t : DataType) : t ∈ all := by
  rcases t with _ | s | ⟨s, n⟩ | n <;> (try cases s) <;> (try cases n) <;> decide

end DataType

end Shader
