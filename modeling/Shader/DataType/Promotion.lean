import Shader.DataType

/-!
# Promotion and implicit conversion

The two operands of an arithmetic operator are first brought to one type: the shape of the vector
or matrix among them, and the wider of their component types. Truth values count as integers. A
value converts implicitly between scalar types, from a scalar to every component of a vector or
matrix, and between vectors of one length.
-/

namespace Shader

namespace ScalarType

/-- The width of a component type in the order of promotion. -/
def rank : ScalarType → Nat
  | bool | int => 1
  | uint => 2
  | float => 3
  | double => 4

/-- The component type that arithmetic on `x` and `y` works on. -/
def widest (x y : ScalarType) : ScalarType :=
  match if x.rank < y.rank then y else x with
  | bool => int
  | s => s

end ScalarType

namespace DataType

/-- The common type of the operands of an arithmetic operator, if their shapes agree. -/
def promote? : DataType → DataType → Option DataType
  | void, _ => none
  | _, void => none
  | matrix m, matrix n => if m = n then some (matrix m) else none
  | matrix m, _ => some (matrix m)
  | _, matrix n => some (matrix n)
  | vector s m, vector r n => if m = n then some (vector (s.widest r) m) else none
  | vector s m, scalar r => some (vector (s.widest r) m)
  | scalar s, vector r n => some (vector (s.widest r) n)
  | scalar s, scalar r => some (scalar (s.widest r))

/-- Whether a value of the first type converts implicitly to the second. -/
def convertible : DataType → DataType → Bool
  | void, _ => false
  | _, void => false
  | scalar _, _ => true
  | vector _ m, vector _ n => m == n
  | vector _ _, _ => false
  | matrix m, matrix n => m == n
  | matrix _, _ => false

theorem promote?_void_left (t : DataType) : promote? void t = none := by cases t <;> rfl

theorem promote?_void_right (t : DataType) : promote? t void = none := by cases t <;> rfl

/-- Every type but `void` converts to itself. -/
theorem convertible_self (t : DataType) : convertible t t = t.isNumeric := by
  cases t <;> simp [convertible, isNumeric]

end DataType

end Shader
