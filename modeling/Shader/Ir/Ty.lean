import Shader.Ir.Fault

/-!
# Types of the target

The types of values in the code that a shader becomes. Truth values and integers of a shader share
one type of 32 bits, since a truth value is the integer zero or one; the result of a comparison is
a single bit. A matrix is an array of its columns.
-/

namespace Shader.Ir

/-- Types of the target. -/
inductive Ty where
  /-- no value -/
  | void
  /-- a bit -/
  | i1
  /-- an integer of 32 bits -/
  | i32
  /-- a number in single precision -/
  | float
  /-- a number in double precision -/
  | double
  /-- a vector -/
  | vector (n : Nat) (elem : Ty)
  /-- an array -/
  | array (n : Nat) (elem : Ty)
  /-- an address -/
  | pointer (content : Ty)
  deriving DecidableEq, Repr

namespace Ty

/-- The spelling of the type. -/
def text : Ty → String
  | void => "void"
  | i1 => "i1"
  | i32 => "i32"
  | float => "float"
  | double => "double"
  | vector n elem => "<" ++ toString n ++ " x " ++ elem.text ++ ">"
  | array n elem => "[" ++ toString n ++ " x " ++ elem.text ++ "]"
  | pointer content => content.text ++ "*"

/-- The type of a single number. -/
def ofScalar : ScalarType → Ty
  | .float => float
  | .double => double
  | _ => i32

/-- The type of the values of a shader's type. -/
def ofData : DataType → Ty
  | .void => void
  | .scalar s => ofScalar s
  | .vector s n => vector n.size (ofScalar s)
  | .matrix n => array n.size (vector n.size float)

end Ty

/-- The type of a value that must have one. -/
def dataType (t : ValueType) : Except Fault DataType :=
  match t with
  | .data t => .ok t
  | t => .error (.noType t)

end Shader.Ir
