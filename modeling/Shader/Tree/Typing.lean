import Shader.Tree

/-!
# Types of expressions

The type of an expression as far as it follows from the types of the names in it. A binding gives
the type of a name: of the variable it refers to, or of the result of the function. Where a binding
is silent, the type stays unknown; an operation whose type does not depend on its operands has its
type all the same.
-/

namespace Shader

/-- The types of the names that are known. -/
abbrev Binding := Name → Option DataType

/-- No name has a known type. -/
def Binding.empty : Binding := fun _ => none

namespace ArithOp

/-- The type of an arithmetic operation: that of its left operand, except that a scalar takes the
type of a vector or matrix on the right, and a matrix times a vector is a vector. -/
def resultType (op : ArithOp) : DataType → DataType → DataType
  | .scalar _, .vector s n => .vector s n
  | .scalar _, .matrix n => .matrix n
  | .matrix m, .vector s n => if op = .mul then .vector s n else .matrix m
  | l, _ => l

/-- The type of an arithmetic operation on operands that may have no known type. -/
def resultType? (op : ArithOp) : Option DataType → Option DataType → Option DataType
  | some l, some r => some (op.resultType l r)
  | l, _ => l

end ArithOp

namespace BinaryOp

/-- The type of an operation between two operands; comparisons and logical operators yield `int`. -/
def resultType? : BinaryOp → Option DataType → Option DataType → Option DataType
  | arith op, l, r => op.resultType? l r
  | rel _, _, _ => some .int
  | logic _, _, _ => some .int

end BinaryOp

namespace DataType

/-- The type of an indexed variable. -/
def indexed? : DataType → Option DataType
  | vector s _ => some (scalar s)
  | matrix n => some (vector .float n)
  | _ => none

/-- The type of a component of an operand; an operand that is no vector is taken for one of
`float`. -/
def memberType : Option DataType → DataType
  | some (vector s _) => scalar s
  | _ => float

/-- The type of a step behind an operand. -/
def stepType (operand : Option DataType) : DataType := if operand = some uint then uint else int

end DataType

namespace Expr

mutual

/-- The type of an expression under a binding of its names. -/
def type? (β : Binding) : Expr → Option DataType
  | name n => β n
  | number _ kind _ => some (.scalar kind.type)
  | bool _ _ => some .bool
  | call fn _ => β fn
  | construct _ type _ => some type
  | index base _ => (β base).bind DataType.indexed?
  | member x _ _ => some (DataType.memberType (type? β x))
  | unary _ .not _ => some .int
  | unary _ _ x => type? β x
  | postStep _ x => some (DataType.stepType (type? β x))
  | binary op x y => op.resultType? (type? β x) (type? β y)
  | assign _ x _ => type? β x
  | cond _ x _ => type? β x
  | seq first rest => lastType? β (type? β first) rest

/-- The type of the last of some expressions, or the given one if there is none. -/
def lastType? (β : Binding) (before : Option DataType) : List Expr → Option DataType
  | [] => before
  | x :: xs => lastType? β (type? β x) xs

end

end Expr

end Shader
