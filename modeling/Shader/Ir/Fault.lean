import Shader.ValueType
import Shader.Text.Quoted
import Shader.Ir.Ident

/-!
# Faults

What can go wrong while code is written or printed. A fault is no error of the shader: it says that
an operation was asked for on operands, or at a place, where it has no meaning. Some faults carry a
message, the others only stop what was going on.
-/

namespace Shader.Ir

/-- The ways in which writing and printing code can break down. -/
inductive Fault where
  /-- a type that no value of the target has -/
  | noType (t : ValueType)
  /-- a number that is no arithmetic operator's number -/
  | noOperator (code : Nat)
  /-- a comparison of magnitude between vectors -/
  | unordered (t : DataType)
  /-- a conversion between types that have none -/
  | noConversion (src dst : ValueType)
  /-- the outermost scope was to be closed -/
  | outermostScope
  /-- a value was to be stored where nothing can be kept -/
  | noLocation
  /-- a local of a function, given by its identifier and its name, kept a number that is not the
  next one -/
  | renumbered (func name : String) (expected found : Nat)
  /-- a global variable or a function kept a number that is not the next one -/
  | globalsRenumbered
  /-- no function is being written -/
  | noFunction
  /-- no block is being written -/
  | noPoint
  /-- operands of types that the instruction does not take -/
  | operands
  /-- a choice between no values -/
  | noIncoming
  /-- a block without a terminator was to be printed -/
  | openBlock
  /-- code was to be written elsewhere than at the end of an open block -/
  | closedBlock
  deriving DecidableEq, Repr

namespace Fault

/-- What is wrong with the numbers of a function with a name. -/
def renumberedText (name : String) (expected found : Nat) : String :=
  "invalid local ID in function " ++ Text.quote (Ident.global name) ++ ", expected %" ++
    toString expected ++ ", got %" ++ toString found

/-- The message of the faults that have one. -/
def message? : Fault → Option String
  | noType t => some ("ir: no LLVM type for " ++ t.name)
  | noOperator code => some ("ir: unknown binary op " ++ toString code)
  | unordered t => some ("ir: ordered comparison of " ++ t.name)
  | noConversion src dst => some ("ir: cannot convert " ++ src.name ++ " to " ++ dst.name)
  | outermostScope => some "types: Exit called on root scope"
  | noLocation => some "codegen: store to non-addressable operand"
  | renumbered func name expected found =>
    some ("unable to assign IDs of function " ++ Text.quote func ++ "; " ++
      renumberedText name expected found)
  | _ => none

end Fault

end Shader.Ir
