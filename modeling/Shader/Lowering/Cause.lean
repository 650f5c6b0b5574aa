import Shader.Scopes
import Shader.Tree

/-!
# Errors of a shader

What a well-formed text can still do wrong. A failure is a cause at a position; the wording of the
causes is here and nowhere else. The parts of a message that quote the text are kept as texts, the
others as what they stand for.
-/

namespace Shader.Lowering

/-- What can be wrong with the meaning of a shader. -/
inductive Cause where
  /-- a name that is not declared -/
  | undeclared (name : String)
  /-- a floating-point number that is too large -/
  | invalidLiteral (kind : NumberKind) (text : String)
  /-- an integer that is too large -/
  | literalRange (kind : NumberKind) (text : String)
  /-- a call of a function that is not there -/
  | undefined (func : String)
  /-- a call with too many or too few arguments -/
  | argumentCount (func : String) (found want : Nat)
  /-- an argument that the function cannot write to -/
  | outArgument (arg func : String) (type : DataType)
  /-- an argument of a type that does not convert -/
  | argumentType (arg : String) (found want : DataType) (func : String)
  /-- an index on what has no components -/
  | notIndexable (name : String) (type : DataType)
  /-- an index that is no integer -/
  | indexType (found : DataType)
  /-- a selector on what is no vector -/
  | selectorType (sel : Swizzle) (type : DataType)
  /-- a selector of a component that the vector does not have -/
  | selectorRange (sel : Swizzle) (type : DataType)
  /-- an assignment to what is no variable -/
  | notAssignable (target : String)
  /-- a change of a constant -/
  | constant (name : String)
  /-- an assignment of a value of a type that does not convert -/
  | assignType (found : DataType) (target : String) (want : DataType)
  /-- an operation whose result does not have the type that is needed -/
  | resultType (op : String) (left right result : DataType)
  /-- an operator that two types do not have -/
  | binaryType (op : String) (left right : DataType)
  /-- operands that have no common type -/
  | mismatch (op : ArithOp) (left right : DataType)
  /-- operands that cannot be compared -/
  | incomparable (left right : DataType)
  /-- an operator that a type does not have -/
  | unaryType (op : String) (type : DataType)
  /-- a condition that is no number -/
  | conditionType (found : DataType)
  /-- an operand of a logical operator that is no number -/
  | logicType (op : LogicOp) (found : DataType)
  /-- a step of what is no variable -/
  | stepTarget (s : Step) (target : String)
  /-- a choice between values of types that do not go together -/
  | choiceType (left right : DataType)
  /-- the construction of a value of a type that has none -/
  | notConstructible (type : DataType)
  /-- a constructor without arguments -/
  | noArguments (type : DataType)
  /-- an argument of a constructor that has no components -/
  | constructorType (found type : DataType)
  /-- an argument of a constructor that is not needed -/
  | surplusArgument (type : DataType)
  /-- a constructor with too few components -/
  | fewComponents (type : DataType) (found want : Nat)
  /-- the use of the value of a call that has none -/
  | noValue
  /-- an implicit conversion that does not exist -/
  | notConvertible (src dst : DataType)
  /-- a variable of a type that has no values -/
  | variableType (type : DataType)
  /-- a constant without a value -/
  | noInitializer (name : String)
  /-- a name that its block declares already -/
  | redeclared (name : String)
  /-- `break` outside of a loop -/
  | strayBreak
  /-- `continue` outside of a loop -/
  | strayContinue
  /-- a return without the value that the function needs -/
  | missingResult (want : DataType)
  /-- a return with a value that the function does not have -/
  | unexpectedResult
  /-- a second function of a name -/
  | functionRedeclared (name : String) (earlier : Pos)
  /-- a parameter of a type that has no values -/
  | parameterType (type : DataType)
  /-- a value for a variable that the host provides -/
  | externalInitializer (storage : Storage) (name : String)
  deriving DecidableEq, Repr

namespace Cause

/-- What is said of an operation that is not there. -/
def invalid (what : String) : String := "invalid operation: " ++ what

/-- What is said of operands that do not go together. -/
def mismatched (left right : DataType) (place : String) : String :=
  invalid ("mismatched types " ++ left.name ++ " and " ++ right.name ++ " " ++ place)

/-- What is said of a cause. -/
def message : Cause → String
  | undeclared name => "undeclared name: " ++ name
  | invalidLiteral kind text => "invalid " ++ kind.name ++ " literal " ++ text
  | literalRange kind text => kind.name ++ " literal " ++ text ++ " out of range"
  | undefined func => "undefined function: " ++ func
  | argumentCount func found want =>
    "wrong argument count in call to " ++ func ++ ": have " ++ toString found ++ ", want " ++
      toString want
  | outArgument arg func type =>
    "out argument " ++ arg ++ " to " ++ func ++ " must be a " ++ type.name ++ " variable"
  | argumentType arg found want func =>
    "cannot use " ++ arg ++ " (" ++ found.name ++ ") as " ++ want.name ++ " in argument to " ++ func
  | notIndexable name type => invalid ("cannot index " ++ name ++ " (" ++ type.name ++ ")")
  | indexType found => "index must be an integer, have " ++ found.name
  | selectorType sel type => invalid ("swizzle ." ++ sel.text ++ " on " ++ type.name)
  | selectorRange sel type => invalid ("swizzle ." ++ sel.text ++ " out of range for " ++ type.name)
  | notAssignable target => "cannot assign to " ++ target
  | constant name => "cannot assign to const variable " ++ name
  | assignType found target want =>
    "cannot assign " ++ found.name ++ " to " ++ target ++ " (" ++ want.name ++ ")"
  | resultType op left right result =>
    invalid (left.name ++ " " ++ op ++ " " ++ right.name ++ " yields " ++ result.name)
  | binaryType op left right =>
    invalid ("operator " ++ op ++ " not defined on " ++ left.name ++ " and " ++ right.name)
  | mismatch op left right => mismatched left right ("for operator " ++ op.sign)
  | incomparable left right => invalid ("cannot compare " ++ left.name ++ " and " ++ right.name)
  | unaryType op type => invalid ("operator " ++ op ++ " not defined on " ++ type.name)
  | conditionType found => "condition must be scalar, have " ++ found.name
  | logicType op found => "operand of " ++ op.sign ++ " must be scalar, have " ++ found.name
  | stepTarget s target => invalid ("cannot apply " ++ s.sign ++ " to " ++ target)
  | choiceType left right => mismatched left right "in conditional expression"
  | notConstructible type => "cannot construct " ++ type.name
  | noArguments type => type.name ++ " constructor needs arguments"
  | constructorType found type =>
    "cannot use " ++ found.name ++ " in " ++ type.name ++ " constructor"
  | surplusArgument type => "too many arguments to " ++ type.name ++ " constructor"
  | fewComponents type found want =>
    "not enough components to construct " ++ type.name ++ ": have " ++ toString found ++
      ", want " ++ toString want
  | noValue => "expression has no value"
  | notConvertible src dst => "cannot convert " ++ src.name ++ " to " ++ dst.name
  | variableType type => "invalid variable type " ++ type.name
  | noInitializer name => "missing initializer for const " ++ name
  | redeclared name => Scopes.redeclaredMessage name
  | strayBreak => "break is not in a loop"
  | strayContinue => "continue is not in a loop"
  | missingResult want => "missing return value in function returning " ++ want.name
  | unexpectedResult => "unexpected return value in function returning void"
  | functionRedeclared name earlier =>
    "function " ++ name ++ " redeclared (previous declaration at " ++ earlier.text ++ ")"
  | parameterType type => "invalid parameter type " ++ type.name
  | externalInitializer storage name =>
    "cannot initialize " ++ storage.name ++ " variable " ++ name

end Cause

/-- A cause at the place that it is about. -/
structure Failure where
  /-- the place -/
  pos : Pos
  /-- what is wrong there -/
  cause : Cause
  deriving DecidableEq, Repr

/-- What is said of a failure, behind its place. -/
def Failure.text (e : Failure) : String := e.pos.locate e.cause.message

end Shader.Lowering
