/-!
# Operators

The operators of the language by what they do. Arithmetic operators also occur inside compound
assignments; comparisons and logical operators yield truth values. `Operator` is the sum of all of
them and carries the numbering that some answers show.
-/

namespace Shader

/-- Arithmetic, bitwise and shift operators, in the order of their numbers in the target. -/
inductive ArithOp where
  /-- addition -/
  | add
  /-- subtraction -/
  | sub
  /-- multiplication -/
  | mul
  /-- division -/
  | div
  /-- remainder -/
  | rem
  /-- shift to the left -/
  | shl
  /-- shift to the right -/
  | shr
  /-- bitwise conjunction -/
  | and
  /-- bitwise disjunction -/
  | or
  /-- bitwise exclusive disjunction -/
  | xor
  deriving DecidableEq, Repr

/-- Comparisons, in the order of their numbers in the target. -/
inductive RelOp where
  /-- equal -/
  | eq
  /-- different -/
  | ne
  /-- less -/
  | lt
  /-- less or equal -/
  | le
  /-- greater -/
  | gt
  /-- greater or equal -/
  | ge
  deriving DecidableEq, Repr

/-- Logical operators. -/
inductive LogicOp where
  /-- disjunction -/
  | or
  /-- exclusive disjunction -/
  | xor
  /-- conjunction -/
  | and
  deriving DecidableEq, Repr

/-- Steps of a variable to a neighbouring value. -/
inductive Step where
  /-- one more -/
  | inc
  /-- one less -/
  | dec
  deriving DecidableEq, Repr

/-- Operators between two operands, assignments apart. -/
inductive BinaryOp where
  /-- an arithmetic operator -/
  | arith (op : ArithOp)
  /-- a comparison -/
  | rel (op : RelOp)
  /-- a logical operator -/
  | logic (op : LogicOp)
  deriving DecidableEq, Repr

/-- Operators in front of their operand. -/
inductive UnaryOp where
  /-- a step, whose value is the new one -/
  | step (s : Step)
  /-- the operand itself -/
  | plus
  /-- negation -/
  | neg
  /-- logical negation -/
  | not
  /-- bitwise negation -/
  | bitNot
  deriving DecidableEq, Repr

namespace ArithOp

/-- The sign of the operator. -/
def sign : ArithOp → String
  | add => "+"
  | sub => "-"
  | mul => "*"
  | div => "/"
  | rem => "%"
  | shl => "<<"
  | shr => ">>"
  | and => "&"
  | or => "|"
  | xor => "^"

/-- All arithmetic operators, in the order of their numbers. -/
def all : List ArithOp := [add, sub, mul, div, rem, shl, shr, and, or, xor]

/-- The name of the operator in the target. -/
def name : ArithOp → String
  | add => "add"
  | sub => "sub"
  | mul => "mul"
  | div => "div"
  | rem => "rem"
  | shl => "shl"
  | shr => "shr"
  | and => "and"
  | or => "or"
  | xor => "xor"

/-- The operators on integers only. -/
def isIntegral : ArithOp → Bool
  | add | sub | mul | div => false
  | _ => true

/-- How tightly the operator binds. -/
def precedence : ArithOp → Nat
  | or => 4
  | xor => 5
  | and => 6
  | shl | shr => 9
  | add | sub => 10
  | mul | div | rem => 11

end ArithOp

namespace RelOp

/-- The sign of the operator. -/
def sign : RelOp → String
  | eq => "=="
  | ne => "!="
  | lt => "<"
  | le => "<="
  | gt => ">"
  | ge => ">="

/-- All comparisons, in the order of their numbers. -/
def all : List RelOp := [eq, ne, lt, le, gt, ge]

/-- Comparisons of magnitude, which equality is not. -/
def isOrdered : RelOp → Bool
  | eq | ne => false
  | _ => true

/-- How tightly the operator binds. -/
def precedence : RelOp → Nat
  | eq | ne => 7
  | _ => 8

/-- The comparison with a number; every number past the last is taken for the last. -/
def ofCode (n : Nat) : RelOp := (all[n]?).getD ge

end RelOp

namespace LogicOp

/-- The sign of the operator. -/
def sign : LogicOp → String
  | or => "||"
  | xor => "^^"
  | and => "&&"

/-- How tightly the operator binds. -/
def precedence : LogicOp → Nat
  | or => 1
  | xor => 2
  | and => 3

end LogicOp

namespace Step

/-- The sign of the step. -/
def sign : Step → String
  | inc => "++"
  | dec => "--"

/-- The arithmetic operator that the step applies. -/
def op : Step → ArithOp
  | inc => .add
  | dec => .sub

end Step

namespace BinaryOp

/-- The sign of the operator. -/
def sign : BinaryOp → String
  | arith op => op.sign
  | rel op => op.sign
  | logic op => op.sign

/-- How tightly the operator binds, from one for `||` to eleven for `*`, `/` and `%`. -/
def precedence : BinaryOp → Nat
  | arith op => op.precedence
  | rel op => op.precedence
  | logic op => op.precedence

end BinaryOp

namespace UnaryOp

/-- The sign of the operator. -/
def sign : UnaryOp → String
  | step s => s.sign
  | plus => "+"
  | neg => "-"
  | not => "!"
  | bitNot => "~"

end UnaryOp

/-- The sign of an assignment, which may first apply an arithmetic operator. -/
def assignSign : Option ArithOp → String
  | none => "="
  | some op => op.sign ++ "="

/-- All operators. -/
inductive Operator where
  /-- an assignment, plain or compound -/
  | assign (op : Option ArithOp)
  /-- an operator between two operands -/
  | binary (op : BinaryOp)
  /-- an operator in front of its operand -/
  | unary (op : UnaryOp)
  /-- a step behind its operand, whose value is the old one -/
  | postStep (s : Step)
  /-- the selection of a component -/
  | member
  /-- the evaluation of one expression after another -/
  | sequence
  deriving DecidableEq, Repr

namespace Operator

/-- The operators of compound assignments, in the order of their numbers. -/
def compoundOps : List ArithOp :=
  [.add, .sub, .mul, .div, .rem, .shl, .shr, .and, .xor, .or]

/-- The operators between two operands, in the order of their numbers. -/
def binaryOps : List BinaryOp :=
  [BinaryOp.logic .or, .logic .xor, .logic .and, .arith .or, .arith .xor, .arith .and] ++
    RelOp.all.map BinaryOp.rel ++
    [BinaryOp.arith .shl, .arith .shr, .arith .add, .arith .sub, .arith .mul, .arith .div,
      .arith .rem]

/-- All operators, in the order of their numbers, which start at one. -/
def all : List Operator :=
  [assign none] ++ compoundOps.map (fun op => assign (some op)) ++ binaryOps.map binary ++
    [unary (.step .inc), unary (.step .dec), unary .plus, unary .neg, unary .not, unary .bitNot,
      postStep .inc, postStep .dec, member, sequence]

/-- The operator with a number. -/
def ofCode? : Nat → Option Operator
  | 0 => none
  | n + 1 => all[n]?

/-- The number of the operator. -/
def code (op : Operator) : Nat := all.idxOf op + 1

/-- The sign of the operator. -/
def sign : Operator → String
  | assign op => assignSign op
  | binary op => op.sign
  | unary op => op.sign
  | postStep s => s.sign
  | member => "."
  | sequence => ","

/-- Assignments. -/
def isAssign : Operator → Bool
  | assign _ => true
  | _ => false

/-- The operator that a compound assignment applies first. -/
def underlying? : Operator → Option Operator
  | assign (some op) => some (binary (.arith op))
  | _ => none

/-- Logical operators; the sign `!` is not one. -/
def isLogical : Operator → Bool
  | binary (.logic _) => true
  | _ => false

/-- Comparisons. -/
def isComparison : Operator → Bool
  | binary (.rel _) => true
  | _ => false

/-- Operators on integers only. -/
def isIntegral : Operator → Bool
  | binary (.arith op) => op.isIntegral
  | unary (.step _) | unary .bitNot | postStep _ => true
  | _ => false

/-- How tightly an operator between two operands binds; zero for every other. -/
def precedence : Operator → Nat
  | binary op => op.precedence
  | _ => 0

end Operator

end Shader
