import Shader.Grammar.Parser

/-!
# The grammar of expressions

Every production is a parser built from the parsers of its parts. The only recursion goes through
`assignment`: all ways back to it lead past at least one item, so the number of items left bounds
its depth. That bound is the number the productions take; with a number not below that of the items
left it never makes a difference.

* `expression := assignment {"," assignment}`
* `assignment := conditional [assignOp assignment]`
* `conditional := binary ["?" expression ":" assignment]`
* `binary` has eleven levels, from `||` to `*`, `/` and `%`, each of them left-associative
* `unary := unaryOp unary | postfix`
* `postfix := primary {"." selector} ["++" | "--"]`
* `primary := name ["(" args | "[" expression "]"] | type "(" args | number | truth value |
  "(" expression ")"`
* `args := ")" | assignment {"," assignment} ")"`
-/

namespace Shader.Grammar

open Shader.Parser

/-- A sequence of assignments; one alone is not wrapped. -/
def expressionOf (assignment : Parser Expr) (n : Nat) : Parser Expr := do
  let m ← mark
  let x ← assignment
  orReset m do
    if ← accept (.delim .comma) then
      let xs ← commaList assignment n
      return .seq x xs
    else return x

/-- The arguments behind an opening parenthesis, and the closing one. -/
def argsOf (assignment : Parser Expr) (n : Nat) : Parser (List Expr) := do
  let m ← mark
  if ← accept (.delim .rparen) then return []
  else
    orReset m do
      let args ← commaList assignment n
      expect (.delim .rparen)
      return args

/-- What a name starts: a call, an indexed variable, or the name alone. -/
def named (assignment : Parser Expr) (n : Nat) : Parser Expr := do
  let name ← name
  match ← token with
  | .delim .lparen =>
    advance
    let args ← argsOf assignment n
    return .call name args
  | .delim .lbrack =>
    advance
    let i ← expressionOf assignment n
    expect (.delim .rbrack)
    return .index name i
  | _ => return .name name

/-- The construction of a value of a type. -/
def construction (assignment : Parser Expr) (n : Nat) : Parser Expr := do
  let pos ← pos
  let type ← typeName
  expect (.delim .lparen)
  let args ← argsOf assignment n
  return .construct pos type args

/-- An expression in parentheses, which leave no trace. -/
def enclosed (assignment : Parser Expr) (n : Nat) : Parser Expr := do
  expect (.delim .lparen)
  let x ← expressionOf assignment n
  expect (.delim .rparen)
  return x

/-- An operand without operators, as far as its first item decides. -/
def primaryOf (assignment : Parser Expr) (n : Nat) : Parser Expr := do
  let m ← mark
  let item ← current
  match item.token with
  | .name => orReset m (named assignment n)
  | .typeName _ => orReset m (construction assignment n)
  | .number kind =>
    advance
    return .number item.pos kind item.text
  | .keyword .true =>
    advance
    return .bool item.pos true
  | .keyword .false =>
    advance
    return .bool item.pos false
  | .delim .lparen => orReset m (enclosed assignment n)
  | _ => fail

/-- The selectors and the step behind an operand. -/
def selections (x : Expr) : Nat → Parser Expr
  | 0 => fail
  | n + 1 => do
    match ← token with
    | .step s =>
      advance
      return .postStep s x
    | .delim .dot =>
      advance
      let sel ← name
      match Swizzle.ofText? sel.text with
      | some s => selections (.member x s sel.pos) n
      | none => fail
    | _ => return x

/-- An operand with the selectors and the step behind it. -/
def selectionOf (primary : Parser Expr) (n : Nat) : Parser Expr := do
  let m ← mark
  let x ← primary
  orReset m (selections x n)

/-- The operator that a token is in front of an operand. -/
def unaryOp? : Token → Option UnaryOp
  | .step s => some (.step s)
  | .binary (.arith .add) => some .plus
  | .binary (.arith .sub) => some .neg
  | .not => some .not
  | .tilde => some .bitNot
  | _ => none

/-- An operand with the operators in front of it. -/
def unaryOf (operand : Parser Expr) : Nat → Parser Expr
  | 0 => fail
  | n + 1 => do
    let item ← current
    match unaryOp? item.token with
    | some op =>
      let m ← mark
      orReset m do
        advance
        let x ← unaryOf operand n
        return .unary item.pos op x
    | none => operand

/-- The operator of a level that a token is between operands. -/
def binaryOp? (level : Nat) : Token → Option BinaryOp
  | .binary op => if op.precedence = level then some op else none
  | _ => none

/-- The operators of a level and their operands behind a first operand. -/
def chain (level : Nat) (operand : Parser Expr) (x : Expr) : Nat → Parser Expr
  | 0 => fail
  | n + 1 => do
    match binaryOp? level (← token) with
    | some op =>
      advance
      let y ← operand
      chain level operand (.binary op x y) n
    | none => return x

/-- The level of the tightest operators. -/
def topLevel : Nat := 11

/-- Operands with operators of the tightest levels between them, as many levels as the last number
says. -/
def binaryOf (unary : Parser Expr) (n : Nat) : Nat → Parser Expr
  | 0 => unary
  | k + 1 => do
    let m ← mark
    let x ← binaryOf unary n k
    orReset m (chain (topLevel - k) (binaryOf unary n k) x n)

/-- A choice between two expressions, or its test alone. -/
def conditionalOf (binary assignment : Parser Expr) (n : Nat) : Parser Expr := do
  let m ← mark
  let c ← binary
  orReset m do
    if ← accept .question then
      let x ← expressionOf assignment n
      expect .colon
      let y ← assignment
      return .cond c x y
    else return c

/-- An operand with operators in front of it and selectors behind it. -/
def unaryWith (assignment : Parser Expr) (n : Nat) : Parser Expr :=
  unaryOf (selectionOf (primaryOf assignment n) n) n

/-- An assignment, or its left side alone. -/
def assignment : Nat → Parser Expr
  | 0 => fail
  | n + 1 => do
    let m ← mark
    let x ← conditionalOf (binaryOf (unaryWith (assignment n) n) n topLevel) (assignment n) n
    orReset m do
      match ← token with
      | .assign op =>
        advance
        let y ← assignment n
        return .assign op x y
      | _ => return x

/-! ## The productions with a bound -/

/-- A sequence of assignments. -/
def expression (n : Nat) : Parser Expr := expressionOf (assignment n) n

/-- Arguments and the parenthesis that closes them. -/
def args (n : Nat) : Parser (List Expr) := argsOf (assignment n) n

/-- An operand without operators. -/
def primary (n : Nat) : Parser Expr := primaryOf (assignment n) n

/-- An operand with selectors behind it. -/
def selection (n : Nat) : Parser Expr := selectionOf (primary n) n

/-- An operand with operators in front of it. -/
def unary (n : Nat) : Parser Expr := unaryWith (assignment n) n

/-- Operands with operators of the given number of tightest levels between them. -/
def binary (n levels : Nat) : Parser Expr := binaryOf (unary n) n levels

/-- A choice between two expressions. -/
def conditional (n : Nat) : Parser Expr := conditionalOf (binary n topLevel) (assignment n) n

end Shader.Grammar
