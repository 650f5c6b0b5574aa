import Shader.Grammar.Expr

/-!
# The grammar of statements

A statement that a reserved word or a brace introduces is committed to by it. Where no such token
stands, a declaration is tried before an expression, as both may start with the name of a type.
The number that a production takes bounds the depth of statements and, as in the grammar of
expressions, makes no difference if it is not below the number of items left.
-/

namespace Shader.Grammar

open Shader.Parser

/-- `["const"] type name ["=" assignment]`. -/
def varSpec (n : Nat) : Parser VarDecl := do
  let m ← mark
  let pos ← pos
  orReset m do
    let isConst ← accept (.keyword .const)
    let type ← typeName
    let name ← name
    if ← accept (.assign none) then
      let init ← assignment n
      return { pos, isConst, type, name, init := some init }
    else return { pos, isConst, type, name, init := none }

/-- A declaration and its semicolon. -/
def varDecl (n : Nat) : Parser VarDecl := do
  let m ← mark
  let d ← varSpec n
  orReset m do
    expect (.delim .semi)
    return d

/-- An expression in the parentheses of a choice or a loop. -/
def test (n : Nat) : Parser Expr := do
  expect (.delim .lparen)
  let c ← expression n
  expect (.delim .rparen)
  return c

/-- An expression, unless the given token stands where it would start. -/
def optional (n : Nat) (t : Token) : Parser (Option Expr) := do
  if (← token) = t then return none
  else
    let x ← expression n
    return some x

/-- An expression and its semicolon. -/
def exprStmt (n : Nat) : Parser Stmt := do
  let m ← mark
  let x ← expression n
  orReset m do
    expect (.delim .semi)
    return .expr x

/-- A token, which is not looked at, and a semicolon. -/
def branchStmt : Parser Stmt := do
  let m ← mark
  let item ← current
  orReset m do
    advance
    expect (.delim .semi)
    return .branch item.pos item.token

/-- `"return" [expression] ";"`. -/
def returnStmt (n : Nat) : Parser Stmt := do
  let m ← mark
  let pos ← pos
  expect (.keyword .return)
  orReset m do
    if ← accept (.delim .semi) then return .ret pos none
    else
      let x ← expression n
      expect (.delim .semi)
      return .ret pos (some x)

/-- Statements up to a closing brace. -/
def stmtsOf (stmt : Parser Stmt) : Nat → Parser (List Stmt)
  | 0 => fail
  | n + 1 => do
    if ← accept (.delim .rbrace) then return []
    else
      let s ← stmt
      let ss ← stmtsOf stmt n
      return s :: ss

/-- Statements in braces: where they start and what they are. -/
def blockOf (stmt : Parser Stmt) (n : Nat) : Parser (Pos × List Stmt) := do
  let m ← mark
  let pos ← pos
  expect (.delim .lbrace)
  orReset m do
    let body ← stmtsOf stmt n
    return (pos, body)

/-- `"if" "(" expression ")" stmt ["else" stmt]`. -/
def ifStmtOf (stmt : Parser Stmt) (n : Nat) : Parser Stmt := do
  let m ← mark
  let pos ← pos
  orReset m do
    expect (.keyword .if)
    let c ← test n
    let yes ← stmt
    if ← accept (.keyword .else) then
      let no ← stmt
      return .ifElse pos c yes no
    else return .ifThen pos c yes

/-- The first clause of a counting loop: a declaration if it is one, and else an expression. -/
def forInit (n : Nat) : Parser ForInit := do
  if (← token) = .delim .semi then return .nothing
  else
    (do let d ← varSpec n; return .var d) <|> (do let x ← expression n; return .expr x)

/-- `"for" "(" [init] ";" [expression] ";" [expression] ")" stmt`. -/
def forStmtOf (stmt : Parser Stmt) (n : Nat) : Parser Stmt := do
  let m ← mark
  let pos ← pos
  orReset m do
    expect (.keyword .for)
    expect (.delim .lparen)
    let init ← forInit n
    expect (.delim .semi)
    let c ← optional n (.delim .semi)
    expect (.delim .semi)
    let post ← optional n (.delim .rparen)
    expect (.delim .rparen)
    let body ← stmt
    return .forLoop pos init c post body

/-- `"while" "(" expression ")" stmt`. -/
def whileStmtOf (stmt : Parser Stmt) (n : Nat) : Parser Stmt := do
  let m ← mark
  let pos ← pos
  orReset m do
    expect (.keyword .while)
    let c ← test n
    let body ← stmt
    return .whileLoop pos c body

/-- `"do" stmt "while" "(" expression ")" ";"`. -/
def doStmtOf (stmt : Parser Stmt) (n : Nat) : Parser Stmt := do
  let m ← mark
  let pos ← pos
  expect (.keyword .do)
  orReset m do
    let body ← stmt
    expect (.keyword .while)
    let c ← test n
    expect (.delim .semi)
    return .doLoop pos body c

/-- A declaration or an expression, with its semicolon. -/
def simpleStmt (n : Nat) : Parser Stmt :=
  (do let d ← varDecl n; return .var d) <|> exprStmt n

/-- A statement whose parts are read by the given parser. -/
def stmtOf (stmt : Parser Stmt) (n : Nat) : Parser Stmt := do
  let item ← current
  match item.token with
  | .delim .lbrace =>
    let (pos, body) ← blockOf stmt n
    return .block pos body
  | .delim .semi =>
    advance
    return .empty item.pos
  | .keyword .if => ifStmtOf stmt n
  | .keyword .for => forStmtOf stmt n
  | .keyword .while => whileStmtOf stmt n
  | .keyword .do => doStmtOf stmt n
  | .keyword .break => branchStmt
  | .keyword .continue => branchStmt
  | .keyword .return => returnStmt n
  | _ => simpleStmt n

/-- A statement. -/
def stmt : Nat → Parser Stmt
  | 0 => fail
  | n + 1 => stmtOf (stmt n) n

/-! ## The productions with a bound -/

/-- Statements in braces. -/
def block (n : Nat) : Parser (Pos × List Stmt) := blockOf (stmt n) n

/-- A choice. -/
def ifStmt (n : Nat) : Parser Stmt := ifStmtOf (stmt n) n

/-- A counting loop. -/
def forStmt (n : Nat) : Parser Stmt := forStmtOf (stmt n) n

/-- A loop that tests first. -/
def whileStmt (n : Nat) : Parser Stmt := whileStmtOf (stmt n) n

/-- A loop that tests last. -/
def doStmt (n : Nat) : Parser Stmt := doStmtOf (stmt n) n

end Shader.Grammar
