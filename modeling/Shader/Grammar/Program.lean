import Shader.Grammar.Stmt
import Shader.Numeral.Digits
import Shader.Text.Quoted

/-!
# The grammar of shaders

A shader is an optional version line and a sequence of definitions. A definition is read as a
function and, where that fails, as a global variable. If the items are not a shader, there is one
report, on the furthest item that reading has moved to.
-/

namespace Shader.Grammar

open Shader.Parser

/-- The bound of the numbers that a layout can hold. -/
def numberBound : Nat := 9223372036854775808

/-- A number without sign, fraction and suffix that is below the bound. -/
def intLit : Parser Nat := do
  let item ← current
  match item.token with
  | .number .int =>
    let value := Numeral.ofDigits item.text.toList
    if value < numberBound then
      advance
      return value
    else fail
  | _ => fail

/-- `("location" | "binding") "=" number`. -/
def layoutEntry : Parser LayoutEntry := do
  let key ← current
  match key.token with
  | .keyword .location | .keyword .binding =>
    advance
    expect (.assign none)
    let value ← intLit
    return ⟨key.text, value⟩
  | _ => fail

/-- `"layout" "(" entry {"," entry} ")"`. -/
def layout (n : Nat) : Parser (List LayoutEntry) := do
  let m ← mark
  orReset m do
    expect (.keyword .layout)
    expect (.delim .lparen)
    let entries ← commaList layoutEntry n
    expect (.delim .rparen)
    return entries

/-- `["in" | "out"] type name`. -/
def param : Parser Param := do
  let m ← mark
  let item ← current
  orReset m do
    let storage ←
      match item.token with
      | .keyword .in => do advance; pure Storage.input
      | .keyword .out => do advance; pure Storage.output
      | _ => pure Storage.plain
    let type ← typeName
    let name ← name
    return { pos := item.pos, storage, type, name }

/-- The parameters behind an opening parenthesis, and the closing one. The word `void` stands for
no parameters if the parenthesis follows it at once. -/
def paramList (n : Nat) : Parser (List Param) := do
  let m ← mark
  if ← accept (.delim .rparen) then return []
  else
    let first ← token
    let second ← peek 1
    if first = .typeName .void ∧ second.token = .delim .rparen then
      advance
      advance
      return []
    else
      orReset m do
        let params ← commaList param n
        expect (.delim .rparen)
        return params

/-- `type name "(" params block`. -/
def funcDecl (n : Nat) : Parser FuncDecl := do
  let m ← mark
  let pos ← pos
  let result ← typeName
  orReset m do
    let name ← name
    expect (.delim .lparen)
    let params ← paramList n
    let (bodyPos, body) ← block n
    return { pos, result, name, params, bodyPos, body }

/-- `["uniform" | "in" | "out"]`. -/
def storage : Parser Storage := do
  match ← token with
  | .keyword .uniform => advance; return .uniform
  | .keyword .in => advance; return .input
  | .keyword .out => advance; return .output
  | _ => return .plain

/-- `[layout] ["uniform" | "in" | "out"] varDecl`. -/
def globalVar (n : Nat) : Parser GlobalVar := do
  let m ← mark
  let pos ← pos
  orReset m do
    let layout ←
      match ← token with
      | .keyword .layout => layout n
      | _ => pure []
    let storage ← storage
    let var ← varDecl n
    return { pos, layout, storage, var }

/-- A function or, failing that, a global variable. -/
def definition (n : Nat) : Parser Def :=
  (do let f ← funcDecl n; return .func f) <|> (do let g ← globalVar n; return .global g)

/-- What is said of the item that a parse could not get past. -/
def unexpected (item : Item) : String :=
  "syntax error: unexpected " ++
    match item.token with
    | .eof => "end of file"
    | .name => "name " ++ item.text
    | .typeName _ => "type " ++ item.text
    | .number _ => "number " ++ item.text
    | .error => Text.quote item.text
    | t => Text.quote t.text

/-- Reports the furthest item, which could not be got past. -/
def stuck {α : Type} : Parser α := fun s =>
  let report := s.stream.furthest?.map fun item => (⟨item.pos, unexpected item⟩ : Report)
  (none, { s with reports := s.reports ++ report.toList })

/-- The definitions up to the end of the text, at most as many as the second number says. -/
def definitions (n : Nat) : Nat → Parser (List Def)
  | 0 => fail
  | k + 1 => do
    if (← token).isEof then return []
    else
      let d ← definition n <|> stuck
      let ds ← definitions n k
      return d :: ds

/-- The value of a version line; a number past the bound counts as the last one before it. -/
def versionOf (item : Item) : Nat := min (Numeral.ofDigits item.text.toList) (numberBound - 1)

/-- `["#version" number]`; the number is zero if there is no such line. -/
def version : Parser Nat := do
  if ← accept .version then
    let item ← current
    match item.token with
    | .number .int =>
      advance
      return versionOf item
    | _ => stuck
  else return 0

/-- A version line and definitions, behind the implicit one. -/
def program (n : Nat) : Parser Program := do
  let pos ← pos
  let version ← version
  let defs ← definitions n n
  return { pos, version, defs := .global implicitPosition :: defs }

/-- A bound for the depth of what the items can hold; a statement may be as deep as it is long, and
the expressions in it take one more. -/
def depthBound (items : List Item) : Nat := items.length + 2

end Grammar

open Shader.Grammar Shader.Parser

/-- The result of parsing. -/
structure Parse where
  /-- the shader, if the text is one -/
  program : Option Program
  /-- what is wrong with the text -/
  reports : List Report
  /-- the number of items that were read -/
  cursor : Nat

/-- Parses a stream whose items were found with some reports; if there are any, the text is no
shader. -/
def Stream.parse (stream : Stream) (reports : List Report) : Parse :=
  let (program, s) := program (depthBound stream.items) { stream, reports }
  { program := if s.reports.isEmpty then program else none
    reports := s.reports, cursor := s.stream.cursor.toNat }

/-- Parses items that end with the end of the text. -/
def parseItems (items : List Item) : Parse := Stream.parse { items } []

/-- Parses a source. A text with lexical errors is no shader, but the errors of its parse are
reported as well. -/
def Source.parse (s : Source) : Parse :=
  let scan := s.scan
  Stream.parse { items := scan.items } scan.reports

/-- Parses a source as an expression; the error is the first report. -/
def Source.parseExpr (s : Source) : Except (List Report) Expr :=
  let scan := s.scan
  let whole : Parser Expr := do
    let x ← expression (depthBound scan.items) <|> stuck
    if (← token).isEof then return x else stuck
  match whole { stream := { items := scan.items }, reports := scan.reports } with
  | (some x, s) => if s.reports.isEmpty then .ok x else .error s.reports
  | (none, s) => .error s.reports

end Shader
