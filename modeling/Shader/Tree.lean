import Shader.Token

/-!
# Syntax trees

The tree of a shader: expressions, statements and definitions. A node keeps a position of its own
only where its first part has none: an operator between operands starts where its first operand
starts, and a call where the name of the function stands.
-/

namespace Shader

/-- A name at its place in the text. -/
structure Name where
  /-- the name -/
  text : String
  /-- where it stands -/
  pos : Pos
  deriving DecidableEq, Repr

/-- The selectors of the components of a vector. -/
inductive Swizzle where
  /-- the first component -/
  | x
  /-- the second component -/
  | y
  /-- the third component -/
  | z
  /-- the fourth component -/
  | w
  deriving DecidableEq, Repr

namespace Swizzle

/-- All selectors, in the order of their components. -/
def all : List Swizzle := [x, y, z, w]

/-- The spelling of the selector. -/
def text : Swizzle → String
  | x => "x"
  | y => "y"
  | z => "z"
  | w => "w"

/-- The number of the component, counted from zero. -/
def index : Swizzle → Nat
  | x => 0
  | y => 1
  | z => 2
  | w => 3

/-- The selector that a text spells. -/
def ofText? (text : String) : Option Swizzle := all.find? fun s => s.text = text

end Swizzle

/-! ## Expressions -/

/-- Expressions. -/
inductive Expr where
  /-- a name -/
  | name (n : Name)
  /-- a number -/
  | number (pos : Pos) (kind : NumberKind) (text : String)
  /-- a truth value -/
  | bool (pos : Pos) (value : Bool)
  /-- a call of a function -/
  | call (fn : Name) (args : List Expr)
  /-- the construction of a value of a type -/
  | construct (pos : Pos) (type : DataType) (args : List Expr)
  /-- the component of a vector variable, or the column of a matrix variable -/
  | index (base : Name) (i : Expr)
  /-- the component of a vector -/
  | member (x : Expr) (sel : Swizzle) (selPos : Pos)
  /-- an operator in front of its operand -/
  | unary (pos : Pos) (op : UnaryOp) (x : Expr)
  /-- a step behind its operand -/
  | postStep (s : Step) (x : Expr)
  /-- an operator between two operands -/
  | binary (op : BinaryOp) (x y : Expr)
  /-- an assignment, which may first apply an operator -/
  | assign (op : Option ArithOp) (x y : Expr)
  /-- a choice between two expressions -/
  | cond (c x y : Expr)
  /-- one expression after another; its value is that of the last one -/
  | seq (first : Expr) (rest : List Expr)

namespace Expr

/-- Where an expression starts. -/
def pos : Expr → Pos
  | name n => n.pos
  | number pos _ _ => pos
  | bool pos _ => pos
  | call fn _ => fn.pos
  | construct pos _ _ => pos
  | index base _ => base.pos
  | member x _ _ => x.pos
  | unary pos _ _ => pos
  | postStep _ x => x.pos
  | binary _ x _ => x.pos
  | assign _ x _ => x.pos
  | cond c _ _ => c.pos
  | seq first _ => first.pos

/-- The selector of a member as a name. -/
def selName (sel : Swizzle) (selPos : Pos) : Name := ⟨sel.text, selPos⟩

/-- A truth value as the text spells it. -/
def boolText (value : Bool) : String := if value then "true" else "false"

mutual

/-- The expression with every application of an operator in parentheses. -/
def render : Expr → String
  | name n => n.text
  | number _ _ text => text
  | bool _ value => boolText value
  | call fn args => fn.text ++ "(" ++ renderList args ++ ")"
  | construct _ type args => type.name ++ "(" ++ renderList args ++ ")"
  | index base i => base.text ++ "[" ++ render i ++ "]"
  | member x sel _ => render x ++ "." ++ sel.text
  | unary _ op x => "(" ++ op.sign ++ render x ++ ")"
  | postStep s x => "(" ++ render x ++ s.sign ++ ")"
  | binary op x y => "(" ++ render x ++ " " ++ op.sign ++ " " ++ render y ++ ")"
  | assign op x y => "(" ++ render x ++ " " ++ assignSign op ++ " " ++ render y ++ ")"
  | cond c x y => "(" ++ render c ++ " ? " ++ render x ++ " : " ++ render y ++ ")"
  | seq first rest => "(" ++ render first ++ renderRest rest ++ ")"

/-- Expressions with commas between them. -/
def renderList : List Expr → String
  | [] => ""
  | x :: xs => render x ++ renderRest xs

/-- Expressions with a comma in front of each. -/
def renderRest : List Expr → String
  | [] => ""
  | x :: xs => ", " ++ render x ++ renderRest xs

end

end Expr

/-! ## Statements -/

/-- The declaration of a variable. -/
structure VarDecl where
  /-- where it starts -/
  pos : Pos
  /-- whether the variable may only be initialized -/
  isConst : Bool
  /-- the type of the variable -/
  type : DataType
  /-- the name of the variable -/
  name : Name
  /-- the first value of the variable -/
  init : Option Expr

/-- What a counting loop does first. -/
inductive ForInit where
  /-- nothing -/
  | nothing
  /-- declares a variable -/
  | var (d : VarDecl)
  /-- evaluates an expression -/
  | expr (x : Expr)

/-- Statements. -/
inductive Stmt where
  /-- a semicolon alone -/
  | empty (pos : Pos)
  /-- an expression that is evaluated for its effects -/
  | expr (x : Expr)
  /-- a declaration -/
  | var (d : VarDecl)
  /-- statements with a scope of their own -/
  | block (pos : Pos) (body : List Stmt)
  /-- a choice with one branch -/
  | ifThen (pos : Pos) (c : Expr) (yes : Stmt)
  /-- a choice with two branches -/
  | ifElse (pos : Pos) (c : Expr) (yes no : Stmt)
  /-- a counting loop -/
  | forLoop (pos : Pos) (init : ForInit) (c post : Option Expr) (body : Stmt)
  /-- a loop that tests first -/
  | whileLoop (pos : Pos) (c : Expr) (body : Stmt)
  /-- a loop that tests last -/
  | doLoop (pos : Pos) (body : Stmt) (c : Expr)
  /-- `break` or `continue` -/
  | branch (pos : Pos) (token : Token)
  /-- the return from a function -/
  | ret (pos : Pos) (result : Option Expr)

namespace Stmt

/-- Where a statement starts. -/
def pos : Stmt → Pos
  | empty pos => pos
  | expr x => x.pos
  | var d => d.pos
  | block pos _ => pos
  | ifThen pos _ _ => pos
  | ifElse pos _ _ _ => pos
  | forLoop pos _ _ _ _ => pos
  | whileLoop pos _ _ => pos
  | doLoop pos _ _ => pos
  | branch pos _ => pos
  | ret pos _ => pos

mutual

/-- Whether every path through a statement ends in a return. A loop is judged by its body, as if it
ran at least once. -/
def alwaysReturns : Stmt → Bool
  | block _ body => someReturns body
  | ifElse _ _ yes no => alwaysReturns yes && alwaysReturns no
  | forLoop _ _ _ _ body => alwaysReturns body
  | whileLoop _ _ body => alwaysReturns body
  | doLoop _ body _ => alwaysReturns body
  | ret _ _ => true
  | _ => false

/-- Whether one of the statements always returns. -/
def someReturns : List Stmt → Bool
  | [] => false
  | s :: ss => alwaysReturns s || someReturns ss

end

end Stmt

/-! ## Definitions -/

/-- Where the value of a global variable or parameter comes from. -/
inductive Storage where
  /-- from the program alone -/
  | plain
  /-- from the host, the same for all runs -/
  | uniform
  /-- from the host -/
  | input
  /-- it goes to the host or to the caller -/
  | output
  deriving DecidableEq, Repr

namespace Storage

/-- All storages, in the order of their numbers. -/
def all : List Storage := [plain, uniform, input, output]

/-- The storage with a number; a number that none has stands for a plain variable. -/
def ofCode (n : Nat) : Storage := (all[n]?).getD plain

/-- The qualifier that the text spells. -/
def qualifier : Storage → String
  | plain => ""
  | uniform => "uniform"
  | input => "in"
  | output => "out"

/-- The name of the storage. -/
def name : Storage → String
  | plain => "private"
  | s => s.qualifier

/-- Whether the host provides the variable. -/
def isExternal : Storage → Bool
  | uniform | input => true
  | _ => false

end Storage

/-- An entry of a layout, such as `location = 0`. -/
structure LayoutEntry where
  /-- the key -/
  key : String
  /-- the value -/
  value : Int
  deriving DecidableEq, Repr

/-- The definition of a global variable. -/
structure GlobalVar where
  /-- where it starts -/
  pos : Pos
  /-- its layout -/
  layout : List LayoutEntry
  /-- where its value comes from -/
  storage : Storage
  /-- the variable -/
  var : VarDecl

/-- A parameter of a function. -/
structure Param where
  /-- where it starts -/
  pos : Pos
  /-- its qualifier -/
  storage : Storage
  /-- its type -/
  type : DataType
  /-- its name -/
  name : Name
  deriving DecidableEq, Repr

/-- The definition of a function. -/
structure FuncDecl where
  /-- where it starts -/
  pos : Pos
  /-- the type of its result -/
  result : DataType
  /-- its name -/
  name : Name
  /-- its parameters -/
  params : List Param
  /-- where its body starts -/
  bodyPos : Pos
  /-- the statements of its body -/
  body : List Stmt

/-- Definitions. -/
inductive Def where
  /-- of a global variable -/
  | global (g : GlobalVar)
  /-- of a function -/
  | func (f : FuncDecl)

/-- A shader. -/
structure Program where
  /-- where it starts -/
  pos : Pos
  /-- the number of its version line, zero if there is none -/
  version : Nat
  /-- its definitions, in their order -/
  defs : List Def

/-- The name of the output that every shader has. -/
def positionName : String := "gl_Position"

/-- The declaration of the output that every shader has. -/
def implicitPosition : GlobalVar where
  pos := .implicit
  layout := []
  storage := .output
  var :=
    { pos := .implicit, isConst := false, type := .vec4, name := ⟨positionName, .implicit⟩
      init := none }

end Shader
