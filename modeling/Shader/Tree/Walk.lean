import Shader.Tree.Typing

/-!
# Walks

A walk visits the nodes of a tree, each before its parts and the parts in their order in the text.
The visitor may decline to enter a node; its parts are then not visited. The names that a
declaration, a call or a selection holds are nodes of their own.
-/

namespace Shader

/-- The nodes of a tree. -/
inductive Node where
  /-- the shader -/
  | program (p : Program)
  /-- a global variable -/
  | global (g : GlobalVar)
  /-- a function -/
  | func (f : FuncDecl)
  /-- a parameter -/
  | param (p : Param)
  /-- an expression -/
  | expr (x : Expr)
  /-- a statement -/
  | stmt (s : Stmt)

/-- The kind of an expression. -/
def Expr.kind : Expr → String
  | name _ => "Name"
  | number _ _ _ => "NumberLit"
  | bool _ _ => "BoolLit"
  | call _ _ => "CallExpr"
  | construct _ _ _ => "ConstructExpr"
  | index _ _ => "IndexExpr"
  | member _ _ _ => "MemberExpr"
  | unary _ _ _ => "PrefixExpr"
  | postStep _ _ => "PostfixExpr"
  | binary _ _ _ => "BinaryExpr"
  | assign _ _ _ => "BinaryExpr"
  | cond _ _ _ => "CondExpr"
  | seq _ _ => "SeqExpr"

/-- The kind of a statement. -/
def Stmt.kind : Stmt → String
  | empty _ => "EmptyStmt"
  | expr _ => "ExprStmt"
  | var _ => "VarDecl"
  | block _ _ => "BlockStmt"
  | ifThen _ _ _ => "IfStmt"
  | ifElse _ _ _ _ => "IfStmt"
  | forLoop _ _ _ _ _ => "ForStmt"
  | whileLoop _ _ _ => "WhileStmt"
  | doLoop _ _ _ => "DoStmt"
  | branch _ _ => "BranchStmt"
  | ret _ _ => "ReturnStmt"

namespace Node

/-- The kind of a node. -/
def kind : Node → String
  | program _ => "Program"
  | global _ => "GlobalVar"
  | func _ => "FuncDecl"
  | param _ => "Param"
  | expr x => x.kind
  | stmt s => s.kind

/-- The kind of a node and the text of a name or number. -/
def label : Node → String
  | expr (.name n) => "Name " ++ n.text
  | expr (.number _ _ text) => "NumberLit " ++ text
  | n => n.kind

/-- The node of a name. -/
def ofName (n : Name) : Node := expr (.name n)

/-- The node and, if it is entered, what is visited inside. -/
def visit (enter : Node → Bool) (n : Node) (inside : List Node) : List Node :=
  n :: if enter n then inside else []

end Node

open Node

namespace Expr

mutual

/-- The nodes that a walk over an expression visits. -/
def walk (enter : Node → Bool) : Expr → List Node
  | name n => [ofName n]
  | number pos kind text => [.expr (number pos kind text)]
  | bool pos value => [.expr (bool pos value)]
  | call fn args => visit enter (.expr (call fn args)) (ofName fn :: walkList enter args)
  | construct pos type args => visit enter (.expr (construct pos type args)) (walkList enter args)
  | index base i =>
    visit enter (.expr (index base i)) (ofName base :: walk enter i)
  | member x sel selPos =>
    visit enter (.expr (member x sel selPos))
      (walk enter x ++ [ofName (selName sel selPos)])
  | unary pos op x => visit enter (.expr (unary pos op x)) (walk enter x)
  | postStep s x => visit enter (.expr (postStep s x)) (walk enter x)
  | binary op x y => visit enter (.expr (binary op x y)) (walk enter x ++ walk enter y)
  | assign op x y => visit enter (.expr (assign op x y)) (walk enter x ++ walk enter y)
  | cond c x y =>
    visit enter (.expr (cond c x y)) (walk enter c ++ walk enter x ++ walk enter y)
  | seq first rest =>
    visit enter (.expr (seq first rest)) (walk enter first ++ walkList enter rest)

/-- The nodes that a walk over some expressions visits. -/
def walkList (enter : Node → Bool) : List Expr → List Node
  | [] => []
  | x :: xs => walk enter x ++ walkList enter xs

end

/-- The nodes that a walk over an expression visits, if there is one. -/
def walk? (enter : Node → Bool) : Option Expr → List Node
  | none => []
  | some x => walk enter x

end Expr

/-- The nodes that a walk over a declaration visits. -/
def VarDecl.walk (enter : Node → Bool) (d : VarDecl) : List Node :=
  visit enter (.stmt (.var d)) (ofName d.name :: Expr.walk? enter d.init)

/-- The nodes that a walk over the first clause of a counting loop visits. -/
def ForInit.walk (enter : Node → Bool) : ForInit → List Node
  | nothing => []
  | var d => d.walk enter
  | expr x => visit enter (.stmt (.expr x)) (x.walk enter)

namespace Stmt

mutual

/-- The nodes that a walk over a statement visits. -/
def walk (enter : Node → Bool) : Stmt → List Node
  | empty pos => [.stmt (empty pos)]
  | expr x => visit enter (.stmt (expr x)) (x.walk enter)
  | var d => d.walk enter
  | block pos body => visit enter (.stmt (block pos body)) (walkList enter body)
  | ifThen pos c yes => visit enter (.stmt (ifThen pos c yes)) (c.walk enter ++ walk enter yes)
  | ifElse pos c yes no =>
    visit enter (.stmt (ifElse pos c yes no)) (c.walk enter ++ walk enter yes ++ walk enter no)
  | forLoop pos init c post body =>
    visit enter (.stmt (forLoop pos init c post body))
      (init.walk enter ++ Expr.walk? enter c ++ Expr.walk? enter post ++ walk enter body)
  | whileLoop pos c body =>
    visit enter (.stmt (whileLoop pos c body)) (c.walk enter ++ walk enter body)
  | doLoop pos body c => visit enter (.stmt (doLoop pos body c)) (walk enter body ++ c.walk enter)
  | branch pos token => [.stmt (branch pos token)]
  | ret pos result => visit enter (.stmt (ret pos result)) (Expr.walk? enter result)

/-- The nodes that a walk over some statements visits. -/
def walkList (enter : Node → Bool) : List Stmt → List Node
  | [] => []
  | s :: ss => walk enter s ++ walkList enter ss

end

end Stmt

/-- The nodes that a walk over a parameter visits. -/
def Param.walk (enter : Node → Bool) (p : Param) : List Node :=
  visit enter (.param p) [ofName p.name]

/-- The nodes that a walk over a definition visits. -/
def Def.walk (enter : Node → Bool) : Def → List Node
  | global g => visit enter (.global g) (g.var.walk enter)
  | func f =>
    visit enter (.func f)
      (ofName f.name :: f.params.flatMap (Param.walk enter) ++
        (Stmt.block f.bodyPos f.body).walk enter)

/-- The nodes that a walk over a shader visits. -/
def Program.walk (enter : Node → Bool) (p : Program) : List Node :=
  visit enter (.program p) (p.defs.flatMap (Def.walk enter))

namespace Node

/-- The statements among some nodes, with their positions and whether they always return. -/
def returns (nodes : List Node) : List (String × Pos × Bool) :=
  nodes.filterMap fun
    | stmt s => some (s.kind, s.pos, s.alwaysReturns)
    | _ => none

/-- The expressions among some nodes and their types. -/
def types (β : Binding) (nodes : List Node) : List (String × Option DataType) :=
  nodes.filterMap fun
    | expr x => some (x.render, x.type? β)
    | _ => none

end Node

end Shader
