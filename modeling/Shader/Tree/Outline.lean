import Shader.Text.Quoted
import Shader.Tree

/-!
# Outlines

The outline of a tree has a line for every node, with the parts of the node indented below it. A
line names the kind of the node and its position and what else distinguishes it.
-/

namespace Shader

namespace Outline

/-- A line of an outline: how deep it stands and what it says. -/
structure Line where
  /-- the number of nodes around it -/
  depth : Nat
  /-- what it says -/
  text : String

/-- The line with its indentation and its end. -/
def Line.render (l : Line) : String :=
  String.ofList (List.replicate (2 * l.depth) ' ') ++ l.text ++ "\n"

/-- The lines as one text. -/
def render (lines : List Line) : String := String.join (lines.map Line.render)

/-- Lines that are indented by one more step. -/
def indent (lines : List Line) : List Line := lines.map fun l => { l with depth := l.depth + 1 }

/-- A line with others below it. -/
def node (text : String) (parts : List Line := []) : List Line := ⟨0, text⟩ :: indent parts

/-- The line of a node of the given kind and position. -/
def head (kind : String) (pos : Pos) (more : String := "") : String :=
  kind ++ " " ++ pos.text ++ more

end Outline

open Outline

namespace Expr

mutual

/-- The outline of an expression. -/
def outline : Expr → List Line
  | name n => node (head "Name" n.pos (" " ++ Text.quote n.text))
  | number pos kind text => node (head "NumberLit" pos (" " ++ kind.name ++ " " ++ text))
  | bool pos value => node (head "BoolLit" pos (" " ++ boolText value))
  | call fn args => node (head "CallExpr" fn.pos (" " ++ fn.text)) (outlineArgs args)
  | construct pos type args =>
    node (head "ConstructExpr" pos (" " ++ type.name)) (outlineArgs args)
  | index base i =>
    node (head "IndexExpr" base.pos (" " ++ base.text)) (node "Index:" (outline i))
  | member x sel _ => node (head "MemberExpr" x.pos (" ." ++ sel.text)) (outline x)
  | unary pos op x => node (head "PrefixExpr" pos (" " ++ op.sign)) (outline x)
  | postStep s x => node (head "PostfixExpr" x.pos (" " ++ s.sign)) (outline x)
  | binary op x y =>
    node (head "BinaryExpr" x.pos (" " ++ op.sign)) (node "X:" (outline x) ++ node "Y:" (outline y))
  | assign op x y =>
    node (head "BinaryExpr" x.pos (" " ++ assignSign op))
      (node "X:" (outline x) ++ node "Y:" (outline y))
  | cond c x y =>
    node (head "CondExpr" c.pos)
      (node "Cond:" (outline c) ++ node "Then:" (outline x) ++ node "Else:" (outline y))
  | seq first rest => node (head "SeqExpr" first.pos) (outline first ++ outlineList rest)

/-- The outline of a list of arguments, which leaves no trace if it is empty. -/
def outlineArgs : List Expr → List Line
  | [] => []
  | x :: xs => node "Args:" (outline x ++ outlineList xs)

/-- The outlines of some expressions. -/
def outlineList : List Expr → List Line
  | [] => []
  | x :: xs => outline x ++ outlineList xs

end

end Expr

/-- The outline of an expression under a label, if there is an expression. -/
def Outline.labeled (label : String) : Option Expr → List Line
  | none => []
  | some x => node label x.outline

/-- The outline of a declaration. -/
def VarDecl.outline (d : VarDecl) : List Line :=
  node
    (head "VarDecl" d.pos
      ((if d.isConst then " const " else " ") ++ d.type.name ++ " " ++ d.name.text))
    (labeled "Init:" d.init)

/-- The outline of the first clause of a counting loop. -/
def ForInit.outline : ForInit → List Line
  | nothing => []
  | var d => node "Init:" d.outline
  | expr x => node "Init:" (node (head "ExprStmt" x.pos) x.outline)

namespace Stmt

mutual

/-- The outline of a statement. -/
def outline : Stmt → List Line
  | empty pos => node (head "EmptyStmt" pos)
  | expr x => node (head "ExprStmt" x.pos) x.outline
  | var d => d.outline
  | block pos body => node (head "BlockStmt" pos) (outlineList body)
  | ifThen pos c yes =>
    node (head "IfStmt" pos) (node "Cond:" c.outline ++ node "Then:" (outline yes))
  | ifElse pos c yes no =>
    node (head "IfStmt" pos)
      (node "Cond:" c.outline ++ node "Then:" (outline yes) ++ node "Else:" (outline no))
  | forLoop pos init c post body =>
    node (head "ForStmt" pos)
      (init.outline ++ labeled "Cond:" c ++ labeled "Post:" post ++ node "Body:" (outline body))
  | whileLoop pos c body =>
    node (head "WhileStmt" pos) (node "Cond:" c.outline ++ node "Body:" (outline body))
  | doLoop pos body c =>
    node (head "DoStmt" pos) (node "Body:" (outline body) ++ node "Cond:" c.outline)
  | branch pos token => node (head "BranchStmt" pos (" " ++ token.text))
  | ret pos result => node (head "ReturnStmt" pos) ((result.map Expr.outline).getD [])

/-- The outlines of some statements. -/
def outlineList : List Stmt → List Line
  | [] => []
  | s :: ss => outline s ++ outlineList ss

end

end Stmt

/-- The outline of a global variable. -/
def GlobalVar.outline (g : GlobalVar) : List Line :=
  node (head "GlobalVar" g.pos (" " ++ g.storage.qualifier))
    (g.layout.flatMap (fun e => node ("Layout: " ++ e.key ++ " = " ++ toString e.value)) ++
      g.var.outline)

/-- The outline of a parameter on its own. -/
def Param.outline (p : Param) : List Line :=
  node (head "Param" p.pos (" " ++ p.type.name ++ " " ++ p.name.text))

/-- A parameter as the outline of its function shows it. -/
def Param.signature (p : Param) : String :=
  (if p.storage = .plain then "" else p.storage.qualifier ++ " ") ++ p.type.name ++ " " ++
    p.name.text

/-- The outline of a function. -/
def FuncDecl.outline (f : FuncDecl) : List Line :=
  node (head "FuncDecl" f.pos)
    (node ("Name: " ++ f.name.text) ++
      (if f.params.isEmpty then []
        else node "Params:" (f.params.flatMap fun p => node p.signature)) ++
      node ("Result: " ++ f.result.name) ++
      node "Body:" (Stmt.block f.bodyPos f.body).outline)

/-- The outline of a definition. -/
def Def.outline : Def → List Line
  | global g => g.outline
  | func f => f.outline

/-- The outline of a shader. -/
def Program.outline (p : Program) : List Line :=
  node (head "Program" p.pos)
    ((if p.version = 0 then [] else node ("Version: " ++ toString p.version)) ++
      p.defs.flatMap Def.outline)

end Shader
