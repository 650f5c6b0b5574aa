import Shader.Text.Json
import Shader.Tree.Typing

/-!
# Trees as documents

The JSON document of a tree: an object for every node, with the kind of the node, its position, the
type of an expression as far as it is known, and the parts of the node.
-/

namespace Shader

open Text

namespace Document

/-- Members of an object. -/
abbrev Members := List (String × Json)

/-- The object of a node. -/
def node (kind : String) (pos : Pos) (parts : Members) : Json :=
  Json.sorted ([("type", Json.str kind), ("pos", Json.str pos.text)] ++ parts)

/-- The object of an expression, which also tells its type if that is known. -/
def typed (kind : String) (pos : Pos) (type : Option DataType) (parts : Members) : Json :=
  node kind pos ((type.map fun t => ("exprtype", Json.str t.name)).toList ++ parts)

/-- A member that is there only if it has a value. -/
def member? (key : String) (x : Option Json) : Members := (x.map fun x => (key, x)).toList

end Document

open Document

namespace Name

/-- The document of a name. -/
def document (β : Binding) (n : Name) : Json :=
  typed "Name" n.pos (β n) [("value", .str n.text)]

end Name

namespace Expr

mutual

/-- The document of an expression. -/
def document (β : Binding) : Expr → Json
  | name n => n.document β
  | number pos kind text =>
    typed "NumberLit" pos (type? β (number pos kind text))
      [("kind", .str kind.name), ("value", .str text)]
  | bool pos value => typed "BoolLit" pos (some .bool) [("value", .bool value)]
  | call fn args =>
    typed "CallExpr" fn.pos (β fn) [("fun", .str fn.text), ("args", .arr (documents β args))]
  | construct pos type args =>
    typed "ConstructExpr" pos (some type)
      [("construct", .str type.name), ("args", .arr (documents β args))]
  | index base i =>
    typed "IndexExpr" base.pos (type? β (index base i))
      [("x", base.document β), ("index", document β i)]
  | member x sel selPos =>
    typed "MemberExpr" x.pos (type? β (member x sel selPos))
      [("x", document β x), ("sel", .str sel.text)]
  | unary pos op x =>
    typed "PrefixExpr" pos (type? β (unary pos op x)) [("op", .str op.sign), ("x", document β x)]
  | postStep s x =>
    typed "PostfixExpr" x.pos (type? β (postStep s x)) [("op", .str s.sign), ("x", document β x)]
  | binary op x y =>
    typed "BinaryExpr" x.pos (type? β (binary op x y))
      [("op", .str op.sign), ("x", document β x), ("y", document β y)]
  | assign op x y =>
    typed "BinaryExpr" x.pos (type? β (assign op x y))
      [("op", .str (assignSign op)), ("x", document β x), ("y", document β y)]
  | cond c x y =>
    typed "CondExpr" c.pos (type? β (cond c x y))
      [("cond", document β c), ("then", document β x), ("else", document β y)]
  | seq first rest =>
    typed "SeqExpr" first.pos (type? β (seq first rest))
      [("list", .arr (document β first :: documents β rest))]

/-- The documents of some expressions. -/
def documents (β : Binding) : List Expr → List Json
  | [] => []
  | x :: xs => document β x :: documents β xs

end

end Expr

/-- The document of a declaration. -/
def VarDecl.document (β : Binding) (d : VarDecl) : Json :=
  node "VarDecl" d.pos
    ([("name", Json.str d.name.text), ("vartype", Json.str d.type.name)] ++
      (if d.isConst then [("const", Json.bool true)] else []) ++
      member? "init" (d.init.map (Expr.document β)))

/-- The document of an expression that stands as a statement. -/
def Document.exprStmt (β : Binding) (x : Expr) : Json :=
  node "ExprStmt" x.pos [("x", x.document β)]

/-- The document of the first clause of a counting loop. -/
def ForInit.document? (β : Binding) : ForInit → Option Json
  | nothing => none
  | var d => some (d.document β)
  | expr x => some (exprStmt β x)

namespace Stmt

mutual

/-- The document of a statement. -/
def document (β : Binding) : Stmt → Json
  | empty pos => node "EmptyStmt" pos []
  | expr x => exprStmt β x
  | var d => d.document β
  | block pos body => node "BlockStmt" pos [("stmts", .arr (documents β body))]
  | ifThen pos c yes => node "IfStmt" pos [("cond", c.document β), ("then", document β yes)]
  | ifElse pos c yes no =>
    node "IfStmt" pos
      [("cond", c.document β), ("then", document β yes), ("else", document β no)]
  | forLoop pos init c post body =>
    node "ForStmt" pos
      (member? "init" (init.document? β) ++ member? "cond" (c.map (Expr.document β)) ++
        member? "post" (post.map (Expr.document β)) ++ [("body", document β body)])
  | whileLoop pos c body => node "WhileStmt" pos [("cond", c.document β), ("body", document β body)]
  | doLoop pos body c => node "DoStmt" pos [("body", document β body), ("cond", c.document β)]
  | branch pos token => node "BranchStmt" pos [("token", .str token.text)]
  | ret pos result => node "ReturnStmt" pos (member? "result" (result.map (Expr.document β)))

/-- The documents of some statements. -/
def documents (β : Binding) : List Stmt → List Json
  | [] => []
  | s :: ss => document β s :: documents β ss

end

end Stmt

/-- The document of a global variable. -/
def GlobalVar.document (β : Binding) (g : GlobalVar) : Json :=
  node "GlobalVar" g.pos
    ((if g.storage = .plain then [] else [("storage", Json.str g.storage.qualifier)]) ++
      (if g.layout.isEmpty then []
        else
          [("layout", Json.arr (g.layout.map fun e =>
            Json.sorted [("name", .str e.key), ("value", .num e.value)]))]) ++
      [("var", g.var.document β)])

/-- The document of a parameter. -/
def Param.document (p : Param) : Json :=
  node "Param" p.pos
    ([("name", Json.str p.name.text), ("paramtype", Json.str p.type.name)] ++
      if p.storage = .plain then [] else [("qual", Json.str p.storage.qualifier)])

/-- The document of a function. -/
def FuncDecl.document (β : Binding) (f : FuncDecl) : Json :=
  node "FuncDecl" f.pos
    [("name", .str f.name.text), ("result", .str f.result.name),
      ("params", .arr (f.params.map Param.document)),
      ("body", (Stmt.block f.bodyPos f.body).document β)]

/-- The document of a definition. -/
def Def.document (β : Binding) : Def → Json
  | global g => g.document β
  | func f => f.document β

/-- The document of a shader. -/
def Program.document (β : Binding) (p : Program) : Json :=
  node "Program" p.pos
    ((if p.version = 0 then [] else [("version", Json.num p.version)]) ++
      [("defs", Json.arr (p.defs.map (Def.document β)))])

end Shader
