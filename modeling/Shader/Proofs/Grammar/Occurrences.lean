import Mathlib.Data.List.Flatten
import Mathlib.Logic.Relation
import Shader.Proofs.Grammar.Traversal

/-!
# Occurrences

A tree keeps the names and numbers of its text: each of them is an item of the text, in the order of
the text, and no item is kept twice. Since no two items stand at one place, the names in a tree are
told apart by where they stand.
-/

namespace Shader

open scoped List

open Node

/-- What a tree keeps of a text as it is spelled. -/
inductive Atom where
  /-- the name of a variable, where it is declared or used -/
  | var (n : Name)
  /-- the name of a function, where it is defined or called -/
  | func (n : Name)
  /-- a number -/
  | number (pos : Pos) (kind : NumberKind) (text : String)

/-- The item that is kept. -/
def Atom.item : Atom → Item
  | var n => n.item
  | func n => n.item
  | number pos kind text => ⟨.number kind, text, pos⟩

/-! ## Expressions -/

namespace Expr

mutual

/-- The names and numbers of an expression. -/
def atoms : Expr → List Atom
  | name n => [.var n]
  | number pos kind text => [.number pos kind text]
  | bool _ _ => []
  | call fn args => .func fn :: allAtoms args
  | construct _ _ args => allAtoms args
  | index base i => .var base :: atoms i
  | member x _ _ => atoms x
  | unary _ _ x => atoms x
  | postStep _ x => atoms x
  | binary _ x y => atoms x ++ atoms y
  | assign _ x y => atoms x ++ atoms y
  | cond c x y => atoms c ++ (atoms x ++ atoms y)
  | seq first rest => atoms first ++ allAtoms rest

/-- The names and numbers of expressions. -/
def allAtoms : List Expr → List Atom
  | [] => []
  | x :: xs => atoms x ++ allAtoms xs

end

theorem allAtoms_eq : ∀ xs : List Expr, allAtoms xs = xs.flatMap atoms
  | [] => rfl
  | x :: xs => by rw [allAtoms, allAtoms_eq xs, List.flatMap_cons]

theorem allAtoms_singleton (x : Expr) : allAtoms [x] = x.atoms := List.append_nil x.atoms

/-- The expressions that an expression is made of. -/
def children : Expr → List Expr
  | name _ | number _ _ _ | bool _ _ => []
  | call _ args | construct _ _ args => args
  | index _ x | member x _ _ | unary _ _ x | postStep _ x => [x]
  | binary _ x y | assign _ x y => [x, y]
  | cond c x y => [c, x, y]
  | seq first rest => first :: rest

/-- An expression occurs in itself and in all that is made of it. -/
def Occurs : Expr → Expr → Prop := Relation.ReflTransGen fun e x => e ∈ x.children

theorem atoms_children (x : Expr) : x.children.flatMap atoms <+ x.atoms := by
  cases x <;> simp [children, atoms, allAtoms_eq]

theorem atoms_sublist_of_mem {e : Expr} {xs : List Expr} (h : e ∈ xs) :
    e.atoms <+ xs.flatMap atoms :=
  List.sublist_flatten_of_mem (List.mem_map_of_mem (f := atoms) h)

/-- What occurs in an expression has some of its atoms. -/
theorem Occurs.atoms_sublist {e x : Expr} (h : e.Occurs x) : e.atoms <+ x.atoms := by
  induction h with
  | refl => exact List.Sublist.refl _
  | tail _ hchild ih =>
    exact ih.trans ((atoms_sublist_of_mem hchild).trans (atoms_children _))

end Expr

/-! ## Statements and definitions -/

/-- The names and numbers of a declaration. -/
def VarDecl.atoms (d : VarDecl) : List Atom := .var d.name :: Expr.allAtoms d.init.toList

namespace ForInit

/-- The names and numbers of the first clause of a loop. -/
def atoms : ForInit → List Atom
  | nothing => []
  | var d => d.atoms
  | expr x => x.atoms

/-- The expressions of the first clause of a loop. -/
def exprs : ForInit → List Expr
  | nothing => []
  | var d => d.init.toList
  | expr x => [x]

end ForInit

namespace Stmt

mutual

/-- The names and numbers of a statement. -/
def atoms : Stmt → List Atom
  | empty _ | branch _ _ => []
  | expr x => x.atoms
  | var d => d.atoms
  | block _ body => allAtoms body
  | ifThen _ c yes => c.atoms ++ atoms yes
  | ifElse _ c yes no => c.atoms ++ (atoms yes ++ atoms no)
  | forLoop _ init c post body =>
    init.atoms ++ (Expr.allAtoms c.toList ++ (Expr.allAtoms post.toList ++ atoms body))
  | whileLoop _ c body => c.atoms ++ atoms body
  | doLoop _ body c => atoms body ++ c.atoms
  | ret _ result => Expr.allAtoms result.toList

/-- The names and numbers of statements. -/
def allAtoms : List Stmt → List Atom
  | [] => []
  | s :: ss => atoms s ++ allAtoms ss

end

mutual

/-- The expressions of a statement. -/
def exprs : Stmt → List Expr
  | empty _ | branch _ _ => []
  | expr x => [x]
  | var d => d.init.toList
  | block _ body => allExprs body
  | ifThen _ c yes => c :: exprs yes
  | ifElse _ c yes no => c :: (exprs yes ++ exprs no)
  | forLoop _ init c post body => init.exprs ++ (c.toList ++ (post.toList ++ exprs body))
  | whileLoop _ c body => c :: exprs body
  | doLoop _ body c => exprs body ++ [c]
  | ret _ result => result.toList

/-- The expressions of statements. -/
def allExprs : List Stmt → List Expr
  | [] => []
  | s :: ss => exprs s ++ allExprs ss

end

end Stmt

/-- The names and numbers of a definition. -/
def Def.atoms : Def → List Atom
  | global g => g.var.atoms
  | func f => .func f.name :: (f.params.map (fun p => .var p.name) ++ Stmt.allAtoms f.body)

/-- The expressions of a definition. -/
def Def.exprs : Def → List Expr
  | global g => g.var.init.toList
  | func f => Stmt.allExprs f.body

/-- The names and numbers of a shader. -/
def Program.atoms (p : Program) : List Atom := p.defs.flatMap Def.atoms

/-- The expressions of a shader. -/
def Program.exprs (p : Program) : List Expr := p.defs.flatMap Def.exprs

/-- An expression stands somewhere in a shader. -/
def Program.Holds (p : Program) (e : Expr) : Prop := ∃ x ∈ p.exprs, e.Occurs x

section

variable {xs ys : List Expr} {as bs : List Atom}

/-- The atoms of the expressions in two pieces. -/
theorem flatMap_append_sublist (hx : xs.flatMap Expr.atoms <+ as)
    (hy : ys.flatMap Expr.atoms <+ bs) :
    (xs ++ ys).flatMap Expr.atoms <+ as ++ bs := by
  rw [List.flatMap_append]
  exact hx.append hy

theorem flatMap_cons_sublist {x : Expr} (hx : xs.flatMap Expr.atoms <+ as) :
    (x :: xs).flatMap Expr.atoms <+ x.atoms ++ as :=
  (List.Sublist.refl _).append hx

end

theorem flatMap_toList_sublist (x : Option Expr) :
    x.toList.flatMap Expr.atoms <+ Expr.allAtoms x.toList := by
  rw [Expr.allAtoms_eq]

theorem VarDecl.exprs_sublist (d : VarDecl) : d.init.toList.flatMap Expr.atoms <+ d.atoms := by
  rw [VarDecl.atoms]
  exact (flatMap_toList_sublist d.init).cons _

theorem ForInit.exprs_sublist : ∀ init : ForInit, init.exprs.flatMap Expr.atoms <+ init.atoms
  | .nothing => List.Sublist.refl _
  | .var d => d.exprs_sublist
  | .expr x => by simp [exprs, atoms]

mutual

theorem Stmt.exprs_sublist : ∀ s : Stmt, s.exprs.flatMap Expr.atoms <+ s.atoms
  | .empty _ | .branch _ _ => List.Sublist.refl _
  | .expr x => by simp [exprs, atoms]
  | .var d => d.exprs_sublist
  | .block _ body => Stmt.allExprs_sublist body
  | .ifThen _ c yes => flatMap_cons_sublist yes.exprs_sublist
  | .ifElse _ c yes no =>
    flatMap_cons_sublist (flatMap_append_sublist yes.exprs_sublist no.exprs_sublist)
  | .forLoop _ init c post body =>
    flatMap_append_sublist init.exprs_sublist <|
    flatMap_append_sublist (flatMap_toList_sublist c) <|
      flatMap_append_sublist (flatMap_toList_sublist post) body.exprs_sublist
  | .whileLoop _ c body => flatMap_cons_sublist body.exprs_sublist
  | .doLoop _ body c => flatMap_append_sublist body.exprs_sublist (by simp)
  | .ret _ result => flatMap_toList_sublist result

theorem Stmt.allExprs_sublist :
    ∀ ss : List Stmt, (Stmt.allExprs ss).flatMap Expr.atoms <+ Stmt.allAtoms ss
  | [] => List.Sublist.refl _
  | s :: ss => flatMap_append_sublist s.exprs_sublist (Stmt.allExprs_sublist ss)

end

theorem Def.exprs_sublist : ∀ d : Def, d.exprs.flatMap Expr.atoms <+ d.atoms
  | .global g => g.var.exprs_sublist
  | .func f => by
    rw [Def.atoms]
    exact ((Stmt.allExprs_sublist f.body).trans (List.sublist_append_right _ _)).cons _

/-- What stands in a shader has some of its atoms. -/
theorem Program.Holds.atoms_sublist {p : Program} {e : Expr} (h : p.Holds e) :
    e.atoms <+ p.atoms := by
  obtain ⟨x, hx, hocc⟩ := h
  have hdefs : p.exprs.flatMap Expr.atoms <+ p.atoms := by
    rw [Program.exprs, List.flatMap_assoc]
    exact List.Sublist.flatMap_right _ fun d _ => d.exprs_sublist
  exact (hocc.atoms_sublist.trans (Expr.atoms_sublist_of_mem hx)).trans hdefs

/-! ## Visits

A walk visits all that a tree keeps, and what it visits has been read. -/

/-- What is kept is among the names and numbers that are visited, in the same order. -/
def Visited (as : List Atom) (nodes : List Node) : Prop :=
  as.map Atom.item <+ nodes.filterMap Node.item?

namespace Visited

variable {as bs : List Atom} {a : Atom} {n : Node} {nodes more : List Node}

theorem nil : Visited [] nodes := List.nil_sublist _

theorem append (h : Visited as nodes) (h' : Visited bs more) :
    Visited (as ++ bs) (nodes ++ more) := by
  rw [Visited, List.map_append, List.filterMap_append]
  exact List.Sublist.append h h'

/-- Nodes at the end that are not kept. -/
theorem before (h : Visited as nodes) (more : List Node) : Visited as (nodes ++ more) := by
  rw [Visited, List.filterMap_append]
  exact List.Sublist.trans h (List.sublist_append_left _ _)

/-- A node in front that is not kept. -/
theorem atop (h : Visited as nodes) (n : Node) : Visited as (n :: nodes) :=
  List.Sublist.trans h ((List.sublist_cons_self n nodes).filterMap Node.item?)

theorem cons (h : Visited as nodes) (hn : n.item? = some a.item) :
    Visited (a :: as) (n :: nodes) := by
  rw [Visited, List.map_cons, List.filterMap_cons_some hn]
  exact List.Sublist.cons_cons _ h

end Visited

section

open Visited

mutual

theorem Expr.visited : ∀ x : Expr, Visited x.atoms (x.walk always)
  | .name n => nil.cons rfl
  | .number _ _ _ => nil.cons rfl
  | .bool _ _ => nil
  | .call _ args => ((Expr.allVisited args).cons rfl).atop _
  | .construct _ _ args => (Expr.allVisited args).atop _
  | .index _ i => (i.visited.cons rfl).atop _
  | .member x _ _ => (x.visited.before _).atop _
  | .unary _ _ x => x.visited.atop _
  | .postStep _ x => x.visited.atop _
  | .binary _ x y => (x.visited.append y.visited).atop _
  | .assign _ x y => (x.visited.append y.visited).atop _
  | .cond c x y => by
    have hparts := c.visited.append (x.visited.append y.visited)
    rw [← List.append_assoc (c.walk always)] at hparts
    exact hparts.atop _
  | .seq first rest => (first.visited.append (Expr.allVisited rest)).atop _

theorem Expr.allVisited : ∀ xs : List Expr, Visited (Expr.allAtoms xs) (Expr.walkList always xs)
  | [] => nil
  | x :: xs => x.visited.append (Expr.allVisited xs)

end

theorem Expr.visited_toList : ∀ x : Option Expr,
    Visited (Expr.allAtoms x.toList) (Expr.walk? always x)
  | none => nil
  | some x => by
    rw [Option.toList_some, Expr.allAtoms_singleton]
    exact x.visited

theorem VarDecl.visited (d : VarDecl) : Visited d.atoms (d.walk always) :=
  ((Expr.visited_toList d.init).cons rfl).atop _

theorem ForInit.visited : ∀ init : ForInit, Visited init.atoms (init.walk always)
  | .nothing => nil
  | .var d => d.visited
  | .expr x => x.visited.atop _

mutual

theorem Stmt.visited : ∀ s : Stmt, Visited s.atoms (s.walk always)
  | .empty _ | .branch _ _ => nil
  | .expr x => x.visited.atop _
  | .var d => d.visited
  | .block _ body => (Stmt.allVisited body).atop _
  | .ifThen _ c yes => (c.visited.append yes.visited).atop _
  | .ifElse _ c yes no => by
    have hparts := c.visited.append (yes.visited.append no.visited)
    rw [← List.append_assoc (c.walk always)] at hparts
    exact hparts.atop _
  | .forLoop _ init c post body => by
    have hbody := (Expr.visited_toList post).append body.visited
    have hparts := init.visited.append ((Expr.visited_toList c).append hbody)
    rw [← List.append_assoc (Expr.walk? always c), ← List.append_assoc (init.walk always),
      ← List.append_assoc (init.walk always)] at hparts
    exact hparts.atop _
  | .whileLoop _ c body => (c.visited.append body.visited).atop _
  | .doLoop _ body c => (body.visited.append c.visited).atop _
  | .ret _ result => (Expr.visited_toList result).atop _

theorem Stmt.allVisited : ∀ ss : List Stmt, Visited (Stmt.allAtoms ss) (Stmt.walkList always ss)
  | [] => nil
  | s :: ss => s.visited.append (Stmt.allVisited ss)

end

theorem Def.visited : ∀ d : Def, Visited d.atoms (d.walk always)
  | .global g => g.var.visited.atop _
  | .func f => by
    have hparams : Visited (f.params.map fun p => .var p.name)
        (f.params.flatMap (Param.walk always)) := by
      induction f.params with
      | nil => exact nil
      | cons p ps ih => exact (ih.cons rfl).atop _
    exact ((hparams.append ((Stmt.allVisited f.body).atop _)).cons rfl).atop _

theorem Program.visited : ∀ ds : List Def,
    Visited (ds.flatMap Def.atoms) (ds.flatMap (Def.walk always))
  | [] => nil
  | d :: ds => d.visited.append (Program.visited ds)

end

/-- Items that are kept are among those that are read. -/
def Keeps (as : List Atom) (w : List Item) : Prop := as.map Atom.item <+ w

/-- What is visited has been read. -/
theorem Mirrors.keeps {nodes : List Node} {w : List Item} {as : List Atom} (h : Mirrors nodes w)
    (hvisited : Visited as nodes) : Keeps as w := by
  rw [Visited, h.operands [] .nil] at hvisited
  exact (hvisited.trans List.filter_sublist).trans (unannotated_sublist [] w)

theorem Grammar.keeps_expression (n : Nat) :
    Parser.Production (expression n) fun x => Keeps x.atoms :=
  (mirrors_expression n).weaken fun x _ h => h.keeps x.visited

/-- The names and numbers of a parsed text are items of the text, the implicit name apart. -/
theorem Source.keeps_parse {s : Source} {p : Program} (h : s.parse.program = some p) :
    ∃ as, p.atoms = .var ⟨positionName, .implicit⟩ :: as ∧ Keeps as s.scan.items := by
  obtain ⟨ds, hdefs, hmirrors⟩ := Source.mirrors_parse h
  refine ⟨ds.flatMap Def.atoms, ?_, hmirrors.keeps (Program.visited ds)⟩
  rw [Program.atoms, hdefs]
  rfl

/-- No two names or numbers of a parsed text are the same item. -/
theorem Source.nodup_atoms {s : Source} {p : Program} (h : s.parse.program = some p) :
    (p.atoms.map Atom.item).Nodup := by
  obtain ⟨as, has, hkeeps⟩ := Source.keeps_parse h
  rw [has, List.map_cons]
  refine List.nodup_cons.2 ⟨fun hmem => ?_, s.nodup_scan.sublist hkeeps⟩
  have hplaced := (s.proper_scan _ (hkeeps.mem hmem)).placed
  exact absurd hplaced (by decide)

end Shader
