import Shader.Proofs.Grammar.Reading

/-!
# How parsers are put together

All parsers of the grammar are put together from a few primitive ones. None of these looks at the
reports that are there; the only one that makes a report puts it behind the others. So what a parser
does is the same whatever has been reported before, and that stays in front.
-/

namespace Shader

namespace Parser

/-- Parsers that are put together from the primitive ones. -/
inductive Built : {α : Type} → Parser α → Prop
  | pure {α : Type} {x : α} : Built (Pure.pure x : Parser α)
  | fail {α : Type} : Built (fail : Parser α)
  | bind {α β : Type} {p : Parser α} {f : α → Parser β} (hp : Built p) (hf : ∀ x, Built (f x)) :
    Built (p >>= f)
  | orElse {α : Type} {p q : Parser α} (hp : Built p) (hq : Built q) : Built (p <|> q)
  | orReset {α : Type} {p : Parser α} {m : Int} (hp : Built p) : Built (orReset m p)
  | mark_item : Built mark
  | peek_item {offset : Int} : Built (peek offset)
  | advance_item : Built advance
  | stuck {α : Type} : Built (Grammar.stuck : Parser α)

/-! ## Reports that are there already -/

/-- Reports in front of the others. -/
def reported (reports : List Report) (s : Parsing) : Parsing :=
  { s with reports := reports ++ s.reports }

/-- What has been reported before makes no difference. -/
theorem Built.reported {α : Type} {p : Parser α} (h : Built p) (reports : List Report) :
    ∀ s : Parsing, p (reported reports s) = ((p s).1, Parser.reported reports (p s).2) := by
  induction h with
  | pure => exact fun _ => rfl
  | fail => exact fun _ => rfl
  | mark_item => exact fun _ => rfl
  | peek_item => exact fun _ => rfl
  | @bind _ _ p f _ _ ihp ihf =>
    intro s
    rw [bind_run, bind_run, ihp]
    rcases p s with ⟨_ | x, s'⟩
    · rfl
    · exact ihf x s'
  | @orElse _ p q _ _ ihp ihq =>
    intro s
    rw [orElse_run, orElse_run, ihp]
    rcases p s with ⟨_ | x, s'⟩
    · exact ihq s'
    · rfl
  | @orReset _ p m _ ihp =>
    intro s
    rw [orReset_run, orReset_run, ihp]
    rcases p s with ⟨_ | x, s'⟩
    · rfl
    · rfl
  | advance_item =>
    intro s
    rw [advance, advance]
    rcases hnext : s.stream.next? with _ | ⟨i, stream⟩
    · simp only [Parser.reported, hnext]
    · simp only [Parser.reported, hnext]
      rfl
  | stuck =>
    intro s
    simp only [Grammar.stuck, Parser.reported, List.append_assoc]

namespace Built

/-! ## Composition -/

variable {α β : Type} {p : Parser α} {f : α → Parser β}

/-- The result of a parser may be changed. -/
theorem map {g : α → β} (h : Built p) : Built (p >>= fun x => Pure.pure (g x)) :=
  h.bind fun _ => .pure

/-- A parser may go on from where it is. -/
theorem mark {f : Int → Parser β} (h : ∀ m, Built (f m)) : Built (mark >>= f) := mark_item.bind h

/-- A parser may depend on the item at the cursor. -/
theorem current {f : Item → Parser β} (h : ∀ i, Built (f i)) : Built (current >>= f) :=
  peek_item.bind h

/-- The token at the cursor is read off its item. -/
theorem token_item : Built token := .current fun _ => .pure

theorem token {f : Token → Parser β} (h : ∀ t, Built (f t)) : Built (token >>= f) :=
  token_item.bind h

theorem pos {f : Pos → Parser β} (h : ∀ pos, Built (f pos)) : Built (pos >>= f) :=
  Built.bind (.current fun _ => .pure) h

/-- A parser may go past the item at the cursor. -/
theorem advance {f : Unit → Parser β} (h : Built (f ())) : Built (advance >>= f) :=
  advance_item.bind fun _ => h

/-- What follows an optional token is put together, whether the token is there or not. -/
theorem accepted {u : Token} {f : Bool → Parser β} (h : ∀ b, Built (f b)) :
    Built (accept u >>= f) := by
  have haccept : Built (Parser.accept u) := by
    refine .token fun v => ?_
    split
    · exact .advance .pure
    · exact .pure
  exact haccept.bind h

/-- The two ways on from an optional token are put together one by one. -/
theorem accept {u : Token} {yes no : Parser β} (hyes : Built yes) (hno : Built no) :
    Built (accept u >>= fun b => if b = true then yes else no) :=
  accepted fun b => by cases b <;> assumption

/-- What follows a token that has to be there is put together. -/
theorem expect {u : Token} {f : Unit → Parser β} (h : Built (f ())) : Built (expect u >>= f) :=
  Built.bind (.accept .pure .fail) fun _ => h

/-- A name is the item at the cursor, or nothing. -/
theorem name_item : Built name := by
  refine .current fun i => ?_
  split
  · exact .advance .pure
  · exact .fail

theorem typeName_item : Built typeName := by
  refine .token fun t => ?_
  split
  · exact .advance .pure
  · exact .fail

/-- A list is put together from its elements; its bound is what the induction is on. -/
theorem commaList (h : Built p) : ∀ n, Built (commaList p n)
  | 0 => .fail
  | n + 1 => h.bind fun _ => .accept (commaList h n).map .pure

end Built

end Parser

namespace Grammar

open Shader.Parser

/-! ## Expressions -/

section Expressions

variable {a : Parser Expr} (h : Built a) (n : Nat)
include h

/-- Expressions between commas, from a parser of one of them. -/
theorem built_expressionOf : Built (expressionOf a n) :=
  .mark fun _ => h.bind fun _ => .orReset (.accept (h.commaList n).map .pure)

theorem built_argsOf : Built (argsOf a n) :=
  .mark fun _ => .accept .pure (.orReset ((h.commaList n).bind fun _ => .expect .pure))

/-- A name, with what may stand behind it: arguments, an index, or nothing. -/
theorem built_named : Built (named a n) := by
  refine Built.name_item.bind fun x => .token fun t => ?_
  split
  · exact .advance (built_argsOf h n).map
  · exact .advance ((built_expressionOf h n).bind fun _ => .expect .pure)
  · exact .pure

theorem built_construction : Built (construction a n) :=
  .pos fun _ => Built.typeName_item.bind fun _ => .expect (built_argsOf h n).map

theorem built_enclosed : Built (enclosed a n) :=
  .expect ((built_expressionOf h n).bind fun _ => .expect .pure)

/-- Each token that an operand may start with leads to a parser of its own. -/
theorem built_primaryOf : Built (primaryOf a n) := by
  refine .mark fun m => .current fun i => ?_
  split
  next => exact (built_named h n).orReset
  next => exact (built_construction h n).orReset
  next => exact .advance .pure
  next => exact .advance .pure
  next => exact .advance .pure
  next => exact (built_enclosed h n).orReset
  next => exact .fail

omit h in
/-- Selections go on from the operand that they select from, which is handed along and not parsed
again. -/
theorem built_selections : ∀ (n : Nat) (x : Expr), Built (selections x n)
  | 0, _ => .fail
  | n + 1, x => by
    refine .token fun t => ?_
    split
    next => exact .advance .pure
    next =>
      refine .advance (Built.name_item.bind fun sel => ?_)
      split
      next => exact built_selections n _
      next => exact .fail
    next => exact .pure

theorem built_selectionOf : Built (selectionOf a n) :=
  .mark fun _ => h.bind fun x => (built_selections n x).orReset

/-- Signs in front of an operand, of which there are at most as many as the bound says. -/
theorem built_unaryOf : ∀ n, Built (unaryOf a n)
  | 0 => .fail
  | n + 1 => by
    refine .current fun i => ?_
    split
    next => exact .mark fun _ => .orReset (.advance (built_unaryOf n).map)
    next => exact h

/-- Operators of one level, with the operands behind them. -/
theorem built_chain {level : Nat} : ∀ (n : Nat) (x : Expr), Built (chain level a x n)
  | 0, _ => .fail
  | n + 1, x => by
    refine .token fun t => ?_
    split
    next => exact .advance (h.bind fun y => built_chain n _)
    next => exact .pure

/-- The levels are put on top of each other, each over chains of the one below. -/
theorem built_binaryOf : ∀ levels, Built (binaryOf a n levels)
  | 0 => h
  | levels + 1 =>
    .mark fun _ => (built_binaryOf levels).bind fun x =>
      (built_chain (built_binaryOf levels) n x).orReset

theorem built_conditionalOf {p : Parser Expr} (hp : Built p) : Built (conditionalOf p a n) :=
  .mark fun _ => hp.bind fun _ => .orReset <| .accept
    ((built_expressionOf h n).bind fun _ => .expect h.map) .pure

end Expressions

/-- All levels of an expression, from the one for a smaller bound: parentheses, arguments and the
right sides of assignments contain expressions again. -/
theorem built_assignment : ∀ n, Built (assignment n)
  | 0 => .fail
  | n + 1 => by
    have ih := built_assignment n
    have hunary := built_unaryOf (built_selectionOf (built_primaryOf ih n) n) n
    have hbinary := built_binaryOf hunary n topLevel
    refine .mark fun _ => (built_conditionalOf ih n hbinary).bind fun x => .orReset ?_
    refine .token fun t => ?_
    split
    next => exact .advance ih.map
    next => exact .pure

section

variable (n : Nat)

theorem built_expression : Built (expression n) := built_expressionOf (built_assignment n) n

/-! ## Statements -/

/-- A declaration without its end. -/
theorem built_varSpec : Built (varSpec n) := by
  refine .mark fun _ => .pos fun _ => .orReset (.accepted fun _ => ?_)
  refine Built.typeName_item.bind fun _ => Built.name_item.bind fun _ => ?_
  exact .accept (built_assignment n).map .pure

theorem built_varDecl : Built (varDecl n) :=
  .mark fun _ => (built_varSpec n).bind fun _ => .orReset (.expect .pure)

theorem built_test : Built (test n) :=
  .expect ((built_expression n).bind fun _ => .expect .pure)

/-- A clause of a loop, or nothing in front of the token that ends it. -/
theorem built_optional (t : Token) : Built (optional n t) := by
  refine .token fun u => ?_
  split
  · exact .pure
  · exact (built_expression n).map

theorem built_exprStmt : Built (exprStmt n) :=
  .mark fun _ => (built_expression n).bind fun _ => .orReset (.expect .pure)

theorem built_branchStmt : Built branchStmt :=
  .mark fun _ => .current fun _ => .orReset (.advance (.expect .pure))

theorem built_returnStmt : Built (returnStmt n) :=
  .mark fun _ => .pos fun _ => .expect <| .orReset <| .accept .pure
    ((built_expression n).bind fun _ => .expect .pure)

/-- A loop starts with nothing, with a declaration, or with an expression, which is tried last. -/
theorem built_forInit : Built (forInit n) := by
  refine .token fun t => ?_
  split
  · exact .pure
  · exact .orElse (built_varSpec n).map (built_expression n).map

/-- What starts with no keyword is a declaration if it can be one, and an expression otherwise. -/
theorem built_simpleStmt : Built (simpleStmt n) :=
  .orElse (built_varDecl n).map (built_exprStmt n)

end

section Statements

variable {p : Parser Stmt} (h : Built p)
include h

/-- Statements up to a closing brace. -/
theorem built_stmtsOf : ∀ n, Built (stmtsOf p n)
  | 0 => .fail
  | n + 1 => .accept .pure (h.bind fun _ => (built_stmtsOf n).map)

variable (n : Nat)

theorem built_blockOf : Built (blockOf p n) :=
  .mark fun _ => .pos fun _ => .expect (.orReset (built_stmtsOf h n).map)

theorem built_ifStmtOf : Built (ifStmtOf p n) :=
  .mark fun _ => .pos fun _ => .orReset <| .expect <| (built_test n).bind fun _ =>
    h.bind fun _ => .accept h.map .pure

theorem built_forStmtOf : Built (forStmtOf p n) :=
  .mark fun _ => .pos fun _ => .orReset <| .expect <| .expect <| (built_forInit n).bind fun _ =>
    .expect <| (built_optional n _).bind fun _ => .expect <| (built_optional n _).bind fun _ =>
    .expect h.map

theorem built_whileStmtOf : Built (whileStmtOf p n) :=
  .mark fun _ => .pos fun _ => .orReset <| .expect <| (built_test n).bind fun _ => h.map

theorem built_doStmtOf : Built (doStmtOf p n) :=
  .mark fun _ => .pos fun _ => .expect <| .orReset <| h.bind fun _ => .expect <|
    (built_test n).bind fun _ => .expect .pure

/-- The first token decides on the kind of a statement. -/
theorem built_stmtOf : Built (stmtOf p n) := by
  refine .current fun i => ?_
  split
  next => exact (built_blockOf h n).map
  next => exact .advance .pure
  next => exact built_ifStmtOf h n
  next => exact built_forStmtOf h n
  next => exact built_whileStmtOf h n
  next => exact built_doStmtOf h n
  next => exact built_branchStmt
  next => exact built_branchStmt
  next => exact built_returnStmt n
  next => exact built_simpleStmt n

end Statements

/-- All statements, from those for a smaller bound. -/
theorem built_stmt : ∀ n, Built (stmt n)
  | 0 => .fail
  | n + 1 => built_stmtOf (built_stmt n) n

/-! ## Definitions -/

/-- A value in a layout is a whole number that fits. -/
theorem built_intLit : Built intLit := by
  refine .current fun i => ?_
  split
  · dsimp only
    split
    · exact .advance .pure
    · exact .fail
  · exact .fail

/-- A layout identifier and its value. -/
theorem built_layoutEntry : Built layoutEntry := by
  refine .current fun key => ?_
  split
  · exact .advance (.expect built_intLit.map)
  · exact .advance (.expect built_intLit.map)
  · exact .fail

theorem built_layout (n : Nat) : Built (layout n) :=
  .mark fun _ => .orReset <| .expect <| .expect <|
    (built_layoutEntry.commaList n).bind fun _ => .expect .pure

/-- A parameter with or without a storage in front of its type. -/
theorem built_param : Built param := by
  have hrest : ∀ (pos : Pos) (storage : Storage), Built (do
      let type ← typeName
      let name ← name
      return ({ pos, storage, type, name } : Param)) :=
    fun _ _ => Built.typeName_item.bind fun _ => Built.name_item.map
  refine .mark fun _ => .current fun i => .orReset ?_
  dsimp only
  split
  · exact .advance (hrest _ _)
  · exact .advance (hrest _ _)
  · exact hrest _ _

/-- Parameters, none, or `void` alone, which only the token behind it tells from a type. -/
theorem built_paramList (n : Nat) : Built (paramList n) := by
  refine .mark fun m => .accept .pure (.token fun u => Built.peek_item.bind fun i => ?_)
  split
  · exact .advance (.advance .pure)
  · exact .orReset ((built_param.commaList _).bind fun _ => .expect .pure)

theorem built_funcDecl (n : Nat) : Built (funcDecl n) :=
  .mark fun _ => .pos fun _ => Built.typeName_item.bind fun _ => .orReset <|
    Built.name_item.bind fun _ => .expect <| (built_paramList n).bind fun _ =>
    (built_blockOf (built_stmt _) _).bind fun _ => .pure

/-- A storage, or none. -/
theorem built_storage : Built storage := by
  refine .token fun t => ?_
  split
  · exact .advance .pure
  · exact .advance .pure
  · exact .advance .pure
  · exact .pure

/-- A variable with an optional layout and an optional storage. -/
theorem built_globalVar (n : Nat) : Built (globalVar n) := by
  refine .mark fun _ => .pos fun _ => .orReset (.token fun t => ?_)
  dsimp only
  split
  · exact (built_layout n).bind fun _ => built_storage.bind fun _ => (built_varDecl n).map
  · exact built_storage.bind fun _ => (built_varDecl n).map

/-- A definition is that of a function if it can be one, and that of a variable otherwise. -/
theorem built_definition (n : Nat) : Built (definition n) :=
  .orElse (built_funcDecl n).map (built_globalVar n).map

/-! ## Shaders -/

/-- A definition that cannot be parsed is reported; this is the one place behind the version where
reports are made. -/
theorem built_definitions (n : Nat) : ∀ l, Built (definitions n l)
  | 0 => .fail
  | l + 1 => by
    refine .token fun t => ?_
    split
    · exact .pure
    · have hdefinition : Built (definition n <|> stuck) :=
        .orElse (built_definition n) .stuck
      exact hdefinition.bind fun _ => (built_definitions n l).map

/-- A version that is not followed by its number is reported. -/
theorem built_version : Built version := by
  refine .accept (.current fun i => ?_) .pure
  split
  · exact .advance .pure
  · exact .stuck

/-- The parser of a whole shader is put together from the primitive ones. -/
theorem built_program (n : Nat) : Built (program n) :=
  .pos fun _ => built_version.bind fun _ => (built_definitions n _).map

end Grammar

end Shader
