import Shader.Lowering.Expr

/-!
# Lowering of statements

The walk over statements. A statement that leaves its block moves the point nowhere; statements
behind it cannot be reached and are not walked over. Every branch and the body of every loop has a
scope of its own.
-/

namespace Shader.Lowering

open Ir

/-- Where `break` and `continue` go. -/
structure Loop where
  /-- the block behind the loop -/
  leave : Label
  /-- the block where the next round starts -/
  next : Label
  deriving DecidableEq, Repr

/-- The declaration of a local variable. Without a value of its own it starts as zero. -/
def varDecl (Γ : Signatures) (d : VarDecl) : Lower Unit := do
  if d.type = .void then fail d.name.pos (.variableType d.type)
  if d.isConst && d.init.isNone then fail d.name.pos (.noInitializer d.name.text)
  let v ←
    match d.init with
    | none => pure (.zero d.type)
    | some x => do initialValue d.type (← expr Γ x)
  let addr ← emit (Emit.alloca d.type d.name.text)
  emit (Emit.store v addr)
  declare d.name d.type addr d.isConst

/-- A condition, as a bit. -/
def condition (Γ : Signatures) (c : Expr) : Lower Value := do
  truthOf .conditionType (← expr Γ c)

/-- What a counting loop does first. -/
def forInit (Γ : Signatures) : ForInit → Lower Unit
  | .nothing => return ()
  | .var d => varDecl Γ d
  | .expr x => discard (expr Γ x)

/-- Goes to a block if the point can be reached, and tells whether it does. -/
def brIfReachable (target : Label) : Lower Bool :=
  emit do
    let here ← Emit.isReachable
    if here then Emit.br target
    return here

/-- Leaves a loop, or ends one of its rounds. -/
def branchTo (pos : Pos) (token : Token) (loop : Option Loop) : Lower Unit :=
  let isBreak : Bool := token = .keyword .break
  match loop with
  | none => fail pos (if isBreak then .strayBreak else .strayContinue)
  | some loop =>
    emit do
      Emit.br (if isBreak then loop.leave else loop.next)
      Emit.setPoint none

/-- A return from a function with a result of a type. -/
def returnFrom (Γ : Signatures) (want : DataType) (pos : Pos) (result : Option Expr) :
    Lower Unit := do
  match result with
  | none =>
    if want ≠ .void then fail pos (.missingResult want)
    emit (Emit.ret none)
  | some x =>
    if want = .void then fail x.pos .unexpectedResult
    let v ← valueAs (← expr Γ x) want
    emit (Emit.ret (some v))
  emit (Emit.setPoint none)

/-- The test of a loop; a loop without a condition goes on. -/
def loopTest (Γ : Signatures) (c : Option Expr) (body leave : Label) : Lower Unit :=
  match c with
  | none => emit (Emit.br body)
  | some c => do
    let bit ← condition Γ c
    emit (Emit.condBr bit body leave)

mutual

/-- Walks over a statement of a function with a result of a type. -/
def stmt (Γ : Signatures) (want : DataType) (loop : Option Loop) : Stmt → Lower Unit
  | .empty _ => return ()
  | .expr x => discard (expr Γ x)
  | .var d => varDecl Γ d
  | .block _ body => inScope (stmts Γ want loop body)
  | .ifThen _ c yes => do
    let bit ← condition Γ c
    let whenTrue ← emit (Emit.newBlock "if.then")
    let done ← emit (Emit.newBlock "if.end")
    emit do
      Emit.condBr bit whenTrue done
      Emit.setPoint (some whenTrue)
    inScope (stmt Γ want loop yes)
    discard (brIfReachable done)
    emit (Emit.setPoint (some done))
  | .ifElse _ c yes no => do
    let bit ← condition Γ c
    let whenTrue ← emit (Emit.newBlock "if.then")
    let whenFalse ← emit (Emit.newBlock "if.else")
    let done ← emit (Emit.newBlock "if.end")
    emit do
      Emit.condBr bit whenTrue whenFalse
      Emit.setPoint (some whenTrue)
    inScope (stmt Γ want loop yes)
    let merged ← brIfReachable done
    emit (Emit.setPoint (some whenFalse))
    inScope (stmt Γ want loop no)
    let merged' ← brIfReachable done
    emit (Emit.setPoint (if merged || merged' then some done else none))
  | .forLoop _ init c post body =>
    inScope do
      forInit Γ init
      let head ← emit (Emit.newBlock "for.cond")
      let round ← emit (Emit.newBlock "for.body")
      let next ← emit (Emit.newBlock "for.inc")
      let leave ← emit (Emit.newBlock "for.end")
      emit do
        Emit.br head
        Emit.setPoint (some head)
      loopTest Γ c round leave
      emit (Emit.setPoint (some round))
      inScope (stmt Γ want (some { leave, next }) body)
      discard (brIfReachable next)
      emit (Emit.setPoint (some next))
      if let some post := post then discard (expr Γ post)
      emit do
        Emit.br head
        Emit.setPoint (some leave)
  | .whileLoop _ c body => do
    let head ← emit (Emit.newBlock "while.cond")
    let round ← emit (Emit.newBlock "while.body")
    let leave ← emit (Emit.newBlock "while.end")
    emit do
      Emit.br head
      Emit.setPoint (some head)
    loopTest Γ (some c) round leave
    emit (Emit.setPoint (some round))
    inScope (stmt Γ want (some { leave, next := head }) body)
    discard (brIfReachable head)
    emit (Emit.setPoint (some leave))
  | .doLoop _ body c => do
    let round ← emit (Emit.newBlock "do.body")
    let test ← emit (Emit.newBlock "do.cond")
    let leave ← emit (Emit.newBlock "do.end")
    emit do
      Emit.br round
      Emit.setPoint (some round)
    inScope (stmt Γ want (some { leave, next := test }) body)
    discard (brIfReachable test)
    emit (Emit.setPoint (some test))
    loopTest Γ (some c) round leave
    emit (Emit.setPoint (some leave))
  | .branch pos token => branchTo pos token loop
  | .ret pos result => returnFrom Γ want pos result

/-- Walks over statements as far as they can be reached. -/
def stmts (Γ : Signatures) (want : DataType) (loop : Option Loop) : List Stmt → Lower Unit
  | [] => return ()
  | s :: ss => do
    if ← emit Emit.isReachable then
      stmt Γ want loop s
      stmts Γ want loop ss

end

end Shader.Lowering
