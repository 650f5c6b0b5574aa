import Shader.Lowering.Literal
import Shader.Lowering.Operation

/-!
# Lowering of expressions

The walk over expressions. A function of the shader is known by its signature alone, so the code of
a body depends on other functions only through their signatures.
-/

namespace Shader.Lowering

open Ir

/-- How a parameter is passed. -/
structure Passing where
  /-- the type of the parameter -/
  type : DataType
  /-- whether the function writes to the variable of the caller -/
  isOut : Bool
  deriving DecidableEq, Repr

/-- What a call needs to know of a function. -/
structure Signature where
  /-- the name -/
  name : String
  /-- the type of the result -/
  result : DataType
  /-- the parameters -/
  params : List Passing
  deriving DecidableEq, Repr

/-- The functions that can be called, by their names. -/
abbrev Signatures := String → Option Signature

/-- The declaration that a name refers to; its type is noted. -/
def resolve (n : Name) : Lower (Symbol DataType Value) := do
  match (← get).scopes.lookup? n.text with
  | none => fail n.pos (.undeclared n.text)
  | some sym =>
    bindName n sym.type
    return sym

/-- The value of an argument. A parameter that the function writes to takes the address of a
variable of its type. -/
def argument (func : String) (p : Passing) (pos : Pos) (text : String) (x : Operand) :
    Lower Value :=
  if p.isOut then
    let bad : Lower Value := fail pos (.outArgument text func p.type)
    match x with
    | .place _ type addr _ isConst => if type = p.type && !isConst then return addr else bad
    | _ => bad
  else insteadOf (valueAs x p.type) pos (.argumentType text x.type p.type func)

/-- The call of a function with values. -/
def callResult (pos : Pos) (sig : Signature) (args : List Value) : Lower Operand := do
  let v ← emit (Emit.call ⟨sig.name, 0⟩ (Ty.ofData sig.result) args)
  return if sig.result = .void then .nothing pos else .value pos sig.result v

/-- An element of a variable: a component of a vector, or a column of a matrix. -/
def element (base : Name) (sym : Symbol DataType Value) (index : Lower Value) : Lower Operand :=
  match sym.type with
  | .vector s n => do
    let idx ← index
    return .lane base.pos s n sym.handle idx base.text sym.isConst
  | .matrix n => do
    let idx ← index
    let addr ← emit (Emit.columnAddr sym.type sym.handle idx)
    return .place base.pos (.vector .float n) addr base.text sym.isConst
  | t => fail base.pos (.notIndexable base.text t)

mutual

/-- Walks over an expression. -/
def expr (Γ : Signatures) : Expr → Lower Operand
  | .name n => do
    let sym ← resolve n
    return .place n.pos sym.type sym.handle n.text sym.isConst
  | .number pos kind text =>
    match literal kind text with
    | .error cause => fail pos cause
    | .ok v => return .value pos (.scalar kind.type) v
  | .bool pos b => return .value pos .bool (.int (if b then 1 else 0))
  | .call fn args =>
    match Γ fn.text with
    | none => fail fn.pos (.undefined fn.text)
    | some sig => do
      bindName fn sig.result
      if args.length ≠ sig.params.length then
        fail fn.pos (.argumentCount fn.text args.length sig.params.length)
      callResult fn.pos sig (← arguments Γ fn.text args sig.params)
  | .construct pos type args => do
    if type = .void then fail pos (.notConstructible type)
    if args.isEmpty then fail pos (.noArguments type)
    let xs ← exprs Γ args
    return .value pos type (← build pos type xs)
  | .index base i => do
    let sym ← resolve base
    element base sym do indexValue i.pos (← expr Γ i)
  | .member x sel selPos => do select x.pos selPos sel (← expr Γ x)
  | .unary pos op x => do
    let operand ← expr Γ x
    match op with
    | .step s => step pos s false x.render operand
    | op => unary pos op operand
  | .postStep s x => do step x.pos s true x.render (← expr Γ x)
  | .binary op x y => do
    let l ← expr Γ x
    match op with
    | .arith op => arithExpr x.pos op l (← expr Γ y)
    | .rel op => comparison x.pos op l (← expr Γ y)
    | .logic op => logical x.pos op l (expr Γ y)
  | .assign op x y => do assign x.pos op x.render (← expr Γ x) (expr Γ y)
  | .cond c x y => do
    let bit ← truthOf .conditionType (← expr Γ c)
    choice c.pos bit (expr Γ x) (expr Γ y)
  | .seq first rest => do sequence Γ (← expr Γ first) rest

/-- Walks over expressions. -/
def exprs (Γ : Signatures) : List Expr → Lower (List Operand)
  | [] => return []
  | x :: xs => do
    let operand ← expr Γ x
    return operand :: (← exprs Γ xs)

/-- Walks over the arguments of a call. -/
def arguments (Γ : Signatures) (func : String) : List Expr → List Passing → Lower (List Value)
  | x :: xs, p :: ps => do
    let v ← argument func p x.pos x.render (← expr Γ x)
    return v :: (← arguments Γ func xs ps)
  | _, _ => return []

/-- Walks over expressions one after another; the last of them counts. -/
def sequence (Γ : Signatures) (before : Operand) : List Expr → Lower Operand
  | [] => return before
  | x :: xs => do sequence Γ (← expr Γ x) xs

end

end Shader.Lowering
