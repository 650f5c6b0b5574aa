import Shader.DataType.Promotion
import Shader.Ir.Emit
import Shader.Lowering.Cause

/-!
# Operands

Lowering walks over a shader and writes code. What it knows of an expression it has walked over is
an operand: a value, a variable, a component of a vector variable, or nothing, for a call that
yields none. A variable is read only when its value is asked for.

A failure ends the walk over a definition, but what has been written and declared until then
stays; a fault leaves nothing.
-/

namespace Shader.Lowering

open Ir

/-- The state of a walk over a definition. -/
structure Body where
  /-- the code that is being written -/
  draft : Draft
  /-- the declarations in scope, with the addresses of the variables -/
  scopes : Scopes DataType Value
  /-- the types of the names that have been resolved, last first -/
  bound : List (Name × DataType) := []

/-- Walking over a definition. -/
abbrev Lower := ExceptT Failure (StateT Body (Except Fault))

theorem get_bind {α : Type} (act : Body → Lower α) (b : Body) :
    (get >>= act : Lower α) b = act b b := rfl

/-- Ends the walk with a failure. -/
def fail {α : Type} (pos : Pos) (cause : Cause) : Lower α := throw ⟨pos, cause⟩

/-- Writes code. -/
def emit {α : Type} (act : Emit α) : Lower α :=
  ExceptT.mk fun b => do
    let (a, draft) ← act b.draft
    return (.ok a, { b with draft })

/-- Puts another cause in the place of every failure. -/
def insteadOf {α : Type} (act : Lower α) (pos : Pos) (cause : Cause) : Lower α :=
  tryCatch act fun _ => fail pos cause

/-- Notes the type of a name. -/
def bindName (n : Name) (t : DataType) : Lower Unit :=
  modify fun b => { b with bound := (n, t) :: b.bound }

/-- Declares a variable in the innermost scope. -/
def declare (n : Name) (type : DataType) (addr : Value) (isConst : Bool) : Lower Unit := do
  let b ← get
  match b.scopes.declare { name := n.text, type, handle := addr, isConst } with
  | .error _ => fail n.pos (.redeclared n.text)
  | .ok scopes =>
    set { b with scopes }
    bindName n type

/-- Walks in a scope of its own, which is closed in any case. -/
def inScope {α : Type} (act : Lower α) : Lower α :=
  ExceptT.mk fun b => do
    let (result, b) ← act.run { b with scopes := b.scopes.enter }
    match b.scopes.exit? with
    | none => throw .outermostScope
    | some scopes => return (result, { b with scopes })

/-- What is known of an expression. -/
inductive Operand where
  /-- it has no value -/
  | nothing (pos : Pos)
  /-- it is a value -/
  | value (pos : Pos) (type : DataType) (v : Value)
  /-- it is the variable at an address, or a column of the variable with the given name -/
  | place (pos : Pos) (type : DataType) (addr : Value) (name : String) (isConst : Bool)
  /-- it is a component of the vector at an address -/
  | lane (pos : Pos) (s : ScalarType) (n : Dim) (addr idx : Value) (name : String) (isConst : Bool)

namespace Operand

/-- Where the expression stands. -/
def pos : Operand → Pos
  | nothing pos => pos
  | value pos _ _ => pos
  | place pos _ _ _ _ => pos
  | lane pos _ _ _ _ _ _ => pos

/-- The type of the expression. -/
def type : Operand → DataType
  | nothing _ => .void
  | value _ type _ => type
  | place _ type _ _ _ => type
  | lane _ s _ _ _ _ _ => .scalar s

/-- The name of a variable and whether it may only be initialized; nothing for what is no
variable. -/
def target? : Operand → Option (String × Bool)
  | nothing _ | value _ _ _ => none
  | place _ _ _ name isConst => some (name, isConst)
  | lane _ _ _ _ _ name isConst => some (name, isConst)

/-- Whether the expression has a value. -/
def hasValue : Operand → Bool
  | nothing _ => false
  | _ => true

end Operand

/-- The value of an operand; a variable is read now. -/
def valueOf : Operand → Lower Value
  | .nothing pos => fail pos .noValue
  | .value _ _ v => return v
  | .place _ type addr _ _ => emit (Emit.load type addr)
  | .lane _ s n addr idx _ _ =>
    emit do Emit.lane (← Emit.load (.vector s n) addr) idx

/-- Keeps a value in a variable. A component is replaced in the vector that is read now. -/
def storeTo (x : Operand) (v : Value) : Lower Unit :=
  match x with
  | .place _ _ addr _ _ => emit (Emit.store v addr)
  | .lane _ s n addr idx _ _ =>
    emit do
      let vec ← Emit.load (.vector s n) addr
      Emit.store (← Emit.setLane vec v idx) addr
  | _ => emit (throw .noLocation)

/-- The value of an operand, converted implicitly to a type. -/
def valueAs (x : Operand) (t : DataType) : Lower Value := do
  let v ← valueOf x
  if x.type = t then return v
  else if x.type.convertible t then emit (Emit.convert v x.type t)
  else fail x.pos (.notConvertible x.type t)

end Shader.Lowering
