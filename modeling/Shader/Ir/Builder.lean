import Shader.Ir.Emit
import Shader.Ir.Passes

/-!
# Building modules step by step

A builder holds a module, the function that is current and the point where the next instruction
goes. The point may be in any function: instructions go to the point, while new blocks and
reservations go to the current function. Types are given as value types, so that a type that no
value has can be refused where a type is needed.
-/

namespace Shader.Ir

/-- A module under construction. -/
structure Builder where
  /-- the module -/
  module : Module := {}
  /-- the function that is being written -/
  current : Option FuncId := none
  /-- where the next instruction goes -/
  point : Option Label := none

/-- Steps of building. -/
abbrev Build := StateT Builder (Except Fault)

namespace Build

/-! ## Where code goes -/

/-- Writes at the point. Without a point only what needs none can succeed. -/
def atPoint {α : Type} (act : Emit α) : Build α := do
  let b ← get
  match b.point.bind fun l => b.module.func? l.func with
  | none =>
    let (a, _) ← act.run { func := { id := ⟨"", 0⟩, result := .void, params := [] } }
    return a
  | some func =>
    let (a, d) ← act.run { func, point := b.point }
    set { b with module := b.module.setFunc d.func }
    return a

/-- Writes to the current function. -/
def inCurrent {α : Type} (act : Emit α) : Build α := do
  let b ← get
  match b.current.bind b.module.func? with
  | none => throw .noFunction
  | some func =>
    let (a, d) ← act.run { func }
    set { b with module := b.module.setFunc d.func }
    return a

/-- Writes at the point what needs a type that a value can have. -/
def typed {α : Type} (t : ValueType) (act : DataType → Emit α) : Build α := do
  let t ← dataType t
  atPoint (act t)

/-! ## Functions and global variables -/

/-- A parameter of a function: its name, its type and whether it is passed by its address. -/
abbrev ParamSpec := String × ValueType × Bool

/-- Declares a function. -/
def declareFunc (name : String) (result : ValueType) (params : List ParamSpec) : Build Func := do
  let params ← params.mapM fun (name, t, out) => do
    let t := Ty.ofData (← dataType t)
    return ({ name, type := if out then .pointer t else t } : Formal)
  let result := Ty.ofData (← dataType result)
  let b ← get
  let (f, module) := b.module.declareFunc name result params
  set { b with module }
  return f

/-- Declares a global variable. -/
def declareGlobal (name : String) (t : ValueType) (storage : Storage) (layout : List LayoutEntry) :
    Build Value := do
  let t ← dataType t
  let b ← get
  let (g, module) := b.module.declareGlobal name t storage layout
  set { b with module }
  return g.addr

/-- Makes a function current and moves the point to where writing it goes on. -/
def enter (id : FuncId) : Build Label := do
  let b ← get
  match b.module.func? id with
  | none => throw .noFunction
  | some f =>
    let (l, f) := f.start b.module.numbers
    set { b with module := b.module.setFunc f, current := some id, point := some l }
    return l

/-- Leaves the current function; writing it goes on where the point was. -/
def leave : Build Unit := do
  let b ← get
  match b.point with
  | none => set { b with current := none }
  | some l =>
    match b.current.bind b.module.func? with
    | none => throw .noFunction
    | some f =>
      let module := b.module.setFunc { f with last := some l }
      set { b with module, current := none, point := none }

/-- Moves the point. -/
def setPoint (p : Option Label) : Build Unit := modify fun b => { b with point := p }

/-- Where the next instruction goes. -/
def point : Build (Option Label) := return (← get).point

/-- Makes a block in the current function. -/
def newBlock (hint : String) : Build Label := inCurrent (Emit.newBlock hint)

/-- The open blocks of the current function. -/
def openBlocks : Build (List Label) := inCurrent Emit.openBlocks

/-- Reserves room in the current function. -/
def alloca (t : ValueType) (hint : String) : Build Value := do
  let t ← dataType t
  inCurrent (Emit.alloca t hint)

/-! ## Operations on types -/

/-- The zero of a type. -/
def zero (t : ValueType) : Build Value := return .zero (← dataType t)

/-- An arithmetic operation, given by the number of its operator. What is not a type of the shader
counts as one without components. -/
def binary (code : Nat) (t : ValueType) (x y : Value) : Build Value :=
  match ArithOp.all[code]? with
  | none => throw (.noOperator code)
  | some op => atPoint (Emit.binary op (t.data?.getD .void) x y)

/-- A comparison. What is not a type of the shader counts as one without components. -/
def compare (op : RelOp) (t : ValueType) (x y : Value) : Build Value :=
  atPoint (Emit.compare op (t.data?.getD .void) x y)

/-- A conversion; one from a type to itself needs no type of the shader. -/
def convert (x : Value) (src dst : ValueType) : Build Value :=
  match src, dst with
  | .data src, .data dst => atPoint (Emit.convert x src dst)
  | src, dst => if src = dst then return x else throw (.noConversion src dst)

/-- Takes the blocks that control cannot reach out of a function. -/
def prune (id : FuncId) : Build Unit :=
  modify fun b =>
    match b.module.func? id with
    | none => b
    | some f => { b with module := b.module.prune f }

end Build

end Shader.Ir
