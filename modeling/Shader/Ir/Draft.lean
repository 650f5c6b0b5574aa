import Shader.Ir

/-!
# Drafts

A draft is a function that is being written and the point where the next instruction goes: the end
of a block, or nowhere. Everything that is written goes through three operations: `append` puts an
instruction at the point, `terminate` ends the block there, and `alloca` puts an instruction behind
the other reservations at the head of the entry, wherever the point is.

A terminator replaces an earlier one, and nothing is written at a block of another function. A
guarded draft refuses both instead, so that a run on a guarded draft that succeeds has never done
either.
-/

namespace Shader.Ir

/-- A function that is being written. -/
structure Draft where
  /-- the function -/
  func : Func
  /-- the block at whose end the next instruction goes -/
  point : Option Label := none
  /-- whether it is a fault to write elsewhere than at the end of an open block -/
  guarded : Bool := false
  deriving DecidableEq, Repr

/-- Whether the function has a block and it has no terminator yet. -/
def Draft.isOpen (d : Draft) (l : Label) : Bool :=
  (d.func.blocks.find? fun b => b.label = l).any fun b => b.term.isNone

/-- Writing code. -/
abbrev Emit := StateT Draft (Except Fault)

namespace Emit

/-- Where the next instruction goes. -/
def point : Emit (Option Label) := return (← get).point

/-- Moves the point. -/
def setPoint (p : Option Label) : Emit Unit := modify fun d => { d with point := p }

/-- Whether there is a point. -/
def isReachable : Emit Bool := return (← get).point.isSome

/-- The block at the point, which must be there and, in a guarded draft, be open. -/
def openPoint : Emit Label := do
  let d ← get
  match d.point with
  | none => throw .noPoint
  | some l => if d.guarded && !d.isOpen l then throw .closedBlock else return l

/-- Puts an instruction at the point. -/
def append (inst : Inst) : Emit Value := do
  match inst.type? with
  | none => throw .operands
  | some type =>
    let l ← openPoint
    let d ← get
    let reg := d.func.regs
    let func := d.func.modifyBlock l fun b => { b with lines := b.lines ++ [{ reg, inst }] }
    set { d with func := { func with regs := reg + 1 } }
    return .result func.id reg "" type

/-- Ends the block at the point. -/
def terminate (term : Term) : Emit Unit := do
  let l ← openPoint
  modify fun d => { d with func := d.func.modifyBlock l fun b => { b with term := some term } }

/-- Makes an open block. -/
def newBlock (hint : String) : Emit Label := do
  let d ← get
  let (l, func) := d.func.addBlock hint
  set { d with func }
  return l

/-- The lines of an entry with another one behind the reservations that have been counted. -/
def insertAlloca (reserved : Nat) (line : Line) (lines : List Line) : List Line :=
  lines.take reserved ++ line :: lines.drop reserved

/-- Reserves room for a value of a type at the head of the entry. -/
def alloca (t : DataType) (hint : String) : Emit Value := do
  let d ← get
  match d.func.blocks with
  | [] => throw .noFunction
  | entry :: blocks =>
    let (name, func) := d.func.claimName hint
    let inst : Inst := .alloca (Ty.ofData t)
    let line : Line := { reg := func.regs, name, inst }
    let entry := { entry with lines := insertAlloca func.reserved line entry.lines }
    let func := { func with blocks := entry :: blocks, reserved := func.reserved + 1 }
    set { d with func := { func with regs := func.regs + 1 } }
    return .result func.id func.regs name (.pointer (Ty.ofData t))

/-- The open blocks of the function. -/
def openBlocks : Emit (List Label) :=
  return ((← get).func.blocks.filter fun b => b.term.isNone).map Block.label

end Emit

end Shader.Ir
