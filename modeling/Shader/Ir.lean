import Shader.Tree
import Shader.Ir.Constant
import Shader.Ir.Ident

/-!
# Code of the target

A module is a list of global variables and of functions; a function is a list of blocks; a block is
a list of instructions and, once it is finished, a terminator that says where control goes next.

Instructions are numbered within their function in the order in which they are written. The number
is what the result of an instruction is referred to by, wherever the instruction comes to stand;
the numbers that are printed are a different matter. A value carries its type, so that the type of
an instruction follows from the instruction alone.
-/

namespace Shader.Ir

/-- A function of a module: its name, and how many functions declared before it have that name. -/
structure FuncId where
  /-- the name -/
  name : String
  /-- the number of earlier functions with the name -/
  copy : Nat := 0
  deriving DecidableEq, Repr

/-- A global variable of a module: its name, and how many variables declared before it have that
name. -/
structure GlobalId where
  /-- the name -/
  name : String
  /-- the number of earlier variables with the name -/
  copy : Nat := 0
  deriving DecidableEq, Repr

/-- A block of a function. -/
structure Label where
  /-- the function -/
  func : FuncId
  /-- the number of the block in the order in which the blocks of the function were made -/
  index : Nat
  /-- the name of the block, empty if it has none -/
  name : String
  deriving DecidableEq, Repr

/-! ## Values -/

/-- Values that an instruction can use. -/
inductive Value where
  /-- a constant -/
  | const (c : Const)
  /-- the address of a global variable that holds a value of the given type -/
  | global (id : GlobalId) (content : Ty)
  /-- a parameter of a function -/
  | param (func : FuncId) (index : Nat) (name : String) (type : Ty)
  /-- the result of an instruction -/
  | result (func : FuncId) (reg : Nat) (name : String) (type : Ty)
  deriving DecidableEq, Repr

namespace Value

/-- The type of a value. -/
def type : Value → Ty
  | const c => c.type
  | global _ content => .pointer content
  | param _ _ _ type => type
  | result _ _ _ type => type

/-- The integer constant. -/
def int (v : Int) : Value := const (.int v)

/-- The number of a component. -/
def index (i : Nat) : Value := int i

/-- The zero of a type of the shader. -/
def zero (t : DataType) : Value := const (.zeroOf t)

@[simp] theorem type_int (v : Int) : (int v).type = .i32 := rfl

@[simp] theorem type_zero (t : DataType) : (zero t).type = Ty.ofData t := Const.type_zeroOf t

end Value

/-! ## Numbers for what has no name -/

/-- What can be printed as a number, if it has no name. -/
inductive Entity where
  /-- a global variable -/
  | global (id : GlobalId)
  /-- a function -/
  | func (id : FuncId)
  /-- a parameter -/
  | param (func : FuncId) (index : Nat)
  /-- a block -/
  | block (l : Label)
  /-- the result of an instruction -/
  | result (func : FuncId) (reg : Nat)
  deriving DecidableEq, Repr

/-- The numbers that have been given. -/
abbrev Numbering := List (Entity × Nat)

namespace Numbering

/-- The number of an entity, zero if it has not been given one. -/
def get (ν : Numbering) (e : Entity) : Nat := (ν.lookup e).getD 0

/-- An entity as it is written behind a sigil or in front of a colon: its name, or its number if the
name is empty. -/
def written (ν : Numbering) (e : Entity) (name : String) : String :=
  if name = "" then toString (ν.get e) else Ident.written name

/-- An entity as it is told without a sigil: its name, or its number if the name is empty. -/
def told (ν : Numbering) (e : Entity) (name : String) : String :=
  if name = "" then toString (ν.get e) else Ident.told name

end Numbering

/-! ## Instructions -/

/-- Operations on two numbers, or on the components of two vectors. -/
inductive Opcode where
  /-- addition of integers -/
  | add
  /-- subtraction of integers -/
  | sub
  /-- multiplication of integers -/
  | mul
  /-- division of unsigned integers -/
  | udiv
  /-- division of signed integers -/
  | sdiv
  /-- remainder of unsigned integers -/
  | urem
  /-- remainder of signed integers -/
  | srem
  /-- shift to the left -/
  | shl
  /-- shift to the right that fills with zeros -/
  | lshr
  /-- shift to the right that fills with the sign -/
  | ashr
  /-- bitwise conjunction -/
  | and
  /-- bitwise disjunction -/
  | or
  /-- bitwise exclusive disjunction -/
  | xor
  /-- addition of floating-point numbers -/
  | fadd
  /-- subtraction of floating-point numbers -/
  | fsub
  /-- multiplication of floating-point numbers -/
  | fmul
  /-- division of floating-point numbers -/
  | fdiv
  /-- remainder of floating-point numbers -/
  | frem
  deriving DecidableEq, Repr

/-- Comparisons of integers. -/
inductive IntPred where
  /-- equal -/
  | eq
  /-- different -/
  | ne
  /-- unsigned less -/
  | ult
  /-- unsigned less or equal -/
  | ule
  /-- unsigned greater -/
  | ugt
  /-- unsigned greater or equal -/
  | uge
  /-- signed less -/
  | slt
  /-- signed less or equal -/
  | sle
  /-- signed greater -/
  | sgt
  /-- signed greater or equal -/
  | sge
  deriving DecidableEq, Repr

/-- Comparisons of floating-point numbers; all but `une` are false if an operand is no number. -/
inductive FloatPred where
  /-- equal -/
  | oeq
  /-- different -/
  | une
  /-- less -/
  | olt
  /-- less or equal -/
  | ole
  /-- greater -/
  | ogt
  /-- greater or equal -/
  | oge
  deriving DecidableEq, Repr

/-- Conversions between types of numbers. -/
inductive CastOp where
  /-- from a bit to an integer -/
  | zext
  /-- from a signed integer to a floating-point number -/
  | sitofp
  /-- from an unsigned integer to a floating-point number -/
  | uitofp
  /-- from a floating-point number to a signed integer -/
  | fptosi
  /-- from a floating-point number to an unsigned integer -/
  | fptoui
  /-- from single to double precision -/
  | fpext
  /-- from double to single precision -/
  | fptrunc
  deriving DecidableEq, Repr

/-- Instructions. -/
inductive Inst where
  /-- room for a value -/
  | alloca (type : Ty)
  /-- the value of a type at an address -/
  | load (type : Ty) (addr : Value)
  /-- keeps a value at an address -/
  | store (v addr : Value)
  /-- the address of an element of the vector or array at an address -/
  | elementAddr (type : Ty) (addr idx : Value)
  /-- an operation on two numbers -/
  | binary (op : Opcode) (x y : Value)
  /-- the number with the other sign -/
  | fneg (x : Value)
  /-- a comparison of integers -/
  | icmp (p : IntPred) (x y : Value)
  /-- a comparison of floating-point numbers -/
  | fcmp (p : FloatPred) (x y : Value)
  /-- a conversion -/
  | cast (op : CastOp) (x : Value) (target : Ty)
  /-- a component of a vector -/
  | extractElement (x idx : Value)
  /-- a vector with a component replaced -/
  | insertElement (x elem idx : Value)
  /-- an element of an array, or of what counts as one -/
  | extractValue (x : Value) (i : Nat)
  /-- an array with an element replaced -/
  | insertValue (x elem : Value) (i : Nat)
  /-- the call of a function -/
  | call (func : FuncId) (result : Ty) (args : List Value)
  /-- the value that belongs to the block from which control came -/
  | phi (type : Ty) (incoming : List (Value × Label))
  deriving DecidableEq, Repr

/-- The type of a comparison of values of a type, if they are integers, addresses or vectors. -/
def Ty.icmp? : Ty → Option Ty
  | i1 | i32 | pointer _ => some i1
  | vector n _ => some (vector n i1)
  | _ => none

/-- The type of a comparison of values of a type, if they are floating-point numbers or vectors. -/
def Ty.fcmp? : Ty → Option Ty
  | float | double => some i1
  | vector n _ => some (vector n i1)
  | _ => none

/-- The type of the elements of an array. An address counts as an array of what is there. -/
def Ty.part? : Ty → Option Ty
  | array _ elem | pointer elem => some elem
  | _ => none

/-- Whether a value can be an index: a constant one must be an integer. -/
def Value.isIndex : Value → Bool
  | const (.float _) | const (.double _) | global _ _ => false
  | _ => true

/-- The number of components of a vector that is no constant; zero for other values. -/
def Value.lanes : Value → Nat
  | const _ => 0
  | v =>
    match v.type with
    | .vector n _ => n
    | _ => 0

/-- The type of an address that is computed from an address and an index: if one of the two is a
vector, it is a vector of addresses. -/
def Ty.addressOf (elem : Ty) (addr idx : Value) : Ty :=
  match addr.type with
  | .vector n _ => .vector n (.pointer elem)
  | _ => if idx.lanes = 0 then .pointer elem else .vector idx.lanes (.pointer elem)

namespace Inst

/-- The type of the result of an instruction, `void` if it has none; nothing if its operands are of
types that it does not take. -/
def type? : Inst → Option Ty
  | alloca type => some (.pointer type)
  | load type _ => some type
  | store v addr => if addr.type = .pointer v.type then some .void else none
  | elementAddr type addr idx =>
    match type with
    | .vector _ elem | .array _ elem => if idx.isIndex then some (elem.addressOf addr idx) else none
    | _ => none
  | binary _ x _ => some x.type
  | fneg x => some x.type
  | icmp _ x _ => x.type.icmp?
  | fcmp _ x _ => x.type.fcmp?
  | cast _ _ target => some target
  | extractElement x _ =>
    match x.type with
    | .vector _ elem => some elem
    | _ => none
  | insertElement x _ _ =>
    match x.type with
    | .vector n elem => some (.vector n elem)
    | _ => none
  | extractValue x _ => x.type.part?
  | insertValue x elem _ => if x.type.part? = some elem.type then some x.type else none
  | call _ result _ => some result
  | phi type _ => some type

/-- Whether an instruction has a result: a store has none, nor has a call that yields no value. -/
def hasResult : Inst → Bool
  | store _ _ => false
  | call _ result _ => result != .void
  | _ => true

/-- Reservations of room. -/
def isAlloca : Inst → Bool
  | alloca _ => true
  | _ => false

/-- The incoming values of a choice. -/
def incoming? : Inst → Option (List (Value × Label))
  | phi _ incoming => some incoming
  | _ => none

end Inst

/-- Terminators. -/
inductive Term where
  /-- leaves the function -/
  | ret (v : Option Value)
  /-- goes to a block -/
  | br (target : Label)
  /-- goes to one of two blocks -/
  | condBr (c : Value) (yes no : Label)
  deriving DecidableEq, Repr

/-- The blocks to which a terminator can go, one for each way. -/
def Term.successors : Term → List Label
  | ret _ => []
  | br target => [target]
  | condBr _ yes no => [yes, no]

/-! ## Functions and modules -/

/-- An instruction at its place, with its number and the name of its result. -/
structure Line where
  /-- the number of the instruction in its function -/
  reg : Nat
  /-- the name of the result, empty if it has none -/
  name : String := ""
  /-- the instruction -/
  inst : Inst
  deriving DecidableEq, Repr

/-- A block. -/
structure Block where
  /-- what the block is referred to by -/
  label : Label
  /-- its instructions -/
  lines : List Line := []
  /-- its terminator, if it is finished -/
  term : Option Term := none
  deriving DecidableEq, Repr

/-- The blocks to which control can go from a block. -/
def Block.successors (b : Block) : List Label := (b.term.map Term.successors).getD []

/-- A parameter of a function. -/
structure Formal where
  /-- its name, empty if it has none -/
  name : String
  /-- its type -/
  type : Ty
  deriving DecidableEq, Repr

/-- A function, with what is needed to go on writing it. -/
structure Func where
  /-- what the function is referred to by -/
  id : FuncId
  /-- the type of its result -/
  result : Ty
  /-- its parameters -/
  params : List Formal
  /-- its blocks, the entry first; none if it is only declared -/
  blocks : List Block := []
  /-- blocks that have been taken out of it -/
  detached : List Block := []
  /-- the number of instructions written -/
  regs : Nat := 0
  /-- the number of blocks made -/
  labels : Nat := 0
  /-- how often each name has been asked for -/
  names : List (String × Nat) := []
  /-- where writing goes on, once it has begun -/
  last : Option Label := none
  /-- how much room has been reserved at the head of the entry -/
  reserved : Nat := 0
  deriving DecidableEq, Repr

/-- A global variable. -/
structure Global where
  /-- what the variable is referred to by -/
  id : GlobalId
  /-- its type -/
  type : DataType
  /-- where its value comes from -/
  storage : Storage
  /-- its layout -/
  layout : List LayoutEntry := []
  deriving DecidableEq, Repr

namespace Func

/-- The type of the function: its result, its parameters, and that it is an address. -/
def typeText (f : Func) : String :=
  f.result.text ++ " (" ++ ", ".intercalate (f.params.map fun p => p.type.text) ++ ")*"

/-- All blocks that were ever made for the function. -/
def allBlocks (f : Func) : List Block := f.blocks ++ f.detached

/-- The block with a label. -/
def block? (f : Func) (l : Label) : Option Block := f.allBlocks.find? fun b => b.label = l

/-- A parameter as a value. -/
def paramValue? (f : Func) (i : Nat) : Option Value :=
  (f.params[i]?).map fun p => .param f.id i p.name p.type

/-- Changes the block with a label. -/
def modifyBlock (f : Func) (l : Label) (g : Block → Block) : Func :=
  let change (b : Block) : Block := if b.label = l then g b else b
  { f with blocks := f.blocks.map change, detached := f.detached.map change }

/-- How often a name has been asked for. -/
def uses (f : Func) (name : String) : Nat := (f.names.lookup name).getD 0

/-- Counts that a name has been asked for. -/
def countName (f : Func) (name : String) : Func :=
  { f with names := (name, f.uses name + 1) :: f.names.filter fun e => e.1 ≠ name }

/-- A local name that has not been given away: the name asked for, or, from the second time on, the
name with a point and the number of times it was asked for before. -/
def claimName (f : Func) (name : String) : String × Func :=
  let n := f.uses name
  (if n = 0 then name else name ++ "." ++ toString n, f.countName name)

/-- Adds an open block to the function. -/
def addBlock (f : Func) (hint : String) : Label × Func :=
  let (name, f) := f.claimName hint
  let label : Label := ⟨f.id, f.labels, name⟩
  (label, { f with blocks := f.blocks ++ [{ label }], labels := f.labels + 1 })

/-- What the parameters of the function are called where names are counted. -/
def paramNames (f : Func) (ν : Numbering) : List String :=
  f.params.zipIdx.map fun (p, i) => ν.told (.param f.id i) p.name

/-- Starts to write the function, or goes on where writing was left. The names of its parameters
are taken from the start. -/
def start (f : Func) (ν : Numbering) : Label × Func :=
  match f.last with
  | some l => (l, f)
  | none =>
    let (entry, f) := ((f.paramNames ν).foldl countName f).addBlock "entry"
    (entry, { f with last := some entry })

end Func

/-- The address of a global variable. -/
def Global.addr (g : Global) : Value := .global g.id (Ty.ofData g.type)

/-- What the next variable with a name is referred to by. -/
def nextGlobal (globals : List Global) (name : String) : GlobalId :=
  ⟨name, (globals.filter fun g => g.id.name = name).length⟩

/-- A module. -/
structure Module where
  /-- the global variables, in the order of their declaration -/
  globals : List Global := []
  /-- the functions, in the order of their declaration -/
  funcs : List Func := []
  /-- the numbers under which entities have been printed -/
  numbers : Numbering := []
  deriving DecidableEq, Repr

namespace Module

/-- The function that an identity refers to. -/
def func? (m : Module) (id : FuncId) : Option Func := m.funcs.find? fun f => f.id = id

/-- Changes a function. -/
def setFunc (m : Module) (f : Func) : Module :=
  { m with funcs := m.funcs.map fun g => if g.id = f.id then f else g }

/-- Declares a function. -/
def declareFunc (m : Module) (name : String) (result : Ty) (params : List Formal) : Func × Module :=
  let copy := (m.funcs.filter fun f => f.id.name = name).length
  let f : Func := { id := ⟨name, copy⟩, result, params }
  (f, { m with funcs := m.funcs ++ [f] })

/-- Declares a global variable. -/
def declareGlobal (m : Module) (name : String) (type : DataType) (storage : Storage)
    (layout : List LayoutEntry) : Global × Module :=
  let g : Global := { id := nextGlobal m.globals name, type, storage, layout }
  (g, { m with globals := m.globals ++ [g] })

end Module

end Shader.Ir
