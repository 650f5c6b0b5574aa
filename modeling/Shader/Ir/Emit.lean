import Shader.Operator
import Shader.Ir.Draft

/-!
# Writing operations

The operations of a shader as instructions of the target. The type of a shader picks the
instruction: an operation on floating-point numbers, on signed or on unsigned integers. Operands
have been converted to that type before.
-/

namespace Shader.Ir.Emit

/-! ## Memory -/

/-- The value of a type at an address. -/
def load (t : DataType) (addr : Value) : Emit Value := append (.load (Ty.ofData t) addr)

/-- Keeps a value at an address. -/
def store (v addr : Value) : Emit Unit := discard (append (.store v addr))

/-- The address of a column of the matrix at an address. -/
def columnAddr (t : DataType) (addr idx : Value) : Emit Value :=
  append (.elementAddr (Ty.ofData t) addr idx)

/-! ## Components -/

/-- A component of a vector. -/
def lane (x idx : Value) : Emit Value := append (.extractElement x idx)

/-- A vector with a component replaced. -/
def setLane (x elem idx : Value) : Emit Value := append (.insertElement x elem idx)

/-- A column of a matrix. -/
def column (x : Value) (i : Nat) : Emit Value := append (.extractValue x i)

/-- A matrix with a column replaced. -/
def setColumn (x col : Value) (i : Nat) : Emit Value := append (.insertValue x col i)

/-- A value of a type with one number in every component of its elements. -/
def splatLanes (t : DataType) (s : Value) : Emit Value :=
  (List.range t.length).foldlM (fun v i => setLane v s (.index i)) (.const (.undef (Ty.ofData t)))

/-- The vector or matrix with one number in every component. -/
def splat (t : DataType) (s : Value) : Emit Value :=
  match t with
  | .matrix n => do
    let col ← splatLanes (.vector .float n) s
    (List.range n.size).foldlM (fun m i => setColumn m col i) (.const (.undef (Ty.ofData t)))
  | t => splatLanes t s

/-- A number as a value of a type, in every component if the type has several. -/
def const (t : DataType) (x : Numeral.Dyadic) : Emit Value :=
  match t with
  | .scalar s => return .const (.ofScalar s x)
  | t => splat t (.const (.ofScalar (t.component?.getD .int) x))

/-! ## Arithmetic -/

/-- The instruction for an arithmetic operator on numbers of a type. -/
def opcode (op : ArithOp) (t : DataType) : Opcode :=
  let pick (floating unsigned signed : Opcode) : Opcode :=
    if t.isFloating then floating else if t.isUnsigned then unsigned else signed
  match op with
  | .add => pick .fadd .add .add
  | .sub => pick .fsub .sub .sub
  | .mul => pick .fmul .mul .mul
  | .div => pick .fdiv .udiv .sdiv
  | .rem => pick .frem .urem .srem
  | .shl => .shl
  | .shr => if t.isUnsigned then .lshr else .ashr
  | .and => .and
  | .or => .or
  | .xor => .xor

/-- An arithmetic operation on numbers or vectors. -/
def binary (op : ArithOp) (t : DataType) (x y : Value) : Emit Value :=
  append (.binary (opcode op t) x y)

/-- The number or vector with the other sign. -/
def neg (t : DataType) (x : Value) : Emit Value :=
  if t.isFloating then append (.fneg x) else append (.binary .sub (.zero t) x)

/-! ## Comparison -/

/-- A comparison of floating-point numbers. -/
def floatPred : RelOp → FloatPred
  | .eq => .oeq
  | .ne => .une
  | .lt => .olt
  | .le => .ole
  | .gt => .ogt
  | .ge => .oge

/-- A comparison of unsigned or signed integers. -/
def intPred (unsigned : Bool) : RelOp → IntPred
  | .eq => .eq
  | .ne => .ne
  | .lt => if unsigned then .ult else .slt
  | .le => if unsigned then .ule else .sle
  | .gt => if unsigned then .ugt else .sgt
  | .ge => if unsigned then .uge else .sge

/-- A comparison of numbers, or of each component of two vectors. -/
def compareLanes (op : RelOp) (t : DataType) (x y : Value) : Emit Value :=
  if t.isFloating then append (.fcmp (floatPred op) x y)
  else append (.icmp (intPred t.isUnsigned op) x y)

/-- A comparison, which yields a bit. Two vectors are equal if all components are, and different if
some component is; there is no other comparison of vectors. -/
def compare (op : RelOp) (t : DataType) (x y : Value) : Emit Value :=
  match t with
  | .vector _ n => do
    if op.isOrdered then throw (.unordered t)
    let lanes ← compareLanes op t x y
    let first ← lane lanes (.index 0)
    (List.range (n.size - 1)).foldlM (fun all i => do
      let next ← lane lanes (.index (i + 1))
      append (.binary (if op = .eq then .and else .or) all next)) first
  | t => compareLanes op t x y

/-- Whether a number is not zero, or some component of a vector, as a bit. -/
def truth (t : DataType) (x : Value) : Emit Value := compare .ne t x (.zero t)

/-- A bit as the integer zero or one. -/
def fromBool (c : Value) : Emit Value := append (.cast .zext c .i32)

/-! ## Conversion -/

/-- Converts numbers, or each component of a vector to that of a vector of the same length. A truth
value is one for every number but zero. -/
def convertLanes (x : Value) (src dst : DataType) (s r : ScalarType) : Emit Value :=
  let cast (op : CastOp) : Emit Value := append (.cast op x (Ty.ofData dst))
  match r with
  | .bool => do
    let c ←
      if s.isFloating then append (.fcmp .une x (.zero src))
      else append (.icmp .ne x (.zero src))
    append (.cast .zext c (Ty.ofData dst))
  | r =>
    if s.isFloating && r.isFloating then
      if s = r then return x else if s = .float then cast .fpext else cast .fptrunc
    else if s.isFloating then cast (if r.isUnsigned then .fptoui else .fptosi)
    else if r.isFloating then cast (if s.isUnsigned then .uitofp else .sitofp)
    else return x

/-- Converts a value: between numbers, from a number to all components, between vectors of one
length, and from the first component of a vector to a number. -/
def convert (x : Value) (src dst : DataType) : Emit Value :=
  if src = dst then return x
  else
    match src, dst with
    | .scalar s, .scalar r => convertLanes x src dst s r
    | .scalar s, .vector r _ => do splat dst (← convertLanes x src (.scalar r) s r)
    | .scalar s, .matrix _ => do splat dst (← convertLanes x src .float s .float)
    | .vector s m, .vector r n =>
      if m = n then convertLanes x src dst s r else throw (.noConversion src dst)
    | .vector s _, .scalar r => do convertLanes (← lane x (.index 0)) (.scalar s) dst s r
    | _, _ => throw (.noConversion src dst)

/-! ## Control -/

/-- Calls a function. -/
def call (func : FuncId) (result : Ty) (args : List Value) : Emit Value :=
  append (.call func result args)

/-- The value that belongs to the block from which control came. -/
def phi (incoming : List (Value × Label)) : Emit Value :=
  match incoming with
  | [] => throw .noIncoming
  | (v, _) :: _ => append (.phi v.type incoming)

/-- Goes to a block. -/
def br (target : Label) : Emit Unit := terminate (.br target)

/-- Goes to one of two blocks. -/
def condBr (c : Value) (yes no : Label) : Emit Unit := terminate (.condBr c yes no)

/-- Leaves the function. -/
def ret (v : Option Value) : Emit Unit := terminate (.ret v)

end Shader.Ir.Emit
