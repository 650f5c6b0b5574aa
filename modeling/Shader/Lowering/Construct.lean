import Shader.Lowering.Operand

/-!
# Constructors and matrix products

A constructor takes the components of its arguments in order, matrices column by column, until the
new value is full. A single number fills every component of a vector, and the diagonal of a
matrix. The products of matrices and vectors are written as sums of scaled columns and as dot
products.
-/

namespace Shader.Lowering

open Ir

namespace Pieces

/-- The matrix with the given columns. -/
def columnwise (n : Dim) (col : Nat → Emit Value) : Emit Value :=
  (List.range n.size).foldlM (fun m i => do Emit.setColumn m (← col i) i)
    (.zero (.matrix n))

/-- The vector with the given components. -/
def pack (s : ScalarType) (n : Dim) (comps : List Value) : Emit Value :=
  comps.zipIdx.foldlM (fun v (c, i) => Emit.setLane v c (.index i)) (.zero (.vector s n))

/-- The components of a vector. -/
def lanes (n : Dim) (v : Value) : Emit (List Value) :=
  (List.range n.size).mapM fun i => Emit.lane v (.index i)

/-- The components of a value, those of a matrix column by column. -/
def scalars (t : DataType) (v : Value) : Emit (List Value) :=
  match t with
  | .void => return []
  | .scalar _ => return [v]
  | .vector _ n => lanes n v
  | .matrix n => do
    let cols ← (List.range n.size).mapM fun i => do lanes n (← Emit.column v i)
    return cols.flatten

/-- The matrix with a number on its diagonal and zeros elsewhere. -/
def diagonal (n : Dim) (s : Value) : Emit Value :=
  columnwise n fun i => Emit.setLane (.zero (.vector .float n)) s (.index i)

/-- The product of a matrix and a vector: the sum of the columns of the matrix, scaled by the
components of the vector. -/
def mulColumns (n : Dim) (m v : Value) : Emit Value := do
  let col : DataType := .vector .float n
  let term (j : Nat) : Emit Value := do
    let s ← Emit.convert (← Emit.lane v (.index j)) .float col
    Emit.binary .mul col (← Emit.column m j) s
  (List.range (n.size - 1)).foldlM (fun acc j => do Emit.binary .add col acc (← term (j + 1)))
    (← term 0)

/-- The sum of the components of a vector of `float`. -/
def sumLanes (n : Dim) (v : Value) : Emit Value := do
  (List.range (n.size - 1)).foldlM
    (fun acc i => do Emit.binary .add .float acc (← Emit.lane v (.index (i + 1))))
    (← Emit.lane v (.index 0))

/-- The product of a vector and a matrix: the dot products of the vector with the columns. -/
def mulRows (n : Dim) (v m : Value) : Emit Value :=
  let vec : DataType := .vector .float n
  (List.range n.size).foldlM (fun out j => do
    let dot ← sumLanes n (← Emit.binary .mul vec v (← Emit.column m j))
    Emit.setLane out dot (.index j)) (.zero vec)

/-- The product of two matrices: its columns are the products with the columns of the second. -/
def mulMatrices (n : Dim) (x y : Value) : Emit Value :=
  columnwise n fun j => do mulColumns n x (← Emit.column y j)

end Pieces

/-! ## Constructors -/

/-- Converts components until `room` of them are there. -/
def takeComponents (room : Nat) (src dst : ScalarType) (comps : List Value) : Emit (List Value) :=
  (comps.take room).mapM fun c => Emit.convert c (.scalar src) (.scalar dst)

/-- The components of arguments behind those that are there already, converted. All arguments must
be needed. -/
def components (t : DataType) (s : ScalarType) (comps : List Value) :
    List Operand → Lower (List Value)
  | [] => return comps
  | x :: xs => do
    if comps.length = t.components then fail x.pos (.surplusArgument t)
    let v ← valueOf x
    let more ← emit do
      let all ← Pieces.scalars x.type v
      takeComponents (t.components - comps.length) (x.type.component?.getD s) s all
    components t s (comps ++ more) xs

/-- The components of arguments, as many as a type has. -/
def allComponents (pos : Pos) (t : DataType) (s : ScalarType) (args : List Operand) :
    Lower (List Value) := do
  let comps ← components t s [] args
  if comps.length < t.components then fail pos (.fewComponents t comps.length t.components)
  return comps

/-- A scalar from the first component of its only argument. -/
def buildScalar (pos : Pos) (s : ScalarType) : List Operand → Lower Value
  | [] => fail pos (.noArguments (.scalar s))
  | [x] => do
    let v ← valueOf x
    match x.type with
    | .matrix n => emit do Emit.convert (← Emit.column v 0) (.vector .float n) (.scalar s)
    | type => emit (Emit.convert v type (.scalar s))
  | _ :: y :: _ => fail y.pos (.surplusArgument (.scalar s))

/-- A vector from the components of its arguments, or from one number. -/
def buildVector (pos : Pos) (s : ScalarType) (n : Dim) (args : List Operand) : Lower Value :=
  let t : DataType := .vector s n
  let packed : Lower Value := do
    let comps ← allComponents pos t s args
    emit (Pieces.pack s n comps)
  match args with
  | [x] => if x.type = t then valueOf x else if x.type.isScalar then valueAs x t else packed
  | _ => packed

/-- A matrix from the components of its arguments, or from the number on its diagonal. -/
def buildMatrix (pos : Pos) (n : Dim) (args : List Operand) : Lower Value :=
  let t : DataType := .matrix n
  let packed : Lower Value := do
    let comps ← allComponents pos t .float args
    emit (Pieces.columnwise n fun i =>
      Pieces.pack .float n ((comps.drop (i * n.size)).take n.size))
  match args with
  | [x] =>
    if x.type = t then valueOf x
    else if x.type.isScalar then do
      let s ← valueAs x .float
      emit (Pieces.diagonal n s)
    else packed
  | _ => packed

/-- The value of a type with the components of the arguments. -/
def build (pos : Pos) (t : DataType) (args : List Operand) : Lower Value := do
  if let some x := args.find? fun x => !x.type.isNumeric then
    fail x.pos (.constructorType x.type t)
  match t with
  | .void => fail pos (.notConstructible .void)
  | .scalar s => buildScalar pos s args
  | .vector s n => buildVector pos s n args
  | .matrix n => buildMatrix pos n args

/-- The first value of a variable: converted implicitly if that is possible and the variable is no
matrix, and otherwise constructed. -/
def initialValue (t : DataType) (x : Operand) : Lower Value :=
  if x.type = t || (x.type.convertible t && !t.isMatrix) then valueAs x t else build x.pos t [x]

end Shader.Lowering
