import Shader.Tree.Typing
import Shader.Lowering.Construct

/-!
# Operations

The operators of a shader on operands. The rules for types are checked before anything is written,
except that an operand whose value is needed is read where its value is used. Operators that
evaluate an operand only sometimes take the walk over that operand instead of the operand.
-/

namespace Shader.Lowering

open Ir

/-! ## Arithmetic -/

/-- An arithmetic operation on operands that are brought to their common type; a matrix goes column
by column. -/
def promotedArith (pos : Pos) (op : ArithOp) (l r : Operand) : Lower Operand :=
  let mismatch : Lower Operand := fail pos (.mismatch op l.type r.type)
  match l.type.promote? r.type with
  | none => mismatch
  | some t =>
    if l.type.convertible t && r.type.convertible t then do
      let lv ← valueAs l t
      let rv ← valueAs r t
      match t with
      | .matrix n =>
        return .value pos t (← emit (Pieces.columnwise n fun i => do
          let lc ← Emit.column lv i
          Emit.binary op (.vector .float n) lc (← Emit.column rv i)))
      | t => return .value pos t (← emit (Emit.binary op t lv rv))
    else mismatch

/-- An arithmetic operation. Products of matrices, and of matrices and vectors, are those of linear
algebra. -/
def arith (pos : Pos) (op : ArithOp) (l r : Operand) : Lower Operand := do
  let floating := l.type.isFloating || r.type.isFloating
  if !l.type.isNumeric || !r.type.isNumeric || (op.isIntegral && floating) then
    fail pos (.binaryType op.sign l.type r.type)
  match op, l.type, r.type with
  | .mul, .matrix m, .matrix n =>
    if m = n then do
      let lv ← valueOf l
      let rv ← valueOf r
      return .value pos (.matrix n) (← emit (Pieces.mulMatrices n lv rv))
    else promotedArith pos op l r
  | .mul, .matrix m, .vector _ n =>
    if m = n then do
      let lv ← valueOf l
      let rv ← valueAs r (.vector .float n)
      return .value pos (.vector .float n) (← emit (Pieces.mulColumns n lv rv))
    else promotedArith pos op l r
  | .mul, .vector _ m, .matrix n =>
    if m = n then do
      let lv ← valueAs l (.vector .float n)
      let rv ← valueOf r
      return .value pos (.vector .float n) (← emit (Pieces.mulRows n lv rv))
    else promotedArith pos op l r
  | op, _, _ => promotedArith pos op l r

/-- An operator between two operands: an arithmetic operation whose result is converted to the type
of the expression. -/
def arithExpr (pos : Pos) (op : ArithOp) (l r : Operand) : Lower Operand := do
  let x ← arith pos op l r
  let t := op.resultType l.type r.type
  let v ← insteadOf (valueAs x t) pos (.resultType op.sign l.type r.type x.type)
  return .value pos t v

/-! ## Comparison and logic -/

/-- A comparison, which yields the integer zero or one. -/
def comparison (pos : Pos) (op : RelOp) (l r : Operand) : Lower Operand :=
  match l.type.promote? r.type with
  | none | some (.matrix _) => fail pos (.incomparable l.type r.type)
  | some t => do
    if t.isVector && (op.isOrdered || l.type.isScalar || r.type.isScalar) then
      fail pos (.binaryType op.sign l.type r.type)
    let lv ← valueAs l t
    let rv ← valueAs r t
    return .value pos .int (← emit do Emit.fromBool (← Emit.compare op t lv rv))

/-- Whether a number is not zero, as a bit. -/
def truthOf (cause : DataType → Cause) (x : Operand) : Lower Value := do
  if !x.type.isScalar then fail x.pos (cause x.type)
  let v ← valueOf x
  emit (Emit.truth x.type v)

/-- The names of the two blocks of a logical operator that may skip its second operand. -/
def logicHint (op : LogicOp) : String := if op = .or then "lor" else "land"

/-- A logical operator, which yields the integer zero or one. All but the exclusive one evaluate
their second operand only if the first does not decide. -/
def logical (pos : Pos) (op : LogicOp) (l : Operand) (rhs : Lower Operand) : Lower Operand := do
  let lc ← truthOf (.logicType op) l
  match op with
  | .xor => do
    let rc ← truthOf (.logicType op) (← rhs)
    return .value pos .int (← emit do Emit.fromBool (← Emit.binary .xor .bool lc rc))
  | op => do
    let source ← emit Emit.openPoint
    let more ← emit (Emit.newBlock (logicHint op ++ ".rhs"))
    let done ← emit (Emit.newBlock (logicHint op ++ ".end"))
    emit (if op = .and then Emit.condBr lc more done else Emit.condBr lc done more)
    emit (Emit.setPoint (some more))
    let rc ← truthOf (.logicType op) (← rhs)
    let last ← emit Emit.openPoint
    emit (Emit.br done)
    emit (Emit.setPoint (some done))
    return .value pos .int (← emit do Emit.fromBool (← Emit.phi [(lc, source), (rc, last)]))

/-! ## Operators on one operand -/

/-- An operator in front of its operand, steps apart. -/
def unary (pos : Pos) (op : UnaryOp) (x : Operand) : Lower Operand := do
  let t := x.type
  let undefined : Lower Operand := fail pos (.unaryType op.sign t)
  if !t.isNumeric then undefined
  else
    match op with
    | .not =>
      if !t.isScalar then undefined
      else do
        let v ← valueOf x
        return .value pos .int (← emit do Emit.fromBool (← Emit.compare .eq t v (.zero t)))
    | .bitNot =>
      if t.isFloating || t.isBoolean then undefined
      else do
        let v ← valueOf x
        return .value pos t (← emit do Emit.binary .xor t v (← Emit.const t minusOne))
    | .neg => do
      let v ← valueOf x
      match t with
      | .matrix n =>
        return .value pos t (← emit (Pieces.columnwise n fun i => do
          Emit.neg (.vector .float n) (← Emit.column v i)))
      | t => return .value pos t (← emit (Emit.neg t v))
    | _ => return .value pos t (← valueOf x)
where
  /-- The number with all bits set. -/
  minusOne : Numeral.Dyadic := ⟨true, 1, 0⟩

/-- A step of an integer variable. Its value is the new one, or the old one if the step stands
behind the variable. -/
def step (pos : Pos) (s : Step) (post : Bool) (text : String) (x : Operand) : Lower Operand := do
  match x.target? with
  | none => fail pos (.stepTarget s text)
  | some (name, isConst) => do
    if isConst then fail pos (.constant name)
    if !x.type.isScalar || !x.type.isInteger then fail pos (.unaryType s.sign x.type)
    let old ← valueOf x
    let new ← emit do Emit.binary s.op x.type old (← Emit.const x.type one)
    storeTo x new
    return .value pos x.type (if post then old else new)
where
  /-- The size of a step. -/
  one : Numeral.Dyadic := ⟨false, 1, 0⟩

/-! ## Assignment -/

/-- The value that an assignment keeps, converted to the type of its target. -/
def assigned (pos : Pos) (op : Option ArithOp) (text : String) (x y : Operand) : Lower Value :=
  match op with
  | none => insteadOf (valueAs y x.type) pos (.assignType y.type text x.type)
  | some op => do
    let z ← arith pos op x y
    insteadOf (valueAs z x.type) pos (.resultType (assignSign (some op)) x.type y.type z.type)

/-- An assignment to a variable; its value is the value that is kept. -/
def assign (pos : Pos) (op : Option ArithOp) (text : String) (x : Operand) (rhs : Lower Operand) :
    Lower Operand :=
  match x.target? with
  | none => fail pos (.notAssignable text)
  | some (name, isConst) => do
    if isConst then fail pos (.constant name)
    let y ← rhs
    let v ← assigned pos op text x y
    storeTo x v
    return .value pos x.type v

/-! ## Choice -/

/-- The value of the first alternative of a choice, if it has one. -/
def alternative? (x : Operand) : Lower (Option Value) :=
  if x.hasValue then some <$> valueOf x else return none

/-- The value of the second alternative, which must go together with the first. -/
def otherwise? (pos : Pos) (first second : Operand) : Lower (Option Value) :=
  let mismatch : Cause := .choiceType first.type second.type
  if first.hasValue then some <$> insteadOf (valueAs second first.type) pos mismatch
  else if second.hasValue then fail pos mismatch
  else return none

/-- A choice between two expressions, of which one is evaluated. -/
def choice (pos : Pos) (c : Value) (yes no : Lower Operand) : Lower Operand := do
  let whenTrue ← emit (Emit.newBlock "cond.true")
  let whenFalse ← emit (Emit.newBlock "cond.false")
  let done ← emit (Emit.newBlock "cond.end")
  emit (Emit.condBr c whenTrue whenFalse)
  emit (Emit.setPoint (some whenTrue))
  let x ← yes
  let xv ← alternative? x
  let xEnd ← emit Emit.openPoint
  emit (Emit.br done)
  emit (Emit.setPoint (some whenFalse))
  let y ← no
  let yv ← otherwise? pos x y
  let yEnd ← emit Emit.openPoint
  emit (Emit.br done)
  emit (Emit.setPoint (some done))
  match xv, yv with
  | some xv, some yv => return .value pos x.type (← emit (Emit.phi [(xv, xEnd), (yv, yEnd)]))
  | _, _ => return .nothing pos

/-! ## Components -/

/-- The value of an index, which must be an integer. -/
def indexValue (pos : Pos) (x : Operand) : Lower Value := do
  if !x.type.isScalar || !x.type.isInteger then fail pos (.indexType x.type)
  valueOf x

/-- A component of a vector: of a variable, it can be assigned to. -/
def select (pos selPos : Pos) (sel : Swizzle) (x : Operand) : Lower Operand :=
  match x.type with
  | .vector s n =>
    if n.size ≤ sel.index then fail selPos (.selectorRange sel x.type)
    else
      match x with
      | .place _ _ addr name isConst =>
        return .lane pos s n addr (.index sel.index) name isConst
      | x => do
        let v ← valueOf x
        return .value pos (.scalar s) (← emit (Emit.lane v (.index sel.index)))
  | t => fail selPos (.selectorType sel t)

end Shader.Lowering
