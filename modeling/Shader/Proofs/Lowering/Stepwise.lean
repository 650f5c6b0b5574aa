import Shader.Lowering.Program

/-!
# Properties of walks that are shown step by step

A walk over an expression is composed of few operations: it puts instructions at the point, notes
types of names and fails; only operators that evaluate an operand sometimes make blocks and move the
point. What holds of these operations and is kept when they are composed holds of every walk over an
expression, and `Stepwise` collects what has to be shown for it.
-/

namespace Shader.Ir

variable {α β : Type}

/-! ## Writing -/

/-- Writing is composed of instructions of a kind, which are put at the point. -/
inductive Composed (P : Inst → Prop) : {α : Type} → Emit α → Prop where
  /-- nothing is written -/
  | pure {α : Type} {a : α} : Composed P (Pure.pure a : Emit α)
  /-- it ends with a fault -/
  | throw {α : Type} {e : Fault} : Composed P (MonadExcept.throw e : Emit α)
  /-- an instruction is put at the point -/
  | append {inst : Inst} (h : P inst) : Composed P (Emit.append inst)
  /-- it goes on -/
  | bind {α β : Type} {act : Emit α} {f : α → Emit β} (h : Composed P act)
    (hf : ∀ a, Composed P (f a)) : Composed P (act >>= f)

/-- Instructions of other kinds may be written as well. -/
theorem Composed.mono {P Q : Inst → Prop} (hPQ : ∀ inst, P inst → Q inst) {act : Emit α}
    (h : Composed P act) : Composed Q act := by
  induction h with
  | pure => exact .pure
  | throw => exact .throw
  | append h => exact .append (hPQ _ h)
  | bind _ _ ih ihf => exact .bind ih ihf

/-- A relation between drafts that instructions of a kind keep. -/
structure Keeping (P : Inst → Prop) (R : Draft → Draft → Prop) : Prop where
  /-- nothing needs to be written -/
  refl : ∀ d, R d d
  /-- it goes on -/
  trans : ∀ {d d' d''}, R d d' → R d' d'' → R d d''
  /-- it holds of an instruction -/
  append : ∀ {inst d v d'}, P inst → Emit.append inst d = .ok (v, d') → R d d'

/-- What instructions keep is kept by writing that is composed of them. -/
theorem Composed.keeps {P : Inst → Prop} {R : Draft → Draft → Prop} {act : Emit α}
    (h : Composed P act) (hR : Keeping P R) : ∀ {d a d'}, act d = .ok (a, d') → R d d' := by
  induction h with
  | pure =>
    rintro d _ _ ⟨⟩
    exact hR.refl d
  | throw =>
    rintro d a d' ⟨⟩
  | append h => exact hR.append h
  | @bind _ _ act f _ _ ih ihf =>
    intro d b d'' hrun
    change Except.bind (act d) _ = _ at hrun
    rcases hact : act d with e | ⟨a, d'⟩
    · rw [hact] at hrun
      cases hrun
    · rw [hact] at hrun
      exact hR.trans (ih hact) (ihf a hrun)

/-- Writing does nothing but put instructions at the point. -/
def Appends (act : Emit α) : Prop := Composed (fun _ => True) act

/-- The instruction computes a value: it reserves no room, keeps nothing in memory and calls no
function. -/
def Inst.computes : Inst → Bool
  | .alloca _ | .store _ _ | .call _ _ _ => false
  | _ => true

/-- Writing does nothing but put instructions at the point that compute values. -/
def Evaluates (act : Emit α) : Prop := Composed (fun inst => inst.computes = true) act

namespace Appends

theorem append {inst : Inst} : Appends (Emit.append inst) := Composed.append trivial

theorem pure {a : α} : Appends (Pure.pure a) := Composed.pure

theorem throw {e : Fault} : Appends (MonadExcept.throw e : Emit α) := Composed.throw

theorem bind {act : Emit α} {f : α → Emit β} (h : Appends act) (hf : ∀ a, Appends (f a)) :
    Appends (act >>= f) := Composed.bind h hf

/-- Keeping a value in memory is one instruction, whose result nobody needs. -/
theorem store {v addr : Value} : Appends (Emit.store v addr) := bind append fun _ => pure

end Appends

namespace Evaluates

/-- Instructions that compute values are instructions. -/
theorem appends {act : Emit α} (h : Evaluates act) : Appends act :=
  Composed.mono (fun _ _ => trivial) h

theorem append {inst : Inst} (h : inst.computes = true) : Evaluates (Emit.append inst) :=
  Composed.append h

theorem pure {a : α} : Evaluates (Pure.pure a) := Composed.pure

theorem throw {e : Fault} : Evaluates (MonadExcept.throw e : Emit α) := Composed.throw

theorem bind {act : Emit α} {f : α → Emit β} (h : Evaluates act) (hf : ∀ a, Evaluates (f a)) :
    Evaluates (act >>= f) := Composed.bind h hf

/-- Writing may go on element by element, with what has been computed so far. -/
theorem foldlM {f : β → α → Emit β} (h : ∀ b a, Evaluates (f b a)) :
    ∀ {l : List α} {b : β}, Evaluates (l.foldlM f b)
  | [], _ => pure
  | a :: l, b => by
    rw [List.foldlM_cons]
    exact bind (h b a) fun _ => foldlM h

/-- Writing may treat the elements of a list one by one. -/
theorem mapM {f : α → Emit β} (h : ∀ a, Evaluates (f a)) : ∀ {l : List α}, Evaluates (l.mapM f)
  | [] => by
    rw [List.mapM_nil]
    exact pure
  | a :: l => by
    rw [List.mapM_cons]
    exact bind (h a) fun _ => bind (mapM h) fun _ => pure

/-! ### Operations -/

section

variable {t : DataType} {v x y : Value}

/-- A number is put into all components, those of a matrix column by column. -/
theorem splat : Evaluates (Emit.splat t v) := by
  cases t with
  | matrix n => exact bind (foldlM fun _ _ => append rfl) fun _ => foldlM fun _ _ => append rfl
  | _ => exact foldlM fun _ _ => append rfl

/-- A constant of a scalar type is no instruction; one of another type is put into all components.
-/
theorem const {x : Numeral.Dyadic} : Evaluates (Emit.const t x) := by
  unfold Emit.const
  split
  · exact pure
  · exact splat

theorem neg : Evaluates (Emit.neg t x) := by
  unfold Emit.neg
  split <;> exact append rfl

theorem compareLanes {op : RelOp} : Evaluates (Emit.compareLanes op t x y) := by
  unfold Emit.compareLanes
  split <;> exact append rfl

theorem compare {op : RelOp} : Evaluates (Emit.compare op t x y) := by
  unfold Emit.compare
  split
  · have hlanes : ∀ s n, Evaluates (do
        let lanes ← Emit.compareLanes op (.vector s n) x y
        let first ← Emit.lane lanes (.index 0)
        (List.range (n.size - 1)).foldlM (fun all i => do
          let next ← Emit.lane lanes (.index (i + 1))
          Emit.append (.binary (if op = .eq then .and else .or) all next)) first) := fun _ _ =>
      bind compareLanes fun _ => bind (append rfl) fun _ =>
        foldlM fun _ _ => bind (append rfl) fun _ => append rfl
    dsimp only
    split
    · exact bind throw fun _ => hlanes _ _
    · exact hlanes _ _
  · exact compareLanes

/-- Components are taken out, converted and put back one by one. -/
theorem convertLanes {src dst : DataType} {s r : ScalarType} :
    Evaluates (Emit.convertLanes x src dst s r) := by
  unfold Emit.convertLanes
  dsimp only
  split
  · split <;> exact bind (append rfl) fun _ => append rfl
  · repeat' split
    all_goals first | exact pure | exact append rfl

/-- A conversion between types is one instruction, several, or none. -/
theorem convert {src dst : DataType} : Evaluates (Emit.convert x src dst) := by
  unfold Emit.convert
  split
  · exact pure
  split
  · exact convertLanes
  · exact bind convertLanes fun _ => splat
  · exact bind convertLanes fun _ => splat
  · split
    · exact convertLanes
    · exact throw
  · exact bind (append rfl) fun _ => convertLanes
  · exact throw

end

/-- A value is chosen by one instruction, and it is a fault if there is none to choose. -/
theorem phi : ∀ {incoming : List (Value × Label)}, Evaluates (Emit.phi incoming)
  | [] => throw
  | (_, _) :: _ => by
    simp only [Emit.phi]
    exact append rfl

end Evaluates

end Shader.Ir

namespace Shader.Lowering

open Ir

section

open Ir.Evaluates

variable {n : Dim} {v m x y : Value}

/-- A matrix is put together from its columns. -/
theorem evaluates_columnwise {col : Nat → Emit Value} (h : ∀ i, Evaluates (col i)) :
    Evaluates (Pieces.columnwise n col) :=
  foldlM fun _ i => bind (h i) fun _ => append rfl

/-- The components of a vector are taken out one by one. -/
theorem evaluates_lanes : Evaluates (Pieces.lanes n v) := mapM fun _ => append rfl

theorem evaluates_scalars {t : DataType} : Evaluates (Pieces.scalars t v) := by
  cases t with
  | void => exact pure
  | scalar s => exact pure
  | vector s n => exact evaluates_lanes
  | matrix n => exact bind (mapM fun _ => bind (append rfl) fun _ => evaluates_lanes) fun _ => pure

/-- A matrix times a vector is a sum of multiples of its columns. -/
theorem evaluates_mulColumns : Evaluates (Pieces.mulColumns n m v) := by
  have hterm : ∀ j, Evaluates (do
      let s ← Emit.convert (← Emit.lane v (.index j)) .float (.vector .float n)
      Emit.binary .mul (.vector .float n) (← Emit.column m j) s) := fun j =>
    bind (append rfl) fun _ => bind convert fun _ => bind (append rfl) fun _ => append rfl
  exact bind (hterm 0) fun _ => foldlM fun _ j => bind (hterm (j + 1)) fun _ => append rfl

/-- A vector times a matrix is a vector of products with its columns. -/
theorem evaluates_mulRows : Evaluates (Pieces.mulRows n v m) := by
  have hsum : ∀ w, Evaluates (Pieces.sumLanes n w) := fun w =>
    bind (append rfl) fun _ => foldlM fun _ _ => bind (append rfl) fun _ => append rfl
  exact foldlM fun _ _ => bind (append rfl) fun _ => bind (append rfl) fun _ =>
    bind (hsum _) fun _ => append rfl

/-- A matrix times a matrix is computed column by column. -/
theorem evaluates_mulMatrices : Evaluates (Pieces.mulMatrices n x y) :=
  evaluates_columnwise fun _ => bind (append rfl) fun _ => evaluates_mulColumns

/-- A vector is put together from its components. -/
theorem evaluates_pack {s : ScalarType} {comps : List Value} : Evaluates (Pieces.pack s n comps) :=
  foldlM fun _ _ => append rfl

end

/-! ## Composition -/

/-- A property that is shown of walks step by step. -/
structure Stepwise (C : {α : Type} → Lower α → Prop) : Prop where
  /-- it holds of results -/
  pure : ∀ {α : Type} {a : α}, C (Pure.pure a : Lower α)
  /-- it holds of failures -/
  fail : ∀ {α : Type} {pos : Pos} {cause : Cause}, C (Lowering.fail pos cause : Lower α)
  /-- it holds of instructions -/
  emit : ∀ {α : Type} {act : Emit α}, Appends act → C (Lowering.emit act)
  /-- it is kept when a walk goes on -/
  bind : ∀ {α β : Type} {act : Lower α} {f : α → Lower β}, C act → (∀ a, C (f a)) → C (act >>= f)
  /-- it does not matter what the failures of a walk say -/
  insteadOf : ∀ {α : Type} {act : Lower α} {pos : Pos} {cause : Cause}, C act →
    C (Lowering.insteadOf act pos cause)

/-- A property that is shown step by step of walks that only compute values. -/
structure Evaluating (C : {α : Type} → Lower α → Prop) : Prop where
  /-- it holds of results -/
  pure : ∀ {α : Type} {a : α}, C (Pure.pure a : Lower α)
  /-- it holds of failures -/
  fail : ∀ {α : Type} {pos : Pos} {cause : Cause}, C (Lowering.fail pos cause : Lower α)
  /-- it holds of instructions that compute values -/
  emit : ∀ {α : Type} {act : Emit α}, Evaluates act → C (Lowering.emit act)
  /-- it is kept when a walk goes on -/
  bind : ∀ {α β : Type} {act : Lower α} {f : α → Lower β}, C act → (∀ a, C (f a)) → C (act >>= f)
  /-- it does not matter what the failures of a walk say -/
  insteadOf : ∀ {α : Type} {act : Lower α} {pos : Pos} {cause : Cause}, C act →
    C (Lowering.insteadOf act pos cause)

/-- Besides, it holds of names. -/
structure Resolving (C : {α : Type} → Lower α → Prop) : Prop where
  /-- the type of a name may be noted -/
  bindName : ∀ {n : Name} {t : DataType}, C (Lowering.bindName n t)
  /-- a name may be looked up -/
  resolve : ∀ {n : Name}, C (Lowering.resolve n)

/-- Besides, it is kept by operators that evaluate an operand only sometimes. -/
structure Splitting (C : {α : Type} → Lower α → Prop) : Prop extends Stepwise C where
  /-- by logical operators -/
  logical : ∀ {pos : Pos} {op : LogicOp} {l : Operand} {rhs : Lower Operand}, C rhs →
    C (Lowering.logical pos op l rhs)
  /-- and by choices -/
  choice : ∀ {pos : Pos} {c : Value} {yes no : Lower Operand}, C yes → C no →
    C (Lowering.choice pos c yes no)

/-- What the blocks of functions are called. -/
def blockHints : List String :=
  ["entry", "if.then", "if.else", "if.end", "for.cond", "for.body", "for.inc", "for.end",
    "while.cond", "while.body", "while.end", "do.body", "do.cond", "do.end", "cond.true",
    "cond.false", "cond.end", "land.rhs", "land.end", "lor.rhs", "lor.end"]

/-- Besides, control may go to other blocks. -/
structure Jumping (C : {α : Type} → Lower α → Prop) : Prop extends Stepwise C where
  /-- the block at the point may be asked for -/
  openPoint : C (Lowering.emit Emit.openPoint)
  /-- blocks may be made -/
  newBlock : ∀ {hint : String}, hint ∈ blockHints → C (Lowering.emit (Emit.newBlock hint))
  /-- the point may move to a block -/
  setPoint : ∀ {l : Label}, C (Lowering.emit (Emit.setPoint (some l)))
  /-- a block may go to another -/
  br : ∀ {l : Label}, C (Lowering.emit (Emit.br l))
  /-- or to one of two -/
  condBr : ∀ {c : Value} {l l' : Label}, C (Lowering.emit (Emit.condBr c l l'))

/-- Besides, it holds of writing of any kind. -/
structure Branching (C : {α : Type} → Lower α → Prop) : Prop extends Stepwise C where
  /-- blocks may be made, and the point may move -/
  fork : ∀ {α : Type} {act : Emit α}, C (Lowering.emit act)

section

variable {C : {α : Type} → Lower α → Prop}

section

variable {α β : Type} (hC : Evaluating C)
include hC

/-- The result of a walk may be changed. -/
theorem Evaluating.map {act : Lower α} {f : α → β} (h : C act) : C (f <$> act) :=
  hC.bind h fun _ => hC.pure

/-- A walk may check something first and fail. -/
theorem Evaluating.check {p : Prop} {_ : Decidable p} {pos : Pos} {cause : Cause}
    {rest : Unit → Lower α} (h : C (rest ())) :
    C (if p then Lowering.fail pos cause >>= rest else rest ()) := by
  split
  · exact hC.bind hC.fail fun _ => h
  · exact h

end

/-- Several properties are shown step by step at once. -/
theorem Stepwise.all {ι : Type} {C : ι → {α : Type} → Lower α → Prop} (h : ∀ i, Stepwise (C i)) :
    Stepwise fun act => ∀ i, C i act where
  pure i := (h i).pure
  fail i := (h i).fail
  emit hact i := (h i).emit hact
  bind hact hf i := (h i).bind (hact i) fun a => hf a i
  insteadOf hact i := (h i).insteadOf (hact i)

/-- What walks keep for each index they keep for all of them. -/
theorem Resolving.all {ι : Type} {C : ι → {α : Type} → Lower α → Prop}
    (h : ∀ i, Resolving (C i)) : Resolving fun act => ∀ i, C i act where
  bindName i := (h i).bindName
  resolve i := (h i).resolve

/-- What is shown of all walks is shown of those that only compute values. -/
theorem Stepwise.evaluating (hC : Stepwise C) : Evaluating C where
  pure := hC.pure
  fail := hC.fail
  emit h := hC.emit h.appends
  bind := hC.bind
  insteadOf := hC.insteadOf

theorem Stepwise.check {α : Type} (hC : Stepwise C) {p : Prop} {_ : Decidable p} {pos : Pos}
    {cause : Cause} {rest : Unit → Lower α} (h : C (rest ())) :
    C (if p then Lowering.fail pos cause >>= rest else rest ()) := hC.evaluating.check h

section

variable {pos : Pos} {t : DataType} {x y l r : Operand} (hC : Evaluating C)
include hC

/-! ### Operands -/

/-- The value of an operand: it is there already, or it is loaded. -/
theorem stepwise_valueOf : C (valueOf x) := by
  cases x with
  | nothing => exact hC.fail
  | value => exact hC.pure
  | place => exact hC.emit (.append rfl)
  | lane => exact hC.emit (.bind (.append rfl) fun _ => .append rfl)

/-- The value of an operand, converted if need be. -/
theorem stepwise_valueAs : C (valueAs x t) := by
  refine hC.bind (stepwise_valueOf hC) fun v => ?_
  split
  · exact hC.pure
  · split
    · exact hC.emit .convert
    · exact hC.fail

/-! ### Constructors -/

/-- The components of arguments, gathered one argument after another. -/
theorem stepwise_components {s : ScalarType} :
    ∀ {xs : List Operand} {comps : List Value}, C (components t s comps xs)
  | [], _ => hC.pure
  | x :: xs, comps => by
    unfold components
    refine hC.check (hC.bind (stepwise_valueOf hC) fun v => ?_)
    refine hC.bind (hC.emit ?_) fun more => stepwise_components
    exact .bind evaluates_scalars fun _ => .mapM fun _ => .convert

theorem stepwise_allComponents {s : ScalarType} {args : List Operand} :
    C (allComponents pos t s args) :=
  hC.bind (stepwise_components hC) fun _ => hC.check (hC.pure)

theorem stepwise_buildScalar {s : ScalarType} :
    ∀ {args : List Operand}, C (buildScalar pos s args)
  | [] => hC.fail
  | [x] => by
    refine hC.bind (stepwise_valueOf hC) fun v => ?_
    split
    · exact hC.emit (.bind (.append rfl) fun _ => .convert)
    · exact hC.emit .convert
  | _ :: _ :: _ => hC.fail

theorem stepwise_buildVector {s : ScalarType} {n : Dim} {args : List Operand} :
    C (buildVector pos s n args) := by
  have hpacked : C (do
      let comps ← allComponents pos (.vector s n) s args
      emit (Pieces.pack s n comps)) :=
    hC.bind (stepwise_allComponents hC) fun _ => hC.emit evaluates_pack
  unfold buildVector
  dsimp only
  split
  · split
    · exact stepwise_valueOf hC
    · split
      · exact stepwise_valueAs hC
      · exact hpacked
  · exact hpacked

theorem stepwise_buildMatrix {n : Dim} {args : List Operand} :
    C (buildMatrix pos n args) := by
  have hpacked : C (do
      let comps ← allComponents pos (.matrix n) .float args
      emit (Pieces.columnwise n fun i =>
        Pieces.pack .float n ((comps.drop (i * n.size)).take n.size))) :=
    hC.bind (stepwise_allComponents hC) fun _ =>
      hC.emit (evaluates_columnwise fun _ => evaluates_pack)
  unfold buildMatrix
  dsimp only
  split
  · split
    · exact stepwise_valueOf hC
    · split
      · refine hC.bind (stepwise_valueAs hC) fun _ => hC.emit ?_
        exact evaluates_columnwise fun _ => .append rfl
      · exact hpacked
  · exact hpacked

/-- All forms of constructors. -/
theorem stepwise_build {args : List Operand} : C (build pos t args) := by
  unfold build
  dsimp only
  split
  all_goals
    -- an operand that is no number is reported first
    try refine hC.bind hC.fail fun _ => ?_
    split
    · exact hC.fail
    · exact stepwise_buildScalar hC
    · exact stepwise_buildVector hC
    · exact stepwise_buildMatrix hC

/-- A first value is converted or constructed. -/
theorem stepwise_initialValue : C (initialValue t x) := by
  unfold initialValue
  split
  · exact stepwise_valueAs hC
  · exact stepwise_build hC

/-! ### Operations -/

theorem stepwise_promotedArith {op : ArithOp} : C (promotedArith pos op l r) := by
  unfold promotedArith
  dsimp only
  split
  · exact hC.fail
  · split
    · refine hC.bind (stepwise_valueAs hC) fun _ => hC.bind (stepwise_valueAs hC) fun _ => ?_
      split
      · refine hC.bind (hC.emit (evaluates_columnwise fun _ => ?_)) fun _ => hC.pure
        exact .bind (.append rfl) fun _ => .bind (.append rfl) fun _ => .append rfl
      · exact hC.bind (hC.emit (.append rfl)) fun _ => hC.pure
    · exact hC.fail

/-- All forms of arithmetic: on matrices, and on operands of a common type. -/
theorem stepwise_arith {op : ArithOp} : C (arith pos op l r) := by
  unfold arith
  dsimp only
  refine hC.check ?_
  split
  · split
    · refine hC.bind (stepwise_valueOf hC) fun _ => hC.bind (stepwise_valueOf hC) fun _ => ?_
      exact hC.bind (hC.emit evaluates_mulMatrices) fun _ => hC.pure
    · exact stepwise_promotedArith hC
  · split
    · refine hC.bind (stepwise_valueOf hC) fun _ => hC.bind (stepwise_valueAs hC) fun _ => ?_
      exact hC.bind (hC.emit evaluates_mulColumns) fun _ => hC.pure
    · exact stepwise_promotedArith hC
  · split
    · refine hC.bind (stepwise_valueAs hC) fun _ => hC.bind (stepwise_valueOf hC) fun _ => ?_
      exact hC.bind (hC.emit evaluates_mulRows) fun _ => hC.pure
    · exact stepwise_promotedArith hC
  · exact stepwise_promotedArith hC

theorem stepwise_arithExpr {op : ArithOp} : C (arithExpr pos op l r) :=
  hC.bind (stepwise_arith hC) fun _ => hC.bind (hC.insteadOf (stepwise_valueAs hC)) fun _ =>
    hC.pure

theorem stepwise_comparison {op : RelOp} : C (comparison pos op l r) := by
  unfold comparison
  split
  · exact hC.fail
  · exact hC.fail
  · refine hC.check (hC.bind (stepwise_valueAs hC) fun _ => ?_)
    refine hC.bind (stepwise_valueAs hC) fun _ => hC.bind (hC.emit ?_) fun _ => hC.pure
    exact .bind .compare fun _ => .append rfl

/-- The bit of a condition. -/
theorem stepwise_truthOf {cause : DataType → Cause} : C (truthOf cause x) := by
  unfold truthOf
  exact hC.check (hC.bind (stepwise_valueOf hC) fun _ => hC.emit .compare)

theorem stepwise_unary {op : UnaryOp} : C (unary pos op x) := by
  unfold unary
  dsimp only
  split
  · exact hC.fail
  · split
    · split
      · exact hC.fail
      · refine hC.bind (stepwise_valueOf hC) fun _ => hC.bind (hC.emit ?_) fun _ => hC.pure
        exact .bind .compare fun _ => .append rfl
    · split
      · exact hC.fail
      · refine hC.bind (stepwise_valueOf hC) fun _ => hC.bind (hC.emit ?_) fun _ => hC.pure
        exact .bind .const fun _ => .append rfl
    · refine hC.bind (stepwise_valueOf hC) fun _ => ?_
      split
      · refine hC.bind (hC.emit (evaluates_columnwise fun _ => ?_)) fun _ => hC.pure
        exact .bind (.append rfl) fun _ => .neg
      · exact hC.bind (hC.emit .neg) fun _ => hC.pure
    · exact hC.bind (stepwise_valueOf hC) fun _ => hC.pure

theorem stepwise_assigned {op : Option ArithOp} {text : String} :
    C (assigned pos op text x y) := by
  cases op with
  | none => exact hC.insteadOf (stepwise_valueAs hC)
  | some op => exact hC.bind (stepwise_arith hC) fun _ => hC.insteadOf (stepwise_valueAs hC)

theorem stepwise_indexValue : C (indexValue pos x) := by
  unfold indexValue
  exact hC.check (stepwise_valueOf hC)

theorem stepwise_select {selPos : Pos} {sel : Swizzle} :
    C (select pos selPos sel x) := by
  unfold select
  split
  · split
    · exact hC.fail
    · split
      · exact hC.pure
      · refine hC.bind (stepwise_valueOf hC) fun _ => ?_
        exact hC.bind (hC.emit (.append rfl)) fun _ => hC.pure
  · exact hC.fail

/-- An argument is an address or a value, as the parameter asks for. -/
theorem stepwise_argument {func text : String} {p : Passing} :
    C (argument func p pos text x) := by
  unfold argument
  split
  · dsimp only
    split
    · split
      · exact hC.pure
      · exact hC.fail
    · exact hC.fail
  · exact hC.insteadOf (stepwise_valueAs hC)

/-- An element of a variable, once the index has been walked over. -/
theorem stepwise_element {base : Name} {sym : Symbol DataType Value} {index : Lower Value}
    (hindex : C index) : C (element base sym index) := by
  unfold element
  split
  · exact hC.bind hindex fun _ => hC.pure
  · exact hC.bind hindex fun _ => hC.bind (hC.emit (.append rfl)) fun _ => hC.pure
  · exact hC.fail

/-- The value of the first branch of a choice, if it has one. -/
theorem stepwise_alternative : C (alternative? x) := by
  unfold alternative?
  split
  · exact hC.map (stepwise_valueOf hC)
  · exact hC.pure

/-- The value of the second branch, which has to go with the first. -/
theorem stepwise_otherwise : C (otherwise? pos x y) := by
  unfold otherwise?
  dsimp only
  split
  · exact hC.map (hC.insteadOf (stepwise_valueAs hC))
  · split
    · exact hC.fail
    · exact hC.pure

/-- The exclusive operator evaluates both operands. -/
theorem stepwise_logical_xor {rhs : Lower Operand} (hrhs : C rhs) :
    C (logical pos .xor l rhs) := by
  refine hC.bind (stepwise_truthOf hC) fun _ => hC.bind hrhs fun _ => ?_
  refine hC.bind (stepwise_truthOf hC) fun _ => hC.bind (hC.emit ?_) fun _ => hC.pure
  exact .bind (.append rfl) fun _ => .append rfl

end

section

variable {pos : Pos} {x : Operand} (hC : Stepwise C)
include hC

/-! ### Variables -/

/-- This is the first operation that does not only compute: it keeps a value in memory, and it is a
fault if there is no place to keep it. -/
theorem stepwise_storeTo {v : Value} : C (storeTo x v) := by
  cases x with
  | nothing => exact hC.emit .throw
  | value => exact hC.emit .throw
  | place => exact hC.emit .store
  | lane => exact hC.emit (.bind .append fun _ => .bind .append fun _ => .store)

theorem stepwise_step {s : Step} {post : Bool} {text : String} :
    C (step pos s post text x) := by
  unfold step
  split
  · exact hC.fail
  · refine hC.check (hC.check (hC.bind (stepwise_valueOf hC.evaluating) fun _ => ?_))
    refine hC.bind (hC.emit (.bind Evaluates.const.appends fun _ => .append)) fun _ => ?_
    exact hC.bind (stepwise_storeTo hC) fun _ => hC.pure

/-- An assignment evaluates its right side between the check of its target and the store. -/
theorem stepwise_assign {op : Option ArithOp} {text : String} {rhs : Lower Operand}
    (hrhs : C rhs) : C (assign pos op text x rhs) := by
  unfold assign
  split
  · exact hC.fail
  · refine hC.check (hC.bind hrhs fun y => hC.bind (stepwise_assigned hC.evaluating) fun _ => ?_)
    exact hC.bind (stepwise_storeTo hC) fun _ => hC.pure

end

section

variable (hJ : Jumping C)
include hJ

/-- Operators that may skip their right side make blocks for it and jump around it. -/
theorem stepwise_logical {pos : Pos} {op : LogicOp} {l : Operand} {rhs : Lower Operand}
    (hrhs : C rhs) : C (logical pos op l rhs) := by
  have hC := hJ.toStepwise
  refine hC.bind (stepwise_truthOf hC.evaluating) fun lc => ?_
  split
  · refine hC.bind hrhs fun _ => hC.bind (stepwise_truthOf hC.evaluating) fun _ => ?_
    exact hC.bind (hC.emit (.bind .append fun _ => .append)) fun _ => hC.pure
  · have hhints : logicHint op ++ ".rhs" ∈ blockHints ∧ logicHint op ++ ".end" ∈ blockHints := by
      cases op <;> decide
    refine hC.bind hJ.openPoint fun _ => hC.bind (hJ.newBlock hhints.1) fun _ => ?_
    refine hC.bind (hJ.newBlock hhints.2) fun _ => ?_
    refine hC.bind ?_ fun _ => hC.bind hJ.setPoint fun _ => hC.bind hrhs fun _ => ?_
    · split <;> exact hJ.condBr
    · refine hC.bind (stepwise_truthOf hC.evaluating) fun _ => hC.bind hJ.openPoint fun _ => ?_
      refine hC.bind hJ.br fun _ => hC.bind hJ.setPoint fun _ => ?_
      exact hC.bind (hC.emit (.bind Evaluates.phi.appends fun _ => .append)) fun _ => hC.pure

/-- A choice makes a block for each of its branches and one behind them. -/
theorem stepwise_choice {pos : Pos} {c : Value} {yes no : Lower Operand} (hyes : C yes)
    (hno : C no) : C (choice pos c yes no) := by
  have hC := hJ.toStepwise
  refine hC.bind (hJ.newBlock (by decide)) fun _ => hC.bind (hJ.newBlock (by decide)) fun _ => ?_
  refine hC.bind (hJ.newBlock (by decide)) fun _ => ?_
  refine hC.bind hJ.condBr fun _ => hC.bind hJ.setPoint fun _ => hC.bind hyes fun x => ?_
  refine hC.bind (stepwise_alternative hC.evaluating) fun _ => hC.bind hJ.openPoint fun _ => ?_
  refine hC.bind hJ.br fun _ => hC.bind hJ.setPoint fun _ => hC.bind hno fun y => ?_
  refine hC.bind (stepwise_otherwise hC.evaluating) fun _ => hC.bind hJ.openPoint fun _ => ?_
  refine hC.bind hJ.br fun _ => hC.bind hJ.setPoint fun _ => ?_
  split
  · exact hC.bind (hC.emit Evaluates.phi.appends) fun _ => hC.pure
  · exact hC.pure

/-- What is kept by jumps is kept by the two operations that split control. -/
theorem Jumping.splitting : Splitting C where
  toStepwise := hJ.toStepwise
  logical := stepwise_logical hJ
  choice := stepwise_choice hJ

omit hJ in
/-- And so is what is kept by blocks and branches. -/
theorem Branching.splitting (hB : Branching C) : Splitting C :=
  Jumping.splitting ⟨hB.toStepwise, hB.fork, fun _ => hB.fork, hB.fork, hB.fork, hB.fork⟩

end

end

/-! ## Expressions -/

mutual

/-- Every part of the expression is evaluated: no operator in it leaves an operand out. -/
def isStraight : Expr → Bool
  | .name _ | .number _ _ _ | .bool _ _ => true
  | .call _ args | .construct _ _ args => areStraight args
  | .index _ e | .member e _ _ | .unary _ _ e | .postStep _ e => isStraight e
  | .binary op e e' =>
    !(op = .logic .and || op = .logic .or) && isStraight e && isStraight e'
  | .assign _ e e' => isStraight e && isStraight e'
  | .cond _ _ _ => false
  | .seq first rest => isStraight first && areStraight rest

/-- Every part of all expressions is evaluated. -/
def areStraight : List Expr → Bool
  | [] => true
  | e :: es => isStraight e && areStraight es

end

section

variable {C : {α : Type} → Lower α → Prop} {Γ : Signatures}

/-- Two parts of an expression. -/
theorem straight_and {p q : Bool} {P : Prop} (h : (p && q) = true ∨ P) :
    (p = true ∨ P) ∧ (q = true ∨ P) := by
  rcases h with h | h
  · exact ⟨.inl (Bool.and_eq_true_iff.1 h).1, .inl (Bool.and_eq_true_iff.1 h).2⟩
  · exact ⟨.inr h, .inr h⟩

mutual

/-- What instructions and the types of names keep, a walk over an expression keeps if every part of
it is evaluated; what the other operators keep as well, every walk over an expression keeps. -/
theorem stepwise_expr (hC : Stepwise C) (hN : Resolving C) :
    ∀ {e : Expr}, isStraight e = true ∨ Splitting C → C (expr Γ e)
  | .name n, _ => by
    unfold expr
    exact hC.bind (hN.resolve) fun _ => hC.pure
  | .number pos kind text, _ => by
    unfold expr
    split
    · exact hC.fail
    · exact hC.pure
  | .bool pos b, _ => by
    unfold expr
    exact hC.pure
  | .call fn args, he => by
    rw [isStraight] at he
    unfold expr
    split
    · exact hC.fail
    · refine hC.bind hN.bindName fun _ => hC.check ?_
      refine hC.bind (stepwise_arguments hC hN he) fun _ => ?_
      exact hC.bind (hC.emit .append) fun _ => hC.pure
  | .construct pos type args, he => by
    rw [isStraight] at he
    unfold expr
    refine hC.check (hC.check (hC.bind (stepwise_exprs hC hN he) fun xs => ?_))
    exact hC.bind (stepwise_build hC.evaluating) fun _ => hC.pure
  | .index base i, he => by
    rw [isStraight] at he
    unfold expr
    refine hC.bind (hN.resolve) fun sym => stepwise_element hC.evaluating ?_
    exact hC.bind (stepwise_expr hC hN he) fun x => stepwise_indexValue hC.evaluating
  | .member e sel selPos, he => by
    rw [isStraight] at he
    unfold expr
    exact hC.bind (stepwise_expr hC hN he) fun x => stepwise_select hC.evaluating
  | .unary pos op e, he => by
    rw [isStraight] at he
    unfold expr
    refine hC.bind (stepwise_expr hC hN he) fun x => ?_
    cases op with
    | step s => exact stepwise_step hC
    | _ => exact stepwise_unary hC.evaluating
  | .postStep s e, he => by
    rw [isStraight] at he
    unfold expr
    exact hC.bind (stepwise_expr hC hN he) fun x => stepwise_step hC
  | .binary op e e', he => by
    rw [isStraight] at he
    obtain ⟨hleft, hright⟩ := straight_and he
    obtain ⟨hop, hleft⟩ := straight_and hleft
    unfold expr
    refine hC.bind (stepwise_expr hC hN hleft) fun x => ?_
    cases op with
    | arith op =>
      exact hC.bind (stepwise_expr hC hN hright) fun y => stepwise_arithExpr hC.evaluating
    | rel op =>
      exact hC.bind (stepwise_expr hC hN hright) fun y => stepwise_comparison hC.evaluating
    | logic op =>
      rcases hop with hop | hfork
      · cases op with
        | xor => exact stepwise_logical_xor hC.evaluating (stepwise_expr hC hN hright)
        | and => cases hop
        | or => cases hop
      · exact hfork.logical (stepwise_expr hC hN hright)
  | .assign op e e', he => by
    rw [isStraight] at he
    obtain ⟨hleft, hright⟩ := straight_and he
    unfold expr
    refine hC.bind (stepwise_expr hC hN hleft) fun x => ?_
    exact stepwise_assign hC (stepwise_expr hC hN hright)
  | .cond c e e', he => by
    rw [isStraight] at he
    -- a choice is never straight, so control splits here
    have hfork := he.resolve_left nofun
    unfold expr
    refine hC.bind (stepwise_expr hC hN (.inr hfork)) fun x => ?_
    refine hC.bind (stepwise_truthOf hC.evaluating) fun _ => hfork.choice ?_ ?_
    · exact stepwise_expr hC hN (.inr hfork)
    · exact stepwise_expr hC hN (.inr hfork)
  | .seq first rest, he => by
    rw [isStraight] at he
    obtain ⟨hfirst, hrest⟩ := straight_and he
    unfold expr
    exact hC.bind (stepwise_expr hC hN hfirst) fun x => stepwise_sequence hC hN hrest

/-- Expressions, which need no blocks unless control splits in one of them. -/
theorem stepwise_exprs (hC : Stepwise C) (hN : Resolving C) :
    ∀ {es : List Expr}, areStraight es = true ∨ Splitting C → C (exprs Γ es)
  | [], _ => by
    unfold exprs
    exact hC.pure
  | e :: es, he => by
    rw [areStraight] at he
    obtain ⟨hfirst, hrest⟩ := straight_and he
    unfold exprs
    refine hC.bind (stepwise_expr hC hN hfirst) fun _ => ?_
    exact hC.bind (stepwise_exprs hC hN hrest) fun _ => hC.pure

theorem stepwise_arguments (hC : Stepwise C) (hN : Resolving C) {func : String} :
    ∀ {es : List Expr} {ps : List Passing}, areStraight es = true ∨ Splitting C →
      C (arguments Γ func es ps)
  | [], _, _ => by
    unfold arguments
    exact hC.pure
  | _ :: _, [], _ => by
    unfold arguments
    exact hC.pure
  | e :: es, p :: ps, he => by
    rw [areStraight] at he
    obtain ⟨hfirst, hrest⟩ := straight_and he
    unfold arguments
    refine hC.bind (stepwise_expr hC hN hfirst) fun _ => ?_
    refine hC.bind (stepwise_argument hC.evaluating) fun _ => ?_
    exact hC.bind (stepwise_arguments hC hN hrest) fun _ => hC.pure

theorem stepwise_sequence (hC : Stepwise C) (hN : Resolving C) :
    ∀ {es : List Expr} {before : Operand}, areStraight es = true ∨ Splitting C →
      C (sequence Γ before es)
  | [], _, _ => by
    unfold sequence
    exact hC.pure
  | e :: es, _, he => by
    rw [areStraight] at he
    obtain ⟨hfirst, hrest⟩ := straight_and he
    unfold sequence
    exact hC.bind (stepwise_expr hC hN hfirst) fun _ => stepwise_sequence hC hN hrest

end

end

end Shader.Lowering
