import Mathlib.Logic.Function.Basic
import Shader.Proofs.Semantics.Machine

/-!
# Modules in execution

What a module does when its functions are carried out: with integers of 32 bits, floating-point
numbers, vectors, matrices, variables and calls. A machine is the functions on their way, the one
that was called last first, and the memory that they share. A step carries out an instruction, calls
a function, returns from one, or goes where a terminator says.

* Nothing is assumed of floating-point arithmetic: its operations are a parameter. Arithmetic of
  integers is modulo `2 ^ 32`. Where the target leaves the result of an operation open, as for a
  division by zero, the machine has no next step.
* A variable is a place in memory, which holds a number, a vector or a matrix. An address is a
  place, or a column of the matrix there.
* Every reservation of room makes a new place, which holds nothing at first. A call has its own
  results, so that each call of a function has its own variables.
-/

namespace Shader.Ir

/-! ## Data -/

/-- The formats of floating-point numbers. -/
inductive Precision where
  /-- 32 bits -/
  | single
  /-- 64 bits -/
  | double
  deriving DecidableEq, Repr

/-- The operations on floating-point numbers. -/
structure Arithmetic (R : Type) where
  /-- the number that a constant stands for -/
  constant : Precision → Numeral.Dyadic → R
  /-- the sum -/
  add : Precision → R → R → R
  /-- the difference -/
  sub : Precision → R → R → R
  /-- the product -/
  mul : Precision → R → R → R
  /-- the quotient -/
  div : Precision → R → R → R
  /-- the remainder -/
  rem : Precision → R → R → R
  /-- the number with the other sign -/
  neg : Precision → R → R
  /-- whether a comparison holds -/
  holds : FloatPred → R → R → Bool
  /-- the number nearest to a signed integer -/
  ofInt : Precision → BitVec 32 → R
  /-- the number nearest to an unsigned integer -/
  ofNat : Precision → BitVec 32 → R
  /-- the signed integer without the fraction of a number -/
  toInt : Precision → R → BitVec 32
  /-- the unsigned integer without the fraction of a number -/
  toNat : Precision → R → BitVec 32
  /-- the number in double precision -/
  extend : R → R
  /-- the nearest number in single precision -/
  truncate : R → R

/-- Numbers without a fraction, as an example. -/
def Arithmetic.whole : Arithmetic Int where
  constant _ x := x.trunc
  add _ x y := x + y
  sub _ x y := x - y
  mul _ x y := x * y
  div _ x y := x / y
  rem _ x y := x % y
  neg _ x := -x
  holds
    | .oeq, x, y => x == y
    | .une, x, y => x != y
    | .olt, x, y => x < y
    | .ole, x, y => x ≤ y
    | .ogt, x, y => y < x
    | .oge, x, y => y ≤ x
  ofInt _ w := w.toInt
  ofNat _ w := w.toNat
  toInt _ x := BitVec.ofInt 32 x
  toNat _ x := BitVec.ofInt 32 x
  extend x := x
  truncate x := x

/-- Single numbers. -/
inductive Number (R : Type) where
  /-- a bit -/
  | bit (b : Bool)
  /-- an integer -/
  | word (w : BitVec 32)
  /-- a floating-point number -/
  | real (p : Precision) (x : R)
  /-- a number that has not been given a value -/
  | undefined
  deriving DecidableEq

/-- The places in memory. -/
inductive Place where
  /-- a global variable -/
  | global (id : GlobalId)
  /-- room that has been reserved -/
  | cell (i : Nat)
  deriving DecidableEq, Repr

/-- The addresses of variables, and of columns of variables. -/
structure Address where
  /-- the variable -/
  place : Place
  /-- the column, if it is not all of the variable -/
  column : Option Nat := none
  deriving DecidableEq, Repr

/-- What a value can be. -/
inductive Datum (R : Type) where
  /-- a single number -/
  | number (x : Number R)
  /-- a vector of numbers -/
  | vector (lanes : List (Number R))
  /-- a matrix, column by column -/
  | matrix (columns : List (List (Number R)))
  /-- an address -/
  | address (a : Address)
  deriving DecidableEq

/-- The results of instructions, by their numbers. -/
abbrev Results (R : Type) := Nat → Option (Datum R)

/-- What variables hold. -/
structure Memory (R : Type) where
  /-- the value of a variable, if it has one -/
  content : Place → Option (Datum R)
  /-- how often room has been reserved -/
  cells : Nat

/-- What an instruction can see. -/
structure View (R : Type) where
  /-- the arguments of its function -/
  args : List (Datum R)
  /-- the results so far -/
  regs : Results R
  /-- the block that control came from, and the results at that time -/
  came : Option (Label × Results R)
  /-- the memory -/
  memory : Memory R

/-- What can be seen before anything has been computed. -/
def View.blank (R : Type) : View R := ⟨[], fun _ => none, none, ⟨fun _ => none, 0⟩⟩

section

variable {R : Type}

/-! ## Operations on numbers -/

/-- An operation on integers, where it has a result. -/
def Opcode.onIntegers (x y : BitVec 32) : Opcode → Option (BitVec 32)
  | udiv => if y = 0 then none else some (x / y)
  | sdiv => if y = 0 ∨ x = BitVec.intMin 32 ∧ y = -1 then none else some (x.sdiv y)
  | urem => if y = 0 then none else some (x % y)
  | srem => if y = 0 ∨ x = BitVec.intMin 32 ∧ y = -1 then none else some (x.srem y)
  | shl => if y.toNat < 32 then some (x <<< y) else none
  | lshr => if y.toNat < 32 then some (x >>> y) else none
  | ashr => if y.toNat < 32 then some (x.sshiftRight y.toNat) else none
  | op => op.onWords x y

/-- An operation on floating-point numbers. -/
def Opcode.onReals (N : Arithmetic R) (p : Precision) (x y : R) : Opcode → Option R
  | fadd => some (N.add p x y)
  | fsub => some (N.sub p x y)
  | fmul => some (N.mul p x y)
  | fdiv => some (N.div p x y)
  | frem => some (N.rem p x y)
  | _ => none

/-- An operation on two numbers of one kind. -/
def Opcode.apply (N : Arithmetic R) (op : Opcode) : Number R → Number R → Option (Number R)
  | .bit x, .bit y => (op.onBits x y).map .bit
  | .word x, .word y => (op.onIntegers x y).map .word
  | .real p x, .real q y => if p = q then (op.onReals N p x y).map (.real p) else none
  | _, _ => none

/-- The floating-point number with the other sign. -/
def Number.negated (N : Arithmetic R) : Number R → Option (Number R)
  | real p x => some (real p (N.neg p x))
  | _ => none

/-- A comparison of integers. -/
def IntPred.test (p : IntPred) : Number R → Number R → Option (Number R)
  | .word x, .word y => some (.bit (p.holds x y))
  | _, _ => none

/-- A comparison of floating-point numbers. -/
def FloatPred.test (N : Arithmetic R) (p : FloatPred) : Number R → Number R → Option (Number R)
  | .real q x, .real r y => if q = r then some (.bit (N.holds p x y)) else none
  | _, _ => none

/-- The format of the floating-point numbers of a type. -/
def Ty.precision : Ty → Precision
  | double => .double
  | vector _ elem => elem.precision
  | _ => .single

/-- A conversion to numbers of a format, if they are floating-point numbers. -/
def CastOp.apply (N : Arithmetic R) (op : CastOp) (p : Precision) :
    Number R → Option (Number R)
  | .bit b => if op = zext then some (.word (wordOf b)) else none
  | .word w =>
    match op with
    | sitofp => some (.real p (N.ofInt p w))
    | uitofp => some (.real p (N.ofNat p w))
    | _ => none
  | .real q x =>
    match op, q with
    | fptosi, _ => some (.word (N.toInt q x))
    | fptoui, _ => some (.word (N.toNat q x))
    | fpext, .single => some (.real .double (N.extend x))
    | fptrunc, .double => some (.real .single (N.truncate x))
    | _, _ => none
  | .undefined => none

/-! ## Operations on data -/

namespace Datum

/-- An operation on a number, or on each component of a vector. -/
def map? (f : Number R → Option (Number R)) : Datum R → Option (Datum R)
  | number x => (f x).map number
  | vector xs => (xs.mapM f).map vector
  | _ => none

/-- An operation on two numbers, or on the components of two vectors of one length. -/
def zip? (f : Number R → Number R → Option (Number R)) : Datum R → Datum R → Option (Datum R)
  | number x, number y => (f x y).map number
  | vector xs, vector ys =>
    if xs.length = ys.length then ((xs.zip ys).mapM fun p => f p.1 p.2).map vector else none
  | _, _ => none

/-- The number of a component. -/
def index? : Datum R → Option Nat
  | number (.word w) => some w.toNat
  | _ => none

/-- A component of a vector. -/
def lane? : Datum R → Nat → Option (Datum R)
  | vector xs, i => xs[i]?.map number
  | _, _ => none

/-- A vector with a component replaced. -/
def setLane? : Datum R → Datum R → Nat → Option (Datum R)
  | vector xs, number x, i => if i < xs.length then some (vector (xs.set i x)) else none
  | _, _, _ => none

/-- A column of a matrix. -/
def column? : Datum R → Nat → Option (Datum R)
  | matrix cols, i => cols[i]?.map vector
  | _, _ => none

/-- A matrix with a column replaced. -/
def setColumn? : Datum R → Datum R → Nat → Option (Datum R)
  | matrix cols, vector xs, i => if i < cols.length then some (matrix (cols.set i xs)) else none
  | _, _, _ => none

/-- The address of a column of the matrix at an address. -/
def columnAt? (n : Nat) : Datum R → Nat → Option (Datum R)
  | address ⟨place, none⟩, i => if i < n then some (address ⟨place, some i⟩) else none
  | _, _ => none

end Datum

/-- The datum of a type with the same number in all components. -/
def Ty.filled (f : Ty → Option (Number R)) : Ty → Option (Datum R)
  | vector n elem => (f elem).map fun x => .vector (List.replicate n x)
  | array m (vector n elem) =>
    (f elem).map fun x => .matrix (List.replicate m (List.replicate n x))
  | τ => (f τ).map .number

/-- The zero of a type of numbers. -/
def Ty.zero? (N : Arithmetic R) : Ty → Option (Number R)
  | i1 => some (.bit false)
  | i32 => some (.word 0)
  | float => some (.real .single (N.constant .single .zero))
  | double => some (.real .double (N.constant .double .zero))
  | _ => none

/-- A number of a type that has not been given a value. -/
def Ty.undefined? : Ty → Option (Number R)
  | i1 | i32 | float | double => some .undefined
  | _ => none

/-- What a constant is. -/
def Const.datum (N : Arithmetic R) : Const → Option (Datum R)
  | int v => some (.number (.word (BitVec.ofInt 32 v)))
  | float x => some (.number (.real .single (N.constant .single x)))
  | double x => some (.number (.real .double (N.constant .double x)))
  | zero τ => τ.filled (Ty.zero? N)
  | undef τ => τ.filled Ty.undefined?

/-- What a value is, given the arguments of a function and results. -/
def Value.datum (N : Arithmetic R) (args : List (Datum R)) (regs : Results R) :
    Value → Option (Datum R)
  | const c => c.datum N
  | global id _ => some (.address ⟨.global id, none⟩)
  | param _ i _ _ => args[i]?
  | result _ r _ _ => regs r

/-! ## Memory -/

namespace Memory

/-- The memory with another value of a variable. -/
def put (m : Memory R) (p : Place) (w : Datum R) : Memory R :=
  { m with content := Function.update m.content p (some w) }

/-- What is at an address. -/
def read (m : Memory R) (a : Address) : Option (Datum R) :=
  match a.column with
  | none => m.content a.place
  | some j => (m.content a.place).bind fun w => w.column? j

/-- Keeps a value at an address. -/
def write (m : Memory R) (a : Address) (w : Datum R) : Option (Memory R) :=
  match a.column with
  | none => some (m.put a.place w)
  | some j => (m.content a.place).bind fun old => (old.setColumn? w j).map (m.put a.place)

/-- The memory with room for one more value, which is the cell with the next number. -/
def reserve (m : Memory R) : Memory R where
  content := Function.update m.content (.cell m.cells) none
  cells := m.cells + 1

end Memory

/-! ## Instructions -/

/-- What a value is at this time. -/
def View.value (N : Arithmetic R) (v : View R) (x : Value) : Option (Datum R) :=
  x.datum N v.args v.regs

/-- The address that a value is. -/
def View.address (N : Arithmetic R) (v : View R) (x : Value) : Option Address :=
  (v.value N x).bind fun
    | .address a => some a
    | _ => none

/-- The number of a component that a value is. -/
def View.index (N : Arithmetic R) (v : View R) (x : Value) : Option Nat :=
  (v.value N x).bind Datum.index?

/-- What an instruction computes, if it leaves memory alone and calls no function. -/
def Inst.computed (N : Arithmetic R) (v : View R) : Inst → Option (Datum R)
  | load _ addr => (v.address N addr).bind v.memory.read
  | elementAddr type addr idx =>
    match type with
    | .array n _ => do (← v.value N addr).columnAt? n (← v.index N idx)
    | _ => none
  | binary op x y => do (← v.value N x).zip? (op.apply N) (← v.value N y)
  | fneg x => do (← v.value N x).map? (Number.negated N)
  | icmp p x y => do (← v.value N x).zip? p.test (← v.value N y)
  | fcmp p x y => do (← v.value N x).zip? (p.test N) (← v.value N y)
  | cast op x target => do (← v.value N x).map? (op.apply N target.precision)
  | extractElement x idx => do (← v.value N x).lane? (← v.index N idx)
  | insertElement x elem idx => do
    (← v.value N x).setLane? (← v.value N elem) (← v.index N idx)
  | extractValue x i => do (← v.value N x).column? i
  | insertValue x elem i => do (← v.value N x).setColumn? (← v.value N elem) i
  | phi _ incoming => do
    let (l, regs) ← v.came
    let i ← incoming.find? fun i => i.2 = l
    i.1.datum N v.args regs
  | alloca _ | store _ _ | call _ _ _ => none

/-- The result of an instruction, if it has one, and the memory afterwards. A call has no effect of
its own. -/
def Inst.effect (N : Arithmetic R) (v : View R) : Inst → Option (Option (Datum R) × Memory R)
  | alloca _ => some (some (.address ⟨.cell v.memory.cells, none⟩), v.memory.reserve)
  | store x addr => do
    let w ← v.value N x
    let a ← v.address N addr
    return (none, ← v.memory.write a w)
  | inst => (inst.computed N v).map fun w => (some w, v.memory)

/-- The results with that of another instruction, if it has one. -/
def Results.keep (regs : Results R) (r : Nat) : Option (Datum R) → Results R
  | none => regs
  | some w => Function.update regs r (some w)

/-! ## Steps -/

/-- A function on its way. -/
structure Activation (R : Type) where
  /-- the function -/
  func : FuncId
  /-- its arguments -/
  args : List (Datum R)
  /-- the results so far -/
  regs : Results R
  /-- the block that control came from, and the results at that time -/
  came : Option (Label × Results R)
  /-- the block where control is -/
  block : Label
  /-- the instructions that are left in this block; a call that has not returned is still there -/
  rest : List Line

/-- The functions on their way, the one that was called last first, and the memory. -/
structure Machine (R : Type) where
  /-- the functions -/
  stack : List (Activation R)
  /-- the memory -/
  memory : Memory R

namespace Activation

/-- What the next instruction can see. -/
def view (a : Activation R) (m : Memory R) : View R := ⟨a.args, a.regs, a.came, m⟩

/-- What a value is at this time. -/
def value (N : Arithmetic R) (a : Activation R) (x : Value) : Option (Datum R) :=
  x.datum N a.args a.regs

/-- The function behind an instruction. -/
def behind (a : Activation R) (r : Nat) (rest : List Line) (w : Option (Datum R)) : Activation R :=
  { a with rest, regs := a.regs.keep r w }

/-- The function at the start of a block. -/
def enter (a : Activation R) (b : Block) : Activation R :=
  { a with block := b.label, rest := b.lines, came := some (a.block, a.regs) }

/-- The function behind the call that has not returned. -/
def resume (a : Activation R) (w : Option (Datum R)) : Option (Activation R) :=
  match a.rest with
  | [] => none
  | line :: rest => some (a.behind line.reg rest w)

/-- What a function returns. -/
def returned (N : Arithmetic R) (a : Activation R) : Option Value → Option (Option (Datum R))
  | none => some none
  | some x => (a.value N x).map some

end Activation

/-- A function at its start. -/
def Func.activation (f : Func) (args : List (Datum R)) : Option (Activation R) :=
  f.blocks.head?.map fun entry =>
    { func := f.id, args, regs := fun _ => none, came := none, block := entry.label
      rest := entry.lines }

namespace Module

variable (m : Module) (N : Arithmetic R)

/-- A block of a function. -/
def block? (id : FuncId) (l : Label) : Option Block := (m.func? id).bind fun f => f.block? l

/-- Goes where a terminator says, or back to the function that called. -/
def follow (a : Activation R) (below : List (Activation R)) (memory : Memory R) :
    Term → Option (Machine R)
  | .br l => (m.block? a.func l).map fun b => ⟨a.enter b :: below, memory⟩
  | .condBr c yes no =>
    match a.value N c with
    | some (.number (.bit bit)) =>
      (m.block? a.func (if bit then yes else no)).map fun b => ⟨a.enter b :: below, memory⟩
    | _ => none
  | .ret x => do
    let w ← a.returned N x
    match below with
    | [] => none
    | caller :: below => return ⟨(← caller.resume w) :: below, memory⟩

/-- Carries out an instruction, or calls a function. -/
def perform (a : Activation R) (below : List (Activation R)) (memory : Memory R) (line : Line)
    (rest : List Line) : Option (Machine R) :=
  match line.inst with
  | .call id _ args => do
    let f ← m.func? id
    let callee ← f.activation (← args.mapM (a.value N))
    return ⟨callee :: a :: below, memory⟩
  | inst => (inst.effect N (a.view memory)).map fun (w, memory) =>
    ⟨a.behind line.reg rest w :: below, memory⟩

/-- One step. -/
def step (s : Machine R) : Option (Machine R) :=
  match s.stack with
  | [] => none
  | a :: below =>
    match a.rest with
    | [] => ((m.block? a.func a.block).bind Block.term).bind (m.follow N a below s.memory)
    | line :: rest => m.perform N a below s.memory line rest

/-- A number of steps. -/
def after : Nat → Machine R → Option (Machine R)
  | 0, s => some s
  | n + 1, s => (m.step N s).bind (after n)

/-- The machine comes from one state to another. -/
def Reaches (s s' : Machine R) : Prop := ∃ n, m.after N n s = some s'

variable {m N} {s s' s'' : Machine R}

theorem after_add (k n : Nat) (s : Machine R) :
    m.after N (k + n) s = (m.after N k s).bind (m.after N n) := by
  induction k generalizing s with
  | zero => simp [after]
  | succ k ih =>
    rw [Nat.succ_add, after, after, Option.bind_assoc]
    exact congrArg _ (funext ih)

namespace Reaches

theorem refl (s : Machine R) : m.Reaches N s s := ⟨0, rfl⟩

theorem step (h : m.step N s = some s') (h' : m.Reaches N s' s'') : m.Reaches N s s'' := by
  obtain ⟨n, hn⟩ := h'
  exact ⟨n + 1, by rw [after, h]; exact hn⟩

theorem trans (h : m.Reaches N s s') (h' : m.Reaches N s' s'') : m.Reaches N s s'' := by
  obtain ⟨k, hk⟩ := h
  obtain ⟨n, hn⟩ := h'
  exact ⟨k + n, by rw [after_add, hk]; exact hn⟩

/-- What every step preserves holds wherever the machine comes. -/
theorem invariant {P : Machine R → Prop} (h : m.Reaches N s s') (hs : P s)
    (hstep : ∀ t t', P t → m.step N t = some t' → P t') : P s' := by
  obtain ⟨n, hn⟩ := h
  induction n generalizing s with
  | zero => exact Option.some.inj hn ▸ hs
  | succ n ih =>
    rw [after] at hn
    obtain ⟨t, ht, hn⟩ := Option.bind_eq_some_iff.1 hn
    exact ih (hstep s t hs ht) hn

end Reaches

end Module

end

end Shader.Ir
