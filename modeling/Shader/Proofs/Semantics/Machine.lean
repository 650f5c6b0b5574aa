import Mathlib.Logic.Function.Basic
import Shader.Ir

/-!
# The machine

What the code of a function does when it is carried out, as far as it computes with bits, with
integers of 32 bits and with the addresses of its own variables. A configuration of the machine is
the block where control is, the instructions that are left there, the results so far and the
memory. One step carries out an instruction, or goes where the terminator says.

* Arithmetic is modulo `2 ^ 32`. Operations whose result the target leaves open for some operands,
  such as division, have no meaning here, nor have floating-point numbers, vectors and calls: the
  machine stops there without a result.
* Every reservation of room makes a new cell of memory, which holds nothing at first.
* The choices at the head of a block all read the results as they were when control left the block
  that it came from.
-/

namespace Shader.Ir

/-- What a result or a cell of memory can be. -/
inductive Scalar where
  /-- a bit -/
  | bit (b : Bool)
  /-- an integer -/
  | word (w : BitVec 32)
  /-- the address of a cell -/
  | cell (i : Nat)
  deriving DecidableEq, Repr

/-- The results of instructions, by their numbers. -/
abbrev Registers := Nat → Option Scalar

/-- A function on its way. -/
structure Config where
  /-- the arguments of the function -/
  args : List Scalar
  /-- the block where control is -/
  block : Label
  /-- the instructions that are left in this block -/
  rest : List Line
  /-- the results so far -/
  regs : Registers
  /-- the cells of memory -/
  memory : List (Option Scalar)
  /-- the block that control came from, and the results at that time -/
  came : Option (Label × Registers)

/-! ## Values -/

/-- The integer zero or one for a bit. -/
def wordOf (b : Bool) : BitVec 32 := if b then 1 else 0

/-- A constant, if it is an integer or a bit. -/
def Const.scalar? : Const → Option Scalar
  | int v => some (.word (BitVec.ofInt 32 v))
  | zero .i32 => some (.word 0)
  | zero .i1 => some (.bit false)
  | _ => none

/-- What a value is, given the arguments of a function and results. -/
def Value.scalar? (args : List Scalar) (regs : Registers) : Value → Option Scalar
  | const c => c.scalar?
  | global _ _ => none
  | param _ i _ _ => args[i]?
  | result _ r _ _ => regs r

/-- What a value is at this time. -/
def Config.value (c : Config) (v : Value) : Option Scalar := v.scalar? c.args c.regs

/-! ## Operations -/

/-- An operation on integers. -/
def Opcode.onWords (x y : BitVec 32) : Opcode → Option (BitVec 32)
  | add => some (x + y)
  | sub => some (x - y)
  | mul => some (x * y)
  | and => some (x &&& y)
  | or => some (x ||| y)
  | xor => some (x ^^^ y)
  | _ => none

/-- An operation on bits. -/
def Opcode.onBits (x y : Bool) : Opcode → Option Bool
  | and => some (x && y)
  | or => some (x || y)
  | xor => some (x ^^ y)
  | _ => none

/-- An operation on two bits or on two integers. -/
def Opcode.act? (op : Opcode) : Scalar → Scalar → Option Scalar
  | .word x, .word y => (op.onWords x y).map .word
  | .bit x, .bit y => (op.onBits x y).map .bit
  | _, _ => none

/-- Whether a comparison of integers holds. -/
def IntPred.holds (x y : BitVec 32) : IntPred → Bool
  | eq => x == y
  | ne => x != y
  | ult => x.ult y
  | ule => x.ule y
  | ugt => y.ult x
  | uge => y.ule x
  | slt => x.slt y
  | sle => x.sle y
  | sgt => y.slt x
  | sge => y.sle x

/-- The result of an instruction, if it has one, and the memory afterwards; nothing if the
instruction has no meaning. -/
def Inst.outcome (c : Config) : Inst → Option (Option Scalar × List (Option Scalar))
  | alloca _ => some (some (.cell c.memory.length), c.memory ++ [none])
  | load _ addr =>
    match c.value addr with
    | some (.cell i) => (c.memory[i]?.getD none).map fun v => (some v, c.memory)
    | _ => none
  | store v addr =>
    match c.value v, c.value addr with
    | some v, some (.cell i) =>
      if i < c.memory.length then some (none, c.memory.set i (some v)) else none
    | _, _ => none
  | binary op x y =>
    match c.value x, c.value y with
    | some x, some y => (op.act? x y).map fun z => (some z, c.memory)
    | _, _ => none
  | icmp p x y =>
    match c.value x, c.value y with
    | some (.word x), some (.word y) => some (some (.bit (p.holds x y)), c.memory)
    | _, _ => none
  | cast .zext x .i32 =>
    match c.value x with
    | some (.bit b) => some (some (.word (wordOf b)), c.memory)
    | _ => none
  | phi _ incoming =>
    c.came.bind fun (l, regs) =>
      (incoming.find? fun i => i.2 = l).bind fun i =>
        (i.1.scalar? c.args regs).map fun v => (some v, c.memory)
  | _ => none

/-! ## Steps -/

namespace Config

/-- The results with that of an instruction, if it has one. -/
def keep (c : Config) (reg : Nat) : Option Scalar → Registers
  | none => c.regs
  | some v => Function.update c.regs reg (some v)

/-- The configuration behind an instruction. -/
def behind (c : Config) (line : Line) (rest : List Line) (v : Option Scalar)
    (memory : List (Option Scalar)) : Config :=
  { c with rest, memory, regs := c.keep line.reg v }

/-- The configuration at the start of a block. -/
def enter (c : Config) (b : Block) : Config :=
  { c with block := b.label, rest := b.lines, came := some (c.block, c.regs) }

end Config

/-- The machine has just come from another configuration, at the end of a block. -/
structure Config.From (l : Label) (c c' : Config) : Prop where
  /-- what the choices at the head of the block read -/
  came : c'.came = some (l, c.regs)
  /-- the results so far -/
  regs : c'.regs = c.regs
  /-- the arguments -/
  args : c'.args = c.args

/-- A choice takes the value that is meant for the block that control came from. -/
theorem Config.From.outcome_phi {l : Label} {c c' : Config} {τ : Ty}
    {incoming : List (Value × Label)} {i : Value × Label} {s : Scalar} (h : Config.From l c c')
    (hi : (incoming.find? fun i => i.2 = l) = some i) (hs : c.value i.1 = some s) :
    (Inst.phi τ incoming).outcome c' = some (some s, c'.memory) := by
  have hvalue : i.1.scalar? c'.args c.regs = some s := by
    rw [h.args]
    exact hs
  simp [Inst.outcome, h.came, hi, hvalue]

namespace Func

/-- The configuration at the start of the block with a label. -/
def goTo (f : Func) (c : Config) (l : Label) : Option Config := (f.block? l).map c.enter

/-- Goes where a terminator says, or leaves the function. -/
def follow (f : Func) (c : Config) : Term → Option (Config ⊕ Option Scalar)
  | .ret none => some (.inr none)
  | .ret (some v) => (c.value v).map fun v => .inr (some v)
  | .br target => (f.goTo c target).map .inl
  | .condBr v yes no =>
    match c.value v with
    | some (.bit b) => (f.goTo c (if b then yes else no)).map .inl
    | _ => none

/-- One step of the machine: to another configuration, or out of the function with what it
returns. -/
def step (f : Func) (c : Config) : Option (Config ⊕ Option Scalar) :=
  match c.rest with
  | line :: rest => (line.inst.outcome c).map fun (v, memory) => .inl (c.behind line rest v memory)
  | [] => ((f.block? c.block).bind Block.term).bind (f.follow c)

/-- A number of steps from one configuration to another. -/
inductive Takes (f : Func) : Nat → Config → Config → Prop
  /-- no step -/
  | zero (c : Config) : Takes f 0 c c
  /-- one step, and then others -/
  | succ {n : Nat} {c c' c'' : Config} (first : f.step c = some (.inl c'))
      (others : Takes f n c' c'') : Takes f (n + 1) c c''

/-- The configuration in which a function starts. -/
def launch (f : Func) (args : List Scalar) : Option Config :=
  f.blocks.head?.map fun entry =>
    { args, block := entry.label, rest := entry.lines, regs := fun _ => none, memory := []
      came := none }

/-- Carried out with these arguments, the function returns. -/
def Returns (f : Func) (args : List Scalar) (v : Option Scalar) : Prop :=
  ∃ c c' n, f.launch args = some c ∧ f.Takes n c c' ∧ f.step c' = some (.inr v)

variable {f : Func} {c c' c'' : Config} {m n : Nat}

namespace Takes

theorem trans (h₁ : f.Takes m c c') (h₂ : f.Takes n c' c'') : f.Takes (m + n) c c'' := by
  induction h₁ with
  | zero c => rwa [Nat.zero_add]
  | succ first _ ih =>
    rw [Nat.succ_add_eq_add_succ]
    exact .succ first (ih h₂)

/-- The steps of the machine are determined. -/
theorem split (h₁ : f.Takes m c c') (h₂ : f.Takes n c c'') (hle : m ≤ n) :
    f.Takes (n - m) c' c'' := by
  induction h₁ generalizing n with
  | zero c => exact h₂
  | succ first _ ih =>
    cases h₂ with
    | zero => omega
    | @succ k _ _ _ first' others =>
      obtain rfl : _ = _ := Sum.inl.inj (Option.some.inj (first.symm.trans first'))
      rw [Nat.succ_sub_succ]
      exact ih others (Nat.le_of_succ_le_succ hle)

/-- The machine goes no further once it has returned. -/
theorem length_le (h₁ : f.Takes m c c') {v : Option Scalar} (hv : f.step c' = some (.inr v))
    (h₂ : f.Takes n c c'') : n ≤ m := by
  by_contra hlt
  have hrest := h₁.split h₂ (Nat.le_of_not_le hlt)
  cases hk : n - m with
  | zero => omega
  | succ k =>
    rw [hk] at hrest
    cases hrest with
    | succ first _ =>
      rw [hv] at first
      cases first

end Takes

/-- What the machine returns is determined. -/
theorem Takes.returned_unique {v w : Option Scalar} (h₁ : f.Takes m c c')
    (hv : f.step c' = some (.inr v)) (h₂ : f.Takes n c c'') (hw : f.step c'' = some (.inr w)) :
    v = w := by
  have hle := h₁.length_le hv h₂
  have hge := h₂.length_le hw h₁
  have hrest := h₁.split h₂ hge
  have hzero : n - m = 0 := by omega
  rw [hzero] at hrest
  cases hrest with
  | zero => exact Sum.inr.inj (Option.some.inj (hv.symm.trans hw))

/-- At least so many steps lead to a configuration of which something holds. -/
def Reaches (f : Func) (n : Nat) (c : Config) (Q : Config → Prop) : Prop :=
  ∃ m c', n ≤ m ∧ f.Takes m c c' ∧ Q c'

namespace Reaches

variable {P Q : Config → Prop}

theorem here (h : Q c) : f.Reaches 0 c Q := ⟨0, c, Nat.le_refl _, .zero c, h⟩

theorem step (hstep : f.step c = some (.inl c')) (h : f.Reaches n c' Q) :
    f.Reaches (n + 1) c Q := by
  obtain ⟨m, c'', hle, htakes, hQ⟩ := h
  exact ⟨m + 1, c'', Nat.succ_le_succ hle, .succ hstep htakes, hQ⟩

theorem bind (h : f.Reaches m c P) (hP : ∀ c', P c' → f.Reaches n c' Q) :
    f.Reaches (m + n) c Q := by
  obtain ⟨k₁, c', hle₁, htakes₁, hc'⟩ := h
  obtain ⟨k₂, c'', hle₂, htakes₂, hQ⟩ := hP c' hc'
  exact ⟨k₁ + k₂, c'', Nat.add_le_add hle₁ hle₂, htakes₁.trans htakes₂, hQ⟩

theorem weaken (h : f.Reaches m c P) (hle : n ≤ m) (hPQ : ∀ c', P c' → Q c') :
    f.Reaches n c Q := by
  obtain ⟨k, c', hk, htakes, hP⟩ := h
  exact ⟨k, c', Nat.le_trans hle hk, htakes, hPQ c' hP⟩

end Reaches

end Func

end Shader.Ir
