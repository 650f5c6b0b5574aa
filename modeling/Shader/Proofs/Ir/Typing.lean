import Shader.Proofs.Ir.Growth

/-!
# Types of instructions

The rules that the target has for the types of operands. They are stricter than what is needed to
know the type of a result: both operands of an operation have one type that suits it, an address is
one of the value that is loaded or stored, a call passes what the function takes, the values of a
choice have one type, and a conversion goes between types that it is made for, component by
component.

A value carries its type with it. `Value.Known` says that this is the type of what the value refers
to: of the instruction with its number, of the parameter at its place, or of the global variable.
-/

namespace Shader.Ir

/-! ## Classes of types -/

namespace Ty

/-- Integers. -/
def isInt : Ty → Bool
  | i1 | i32 => true
  | _ => false

/-- Floating-point numbers. -/
def isFloat : Ty → Bool
  | float | double => true
  | _ => false

/-- Whether a type, or the type of the components of a vector, is of a class. -/
def lanewise (p : Ty → Bool) : Ty → Bool
  | vector _ elem => p elem
  | t => p t

/-- The values of every type but `void` have a type. -/
theorem ofData_ne_void {t : DataType} (h : t ≠ .void) : ofData t ≠ void := by
  cases t with
  | void => exact absurd rfl h
  | scalar s => cases s <;> simp [ofData, ofScalar]
  | vector => simp [ofData]
  | matrix => simp [ofData]

end Ty

namespace Opcode

/-- The operations on floating-point numbers. -/
def isFloating : Opcode → Bool
  | fadd | fsub | fmul | fdiv | frem => true
  | _ => false

/-- Whether an operation works on values of a type. -/
def fits (op : Opcode) (t : Ty) : Bool :=
  if op.isFloating then t.lanewise Ty.isFloat else t.lanewise Ty.isInt

end Opcode

namespace CastOp

/-- The types of single numbers between which a conversion goes. -/
def takes : CastOp → Ty → Ty → Bool
  | zext, .i1, .i32 => true
  | sitofp, .i32, t | uitofp, .i32, t => t.isFloat
  | fptosi, t, .i32 | fptoui, t, .i32 => t.isFloat
  | fpext, .float, .double => true
  | fptrunc, .double, .float => true
  | _, _, _ => false

/-- The types between which a conversion goes: vectors have the same length. -/
def legal (op : CastOp) : Ty → Ty → Bool
  | .vector m s, .vector n t => m == n && op.takes s t
  | s, t => op.takes s t

end CastOp

/-! ## Instructions -/

/-- What the code of a function can refer to outside of it. -/
structure Outside where
  /-- the global variables -/
  globals : List Global
  /-- the results and parameters of functions -/
  sigs : FuncId → Option (Ty × List Ty)

namespace Inst

/-- The values that an instruction uses. -/
def operands : Inst → List Value
  | alloca _ => []
  | load _ addr => [addr]
  | store v addr => [v, addr]
  | elementAddr _ addr idx => [addr, idx]
  | binary _ x y => [x, y]
  | fneg x => [x]
  | icmp _ x y => [x, y]
  | fcmp _ x y => [x, y]
  | cast _ x _ => [x]
  | extractElement x idx => [x, idx]
  | insertElement x elem idx => [x, elem, idx]
  | extractValue x _ => [x]
  | insertValue x elem _ => [x, elem]
  | call _ _ args => args
  | phi _ incoming => incoming.map Prod.fst

/-- The operands of an instruction have types that it takes. -/
def WellTyped (O : Outside) : Inst → Prop
  | alloca type => type ≠ .void
  | load type addr => type ≠ .void ∧ addr.type = .pointer type
  | store v addr => v.type ≠ .void ∧ addr.type = .pointer v.type
  | elementAddr type addr idx =>
    (∃ n, type = Ty.ofData (.matrix n)) ∧ addr.type = .pointer type ∧ idx.type = .i32
  | binary op x y => x.type = y.type ∧ op.fits x.type = true
  | fneg x => x.type.lanewise Ty.isFloat = true
  | icmp _ x y => x.type = y.type ∧ x.type.lanewise Ty.isInt = true
  | fcmp _ x y => x.type = y.type ∧ x.type.lanewise Ty.isFloat = true
  | cast op x target => op.legal x.type target = true
  | extractElement x idx => (∃ n elem, x.type = .vector n elem) ∧ idx.type = .i32
  | insertElement x elem idx => (∃ n, x.type = .vector n elem.type) ∧ idx.type = .i32
  | extractValue x i => ∃ n : Dim, x.type = Ty.ofData (.matrix n) ∧ i < n.size
  | insertValue x elem i =>
    ∃ n : Dim, x.type = Ty.ofData (.matrix n) ∧ elem.type = Ty.ofData (.vector .float n) ∧
      i < n.size
  | call func result args => O.sigs func = some (result, args.map Value.type)
  | phi type incoming => type ≠ .void ∧ incoming ≠ [] ∧ ∀ i ∈ incoming, i.1.type = type

end Inst

namespace Term

/-- The values that a terminator uses. -/
def operands : Term → List Value
  | ret v => v.toList
  | br _ => []
  | condBr c _ _ => [c]

/-- A branch tests a bit, and a return carries what the function yields. -/
def WellTyped (result : Ty) : Term → Prop
  | ret none => result = .void
  | ret (some v) => result ≠ .void ∧ v.type = result
  | br _ => True
  | condBr c _ _ => c.type = .i1

end Term

/-! ## Values -/

namespace Value

/-- A value refers to something that has its type: to a global variable, to a parameter of the
function or to an instruction in it. -/
def Known (O : Outside) (f : Func) : Value → Prop
  | const _ => True
  | global id content => ∃ g ∈ O.globals, g.id = id ∧ Ty.ofData g.type = content
  | param func i name type => func = f.id ∧ f.params[i]? = some ⟨name, type⟩
  | result func reg name type =>
    func = f.id ∧ ∃ l b line, f.At l b ∧ line ∈ b.lines ∧ line.reg = reg ∧ line.name = name ∧
      line.inst.type? = some type

theorem Known.mono {O : Outside} {f f' : Func} (h : f.Le f') {v : Value} (hv : v.Known O f) :
    v.Known O f' := by
  cases v with
  | const c => trivial
  | global id content => exact hv
  | param func i name type =>
    obtain ⟨hf, hp⟩ := hv
    exact ⟨by rw [h.id]; exact hf, by rw [h.params]; exact hp⟩
  | result func reg name type =>
    obtain ⟨hf, l, b, line, hb, hl, hline⟩ := hv
    obtain ⟨b', hb', hle⟩ := h.blocks l b hb
    exact ⟨by rw [h.id]; exact hf, l, b', line, hb', hle.lines hl, hline⟩

/-- The number of the instruction whose result a value is. -/
def reg? : Value → Option Nat
  | result _ reg _ _ => some reg
  | _ => none

end Value

/-! ## Functions -/

/-- Every instruction and every terminator of a function takes its operands, and every operand has
the type of what it refers to. -/
structure Func.WellTyped (O : Outside) (f : Func) : Prop where
  /-- the instructions take their operands -/
  line : ∀ b ∈ f.blocks, ∀ line ∈ b.lines, line.inst.WellTyped O
  /-- the operands of instructions have the types of what they refer to -/
  operand : ∀ b ∈ f.blocks, ∀ line ∈ b.lines, ∀ v ∈ line.inst.operands, v.Known O f
  /-- the terminators take their operands -/
  term : ∀ b ∈ f.blocks, ∀ t, b.term = some t → t.WellTyped f.result
  /-- and these have the types of what they refer to -/
  termOperand : ∀ b ∈ f.blocks, ∀ t, b.term = some t → ∀ v ∈ t.operands, v.Known O f

/-- What functions of a module can refer to. -/
def Module.outside (m : Module) : Outside where
  globals := m.globals
  sigs := fun id => (m.func? id).map fun f => (f.result, f.params.map Formal.type)

/-- Every function of a module is well typed. -/
def Module.WellTyped (m : Module) : Prop := ∀ f ∈ m.funcs, f.WellTyped m.outside

end Shader.Ir
