import Shader.Ir.Numbering

/-!
# The text of a module

The global variables stand first, one to a line, then the functions with an empty line between
them. Global variables and functions without a name are numbered first, locals without a name when
their function is printed, and all keep their numbers. A module cannot be printed while it has a
block without a terminator.
-/

namespace Shader.Ir

/-! ## Names -/

/-- A global as an operand. -/
def globalIdent (ν : Numbering) (name : String) (e : Entity) : String := "@" ++ ν.written e name

/-- A local as an operand. -/
def localIdent (ν : Numbering) (name : String) (e : Entity) : String := "%" ++ ν.written e name

/-- A function as an operand. -/
def FuncId.ident (ν : Numbering) (id : FuncId) : String := globalIdent ν id.name (.func id)

/-- A function as it is told without its sigil. -/
def FuncId.told (ν : Numbering) (id : FuncId) : String := ν.told (.func id) id.name

/-- A global variable as an operand. -/
def GlobalId.ident (ν : Numbering) (id : GlobalId) : String := globalIdent ν id.name (.global id)

namespace Label

/-- A block as an operand. -/
def ident (ν : Numbering) (l : Label) : String := localIdent ν l.name (.block l)

/-- A block as it is told without its sigil. -/
def told (ν : Numbering) (l : Label) : String := ν.told (.block l) l.name

/-- What stands in front of the instructions of a block. -/
def heading (ν : Numbering) (l : Label) : String := ν.written (.block l) l.name ++ ":"

end Label

namespace Value

/-- A value without its type. -/
def ident (ν : Numbering) : Value → String
  | const c => c.spelling
  | global id _ => id.ident ν
  | param func index name _ => localIdent ν name (.param func index)
  | result func reg name _ => localIdent ν name (.result func reg)

/-- A value with its type. -/
def text (ν : Numbering) (v : Value) : String := v.type.text ++ " " ++ v.ident ν

/-- The spelling of a value that does not depend on numbers. -/
def spelling? : Value → Option String
  | global ⟨"", _⟩ _ | param _ _ "" _ | result _ _ "" _ => none
  | v => some (v.ident [])

end Value

/-! ## Instructions -/

/-- The word for an operation. -/
def Opcode.word : Opcode → String
  | add => "add"
  | sub => "sub"
  | mul => "mul"
  | udiv => "udiv"
  | sdiv => "sdiv"
  | urem => "urem"
  | srem => "srem"
  | shl => "shl"
  | lshr => "lshr"
  | ashr => "ashr"
  | and => "and"
  | or => "or"
  | xor => "xor"
  | fadd => "fadd"
  | fsub => "fsub"
  | fmul => "fmul"
  | fdiv => "fdiv"
  | frem => "frem"

/-- The word for a comparison of integers. -/
def IntPred.word : IntPred → String
  | eq => "eq"
  | ne => "ne"
  | ult => "ult"
  | ule => "ule"
  | ugt => "ugt"
  | uge => "uge"
  | slt => "slt"
  | sle => "sle"
  | sgt => "sgt"
  | sge => "sge"

/-- The word for a comparison of floating-point numbers. -/
def FloatPred.word : FloatPred → String
  | oeq => "oeq"
  | une => "une"
  | olt => "olt"
  | ole => "ole"
  | ogt => "ogt"
  | oge => "oge"

/-- The word for a conversion. -/
def CastOp.word : CastOp → String
  | zext => "zext"
  | sitofp => "sitofp"
  | uitofp => "uitofp"
  | fptosi => "fptosi"
  | fptoui => "fptoui"
  | fpext => "fpext"
  | fptrunc => "fptrunc"

/-- Texts with commas between them. -/
def commas (texts : List String) : String := ", ".intercalate texts

/-- The text of an instruction without its result. -/
def Inst.text (ν : Numbering) : Inst → String
  | alloca type => "alloca " ++ type.text
  | load type addr => "load " ++ commas [type.text, addr.text ν]
  | store v addr => "store " ++ commas [v.text ν, addr.text ν]
  | elementAddr type addr idx =>
    "getelementptr " ++ commas [type.text, addr.text ν, (Value.int 0).text ν, idx.text ν]
  | binary op x y => op.word ++ " " ++ commas [x.text ν, y.ident ν]
  | fneg x => "fneg " ++ x.text ν
  | icmp p x y => "icmp " ++ p.word ++ " " ++ commas [x.text ν, y.ident ν]
  | fcmp p x y => "fcmp " ++ p.word ++ " " ++ commas [x.text ν, y.ident ν]
  | cast op x target => op.word ++ " " ++ x.text ν ++ " to " ++ target.text
  | extractElement x idx => "extractelement " ++ commas [x.text ν, idx.text ν]
  | insertElement x elem idx => "insertelement " ++ commas [x.text ν, elem.text ν, idx.text ν]
  | extractValue x i => "extractvalue " ++ commas [x.text ν, toString i]
  | insertValue x elem i => "insertvalue " ++ commas [x.text ν, elem.text ν, toString i]
  | call func result args =>
    "call " ++ result.text ++ " " ++ func.ident ν ++ "(" ++
      commas (args.map fun v => v.text ν) ++ ")"
  | phi type incoming =>
    "phi " ++ type.text ++ " " ++
      commas (incoming.map fun (v, l) => "[ " ++ v.ident ν ++ ", " ++ l.ident ν ++ " ]")

/-- The text of an instruction of a function. -/
def Line.text (ν : Numbering) (func : FuncId) (l : Line) : String :=
  (if l.inst.hasResult then localIdent ν l.name (.result func l.reg) ++ " = " else "") ++
    l.inst.text ν

/-- The text of a terminator. -/
def Term.text (ν : Numbering) : Term → String
  | ret none => "ret void"
  | ret (some v) => "ret " ++ v.text ν
  | br target => "br label " ++ target.ident ν
  | condBr c yes no =>
    "br " ++ commas [c.text ν, "label " ++ yes.ident ν, "label " ++ no.ident ν]

/-! ## Functions and modules -/

/-- The text of a block, if it has a terminator. -/
def Block.text (ν : Numbering) (b : Block) : Except Fault String :=
  match b.term with
  | none => .error .openBlock
  | some term =>
    let code := b.lines.map (fun l => l.text ν b.label.func) ++ [term.text ν]
    .ok (b.label.heading ν ++ String.join (code.map fun line => "\n\t" ++ line))

namespace Func

/-- The result, the name and the parameters of a function. -/
def signature (ν : Numbering) (f : Func) : String :=
  f.result.text ++ " " ++ f.id.ident ν ++ "(" ++
    commas (f.params.zipIdx.map fun (p, i) =>
      p.type.text ++ " " ++ localIdent ν p.name (.param f.id i)) ++ ")"

/-- The text of a function whose locals have numbers. -/
def text (ν : Numbering) (f : Func) : Except Fault String :=
  match f.blocks with
  | [] => .ok ("declare " ++ f.signature ν)
  | blocks => do
    let texts ← blocks.mapM (Block.text ν)
    return "define " ++ f.signature ν ++ " \x7b\n" ++ "\n\n".intercalate texts ++ "\n\x7d"

/-- Numbers the locals of a function and gives its text. -/
def print (f : Func) (ν : Numbering) : Numbering × Except Fault String :=
  match f.number ν with
  | (ν, some (expected, found)) => (ν, .error (.renumbered (f.id.ident ν) f.id.name expected found))
  | (ν, none) => (ν, f.text ν)

end Func

/-- The text of a global variable. The host provides the values of external ones, the others start
as zero. -/
def Global.text (ν : Numbering) (g : Global) : String :=
  g.id.ident ν ++
    if g.storage.isExternal then " = external global " ++ (Ty.ofData g.type).text
    else " = global " ++ (Const.zeroOf g.type).text

namespace Module

/-- The texts of some functions, as far as they can be printed. -/
def printFuncs (ν : Numbering) : List Func → Numbering × Except Fault (List String)
  | [] => (ν, .ok [])
  | f :: fs =>
    match f.print ν with
    | (ν, .error e) => (ν, .error e)
    | (ν, .ok text) =>
      match printFuncs ν fs with
      | (ν, .error e) => (ν, .error e)
      | (ν, .ok texts) => (ν, .ok (text :: texts))

/-- Numbers what has no name in a module and gives its text. -/
def print (m : Module) : Module × Except Fault String :=
  match m.number with
  | (numbers, some _) => ({ m with numbers }, .error .globalsRenumbered)
  | (ν, none) =>
    let (numbers, texts) := printFuncs ν m.funcs
    let globals := String.join (m.globals.map fun g => g.text ν ++ "\n")
    let gap := if m.globals.isEmpty || m.funcs.isEmpty then "" else "\n"
    ({ m with numbers },
      texts.map fun texts => globals ++ gap ++ "\n".intercalate (texts.map fun t => t ++ "\n"))

end Module

end Shader.Ir
