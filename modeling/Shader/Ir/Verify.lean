import Shader.Ir.Printer

/-!
# Well-formed functions

A function is well formed if every block has a terminator that goes to blocks of the function, if
nothing goes to the entry, if every return carries a value of the right type, and if the choices of
a block stand at its head and name the blocks from which control comes. A function that is only
declared is well formed. What is wrong is listed in the order of the blocks: first what concerns
their terminators, then the entry, then their choices.
-/

namespace Shader.Ir

/-- What can be wrong with a function. -/
inductive Violation where
  /-- a block has no terminator -/
  | openBlock (block : Label)
  /-- a terminator goes to a block that the function does not have -/
  | strayBranch (block target : Label)
  /-- a return carries no value -/
  | noValue (block : Label) (want : Ty)
  /-- a return carries a value of another type -/
  | wrongValue (block : Label) (have_ want : Ty)
  /-- control can go to the entry -/
  | entryReached (ways : Nat)
  /-- a choice stands behind another instruction -/
  | latePhi (block : Label)
  /-- a choice has more or fewer values than there are ways to its block -/
  | incomingCount (block : Label) (values ways : Nat)
  /-- a choice names a block from which control does not come -/
  | strayIncoming (block source : Label)
  deriving DecidableEq, Repr

/-- What is said of a violation in a function. -/
def Violation.message (ν : Numbering) (func : String) (v : Violation) : String :=
  let inBlock (l : Label) : String := "func " ++ func ++ ", block " ++ l.told ν ++ ": "
  match v with
  | openBlock b => inBlock b ++ "missing terminator"
  | strayBranch b target =>
    inBlock b ++ "branch to block " ++ target.told ν ++ " of another function"
  | noValue b want => inBlock b ++ "void return in function returning " ++ want.text
  | wrongValue b have_ want =>
    inBlock b ++ "return of " ++ have_.text ++ " in function returning " ++ want.text
  | entryReached ways =>
    "func " ++ func ++ ": entry block has " ++ toString ways ++ " predecessors, want 0"
  | latePhi b => inBlock b ++ "phi after non-phi instruction"
  | incomingCount b values ways =>
    inBlock b ++ "phi has " ++ toString values ++ " incoming values, block has " ++
      toString ways ++ " predecessors"
  | strayIncoming b source =>
    inBlock b ++ "phi incoming from non-predecessor " ++ source.ident ν

namespace Func

/-- The labels of the blocks of a function. -/
def ownLabels (f : Func) : List Label := f.blocks.map Block.label

/-- The blocks from which control comes to a block, one for each way. -/
def predecessors (f : Func) (l : Label) : List Label :=
  f.blocks.flatMap fun b => (b.successors.filter fun s => s = l).map fun _ => b.label

/-- What is wrong with the terminator of a block. -/
def termViolations (f : Func) (b : Block) : List Violation :=
  match b.term with
  | none => [.openBlock b.label]
  | some term =>
    ((term.successors.filter fun s => !f.ownLabels.contains s).map (.strayBranch b.label)) ++
      match term with
      | .ret none => if f.result = .void then [] else [.noValue b.label f.result]
      | .ret (some v) =>
        if v.type = f.result then [] else [.wrongValue b.label v.type f.result]
      | _ => []

/-- What is wrong with the entry. -/
def entryViolations (f : Func) : List Violation :=
  match f.blocks with
  | [] => []
  | entry :: _ =>
    match (f.predecessors entry.label).length with
    | 0 => []
    | n => [.entryReached n]

/-- What is wrong with the choices among instructions of a block, behind others if `late`. -/
def phiViolations (l : Label) (preds : List Label) (late : Bool) : List Line → List Violation
  | [] => []
  | line :: lines =>
    match line.inst.incoming? with
    | none => phiViolations l preds true lines
    | some incoming =>
      (if late then [.latePhi l] else []) ++
        (if incoming.length = preds.length then []
          else [.incomingCount l incoming.length preds.length]) ++
        ((incoming.filter fun i => !preds.contains i.2).map fun i => .strayIncoming l i.2) ++
        phiViolations l preds late lines

/-- What is wrong with a function. -/
def violations (f : Func) : List Violation :=
  if f.blocks.isEmpty then []
  else
    f.blocks.flatMap f.termViolations ++ f.entryViolations ++
      f.blocks.flatMap fun b => phiViolations b.label (f.predecessors b.label) false b.lines

end Func

/-- One text about all that is wrong, if anything is. -/
def verdict? : List String → Option String
  | [] => none
  | messages => some ("IR verification failed:" ++ String.join (messages.map ("\n  " ++ ·)))

/-- What is said of the violations of a function. -/
def Func.complaints (f : Func) (ν : Numbering) : List String :=
  f.violations.map (Violation.message ν (f.id.told ν))

/-- What is wrong with a function, as a text. -/
def Func.verify (f : Func) (ν : Numbering) : Option String := verdict? (f.complaints ν)

/-- What is wrong with the functions of a module, as a text. -/
def Module.verify (m : Module) : Option String :=
  verdict? (m.funcs.flatMap fun f => f.complaints m.numbers)

end Shader.Ir
