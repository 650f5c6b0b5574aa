import Shader.Grammar.Program
import Shader.Ir.Passes
import Shader.Lowering.Program

/-!
# Compiling a text

The phases of a compilation: the text is scanned, parsed, lowered, and its code goes through the
passes and is verified. A phase that finds something wrong is the last one. What is said about the
text and the code on the way is collected in one text.
-/

namespace Shader.Command

open Ir

/-- The phases of a compilation. -/
inductive Phase where
  /-- from text to tokens -/
  | scan
  /-- from tokens to a tree -/
  | parse
  /-- from a tree to code -/
  | lower
  /-- passes and verification -/
  | verify
  deriving DecidableEq, Repr

/-- The name of a phase. -/
def Phase.name : Phase → String
  | scan => "scan"
  | parse => "parse"
  | lower => "lower"
  | verify => "verify"

/-- How a compilation ends. -/
inductive Ending where
  /-- something is wrong with the text or its code -/
  | failed
  /-- a phase broke down -/
  | broken (fault : Fault)
  /-- there is code -/
  | done (module : Module)

/-- A compilation. -/
structure Compilation where
  /-- the phases that came to their end -/
  phases : List Phase
  /-- what was said -/
  log : String
  /-- how it ended -/
  ending : Ending

/-- How to compile. -/
structure CompileOptions where
  /-- whether to stop at the first failure -/
  strict : Bool := false
  /-- what to do around passes -/
  passes : PassOptions := {}

/-- A line for each text. -/
def lines (texts : List String) : String := String.join (texts.map (· ++ "\n"))

/-- The last phase: passes and verification. -/
def verifyPhase (file log : String) (o : PassOptions) (m : Module) : Compilation :=
  let (result, after) := m.runPasses defaultPasses o
  let log := log ++ after.dump
  let complaint :=
    match result with
    | .error e => some e
    | .ok _ => after.module.verify.map .inr
  match complaint with
  | some (.inl fault) => ⟨[.scan, .parse, .lower], log, .broken fault⟩
  | some (.inr text) =>
    ⟨[.scan, .parse, .lower, .verify], log ++ lines [file ++ ": " ++ text], .failed⟩
  | none => ⟨[.scan, .parse, .lower, .verify], log, .done after.module⟩

/-- The third phase and what follows. -/
def lowerPhase (file : String) (o : CompileOptions) (p : Program) : Compilation :=
  match Lowering.lower { strict := o.strict } p with
  | .error fault => ⟨[.scan, .parse], "", .broken fault⟩
  | .ok out =>
    let log := lines (out.problems.map fun p => p.failure.text)
    if out.problems.isEmpty then verifyPhase file log o.passes out.module
    else ⟨[.scan, .parse, .lower], log, .failed⟩

/-- Compiles a text. -/
def compile (file : String) (bytes : List UInt8) (o : CompileOptions) : Compilation :=
  let scan := ({ file, bytes, failure := none } : Source).scan
  let parse := parseItems scan.items
  let failed : Compilation :=
    ⟨[.scan, .parse], lines ((scan.reports ++ parse.reports).map Report.text), .failed⟩
  match parse.program with
  | none => failed
  | some p => if scan.reports.isEmpty then lowerPhase file o p else failed

end Shader.Command
