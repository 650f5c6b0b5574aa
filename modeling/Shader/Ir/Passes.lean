import Shader.Ir.Prune
import Shader.Ir.Verify

/-!
# Passes

A pass changes a function. Each function that has blocks goes through the passes in turn; around
each pass the function can be dumped as a text and verified. What is wrong with it ends the run, as
does a function that cannot be printed; what has been dumped and changed until then stays.
-/

namespace Shader.Ir

/-- A pass. -/
structure Pass where
  /-- the name of the pass -/
  name : String
  /-- what it does to a function of a module -/
  run : Module → Func → Module

/-- The passes that every function goes through. -/
def defaultPasses : List Pass := [{ name := "deadblocks", run := Module.prune }]

/-- What to do around passes. -/
structure PassOptions where
  /-- the pass to dump functions before, `*` for all -/
  dumpBefore : String := ""
  /-- the pass to dump functions after, `*` for all -/
  dumpAfter : String := ""
  /-- the function to dump, all if empty -/
  dumpFunc : String := ""
  /-- whether to verify functions before and after each pass -/
  verify : Bool := false
  deriving DecidableEq, Repr

/-- What a run of passes leaves. -/
structure PassState where
  /-- the module -/
  module : Module
  /-- what has been dumped -/
  dump : String := ""

/-- A run of passes: a fault or a complaint ends it. -/
abbrev PassM := ExceptT (Fault ⊕ String) (StateM PassState)

namespace PassM

/-- Adds to the dump. -/
def write (text : String) : PassM Unit := modify fun s => { s with dump := s.dump ++ text }

/-- A function of the module. -/
def withFunc (id : FuncId) (act : Func → PassM Unit) : PassM Unit := do
  match (← get).module.func? id with
  | none => return ()
  | some f => act f

/-- Dumps a function under a heading. If its locals cannot be numbered, this is said first. -/
def dump (time pass : String) (f : Func) : PassM Unit := do
  let ν := (← get).module.numbers
  write ("--- " ++ time ++ " " ++ pass ++ " (" ++ f.id.told ν ++ ") ---\n")
  let (numbers, stop) := f.number ν
  modify fun s => { s with module := { s.module with numbers } }
  if let some (expected, found) := stop then
    write ("; " ++ Fault.renumberedText f.id.name expected found ++ "\n")
  let (numbers, text) := f.print numbers
  modify fun s => { s with module := { s.module with numbers } }
  match text with
  | .error e => throw (.inl e)
  | .ok text => write (text ++ "\n\n")

/-- Verifies a function at a time. -/
def check (time pass : String) (f : Func) : PassM Unit := do
  match f.verify (← get).module.numbers with
  | none => return ()
  | some complaint => throw (.inr ("verify " ++ time ++ " " ++ pass ++ ": " ++ complaint))

/-- Runs a pass on a function. -/
def runPass (o : PassOptions) (id : FuncId) (p : Pass) : PassM Unit := do
  let name := id.told (← get).module.numbers
  let wanted (pattern : String) : Bool :=
    (pattern = "*" || pattern = p.name) && (o.dumpFunc = "" || o.dumpFunc = name)
  if wanted o.dumpBefore then withFunc id (dump "before" p.name)
  if o.verify then withFunc id (check "before" p.name)
  withFunc id fun f => modify fun s => { s with module := p.run s.module f }
  if o.verify then withFunc id (check "after" p.name)
  if wanted o.dumpAfter then withFunc id (dump "after" p.name)

end PassM

/-- Runs passes on all functions of a module that have blocks. -/
def Module.runPasses (m : Module) (passes : List Pass) (o : PassOptions) :
    Except (Fault ⊕ String) Unit × PassState :=
  let ids := (m.funcs.filter fun f => !f.blocks.isEmpty).map Func.id
  (ids.forM fun id => passes.forM (PassM.runPass o id)).run.run { module := m }

end Shader.Ir
