import Shader.Lowering.Stmt

/-!
# Lowering of programs

A program is lowered in three rounds over its definitions: the signatures of its functions, its
global variables, and the bodies of its functions, which may therefore call functions that are
defined later. The values of global variables are computed by a function of their own, which `main`
calls first.

A definition that fails is left as it is at that point. In strict mode the first failure ends the
work; otherwise all other definitions are still lowered.
-/

namespace Shader.Lowering

open Ir

/-- How to lower a program. -/
structure Options where
  /-- whether to stop at the first failure -/
  strict : Bool := false
  /-- whether to declare the output for positions if the program does not -/
  synthesizePosition : Bool := false
  /-- whether it is a fault to write elsewhere than at the end of an open block -/
  guarded : Bool := false
  deriving DecidableEq, Repr

/-- The definitions whose failures are named after them. -/
inductive Owner where
  /-- the declaration of a function -/
  | signature
  /-- a global variable -/
  | global (name : String)
  /-- the body of a function -/
  | func (name : String)
  deriving DecidableEq, Repr

/-- A failure in a definition. -/
structure Problem where
  /-- the definition -/
  owner : Owner
  /-- the failure -/
  failure : Failure
  deriving DecidableEq, Repr

/-- What is said of a problem, behind the definition that it is in. -/
def Problem.text (p : Problem) : String :=
  match p.owner with
  | .signature => p.failure.text
  | .global name => "global " ++ name ++ ": " ++ p.failure.text
  | .func name => "function " ++ name ++ ": " ++ p.failure.text

/-- The name of the function that computes the values of global variables. -/
def initName : String := "glslc.init"

/-- What becomes of a program. -/
structure Outcome where
  /-- the code -/
  module : Module := {}
  /-- what went wrong, in the order in which it was found -/
  problems : List Problem := []
  /-- the types of the names that have been resolved -/
  bound : List (Name × DataType) := []

/-- The types of the names that have been resolved. -/
def Outcome.binding (o : Outcome) : Binding := fun n => o.bound.lookup n

/-! ## Signatures -/

/-- The failure of a parameter without values, if there is one. -/
def badParam? (params : List Param) : Option Failure :=
  (params.find? fun p => p.type = .void).map fun p => ⟨p.pos, .parameterType p.type⟩

/-- How a parameter is passed. -/
def passing (p : Param) : Passing := ⟨p.type, p.storage = .output⟩

/-- What calls need to know of a function. -/
def signatureOf (f : FuncDecl) : Signature := ⟨f.name.text, f.result, f.params.map passing⟩

/-- A parameter in the code; one that the function writes to is an address. -/
def formal (p : Param) : Formal :=
  let t := Ty.ofData p.type
  ⟨p.name.text, if p.storage = .output then .pointer t else t⟩

/-- The function before its body is lowered. -/
def declaration (f : FuncDecl) : Func :=
  { id := ⟨f.name.text, 0⟩, result := Ty.ofData f.result, params := f.params.map formal }

/-- Adds a function to those that are declared, unless it fails. -/
def declareFunc (declared : List FuncDecl) (f : FuncDecl) : Except Failure (List FuncDecl) :=
  match declared.find? fun g => g.name.text = f.name.text with
  | some earlier => .error ⟨f.name.pos, .functionRedeclared f.name.text earlier.pos⟩
  | none =>
    match badParam? f.params with
    | some failure => .error failure
    | none => .ok (declared ++ [f])

/-- Whether to go on after problems. -/
def Options.goesOn (o : Options) (problems : List Problem) : Bool := !o.strict || problems.isEmpty

/-- Declares functions as far as the mode allows. -/
def declareFuncs (o : Options) (declared : List FuncDecl) (problems : List Problem) :
    List FuncDecl → List FuncDecl × List Problem
  | [] => (declared, problems)
  | f :: fs =>
    if o.goesOn problems then
      match declareFunc declared f with
      | .error failure => declareFuncs o declared (problems ++ [⟨.signature, failure⟩]) fs
      | .ok declared => declareFuncs o declared problems fs
    else (declared, problems)

/-- The functions that can be called. -/
def signatures (declared : List FuncDecl) : Signatures := fun name =>
  (declared.find? fun f => f.name.text = name).map signatureOf

/-! ## Global variables -/

/-- The state of the round over global variables. -/
structure Globals where
  /-- the variables that have been declared, in their order -/
  globals : List Global := []
  /-- the declarations in scope -/
  scopes : Scopes DataType Value := .empty
  /-- the function that computes their values, if one is needed -/
  init : Option Draft := none
  /-- the types of the names that have been resolved -/
  bound : List (Name × DataType) := []

/-- A draft at the start of a function. -/
def startDraft (o : Options) (f : Func) : Draft :=
  let (entry, func) := f.start []
  { func, point := some entry, guarded := o.guarded }

/-- The function that computes the values of global variables, as it is or empty. -/
def Globals.initDraft (g : Globals) (o : Options) : Draft :=
  g.init.getD (startDraft o { id := ⟨initName, 0⟩, result := .void, params := [] })

/-- Walks in the function that computes the values of global variables. -/
def Globals.walk {α : Type} (g : Globals) (o : Options) (act : Lower α) :
    Except Fault (Except Failure α × Globals) := do
  let (result, b) ← act.run { draft := g.initDraft o, scopes := g.scopes, bound := g.bound }
  return (result, { g with init := some b.draft, scopes := b.scopes, bound := b.bound })

/-- The failure of a global variable that needs no walk to be found. -/
def badGlobal? (g : GlobalVar) : Option Failure :=
  let d := g.var
  if d.type = .void then some ⟨d.name.pos, .variableType d.type⟩
  else
    match d.init with
    | some x =>
      if g.storage.isExternal then some ⟨x.pos, .externalInitializer g.storage d.name.text⟩
      else none
    | none => if d.isConst then some ⟨d.name.pos, .noInitializer d.name.text⟩ else none

/-- Adds a variable to the code and declares its name with its address. The variable is added in
any case. -/
def Globals.declare (g : Globals) (v : GlobalVar) : Except Failure Value × Globals :=
  let d := v.var
  let global : Global := ⟨nextGlobal g.globals d.name.text, d.type, v.storage, v.layout⟩
  let g := { g with globals := g.globals ++ [global] }
  let sym : Symbol DataType Value := ⟨d.name.text, d.type, global.addr, d.isConst⟩
  match g.scopes.declare sym with
  | .error _ => (.error ⟨d.name.pos, .redeclared d.name.text⟩, g)
  | .ok scopes => (.ok sym.handle, { g with scopes, bound := (d.name, d.type) :: g.bound })

/-- Whether a variable declares the implicit output for positions again. -/
def Globals.isRepeated (g : Globals) (v : GlobalVar) : Bool :=
  v.var.name.text = positionName && v.var.init.isNone &&
    (g.scopes.lookup? positionName).any fun sym => sym.type = v.var.type

/-- Declares a global variable and computes its value, which is resolved before its name is in
scope. A variable whose value fails is declared all the same. -/
def Globals.add (Γ : Signatures) (o : Options) (g : Globals) (v : GlobalVar) :
    Except Fault (Except Failure Unit × Globals) :=
  let d := v.var
  match badGlobal? v with
  | some failure => return (.error failure, g)
  | none =>
    if g.isRepeated v then return (.ok (), { g with bound := (d.name, d.type) :: g.bound })
    else
      match d.init with
      | none =>
        let (result, g) := g.declare v
        return (result.map fun _ => (), g)
      | some x => do
        let (operand, g) ← g.walk o (expr Γ x)
        match g.declare v, operand with
        | (.error failure, g), _ => return (.error failure, g)
        | (.ok _, g), .error failure => return (.error failure, g)
        | (.ok addr, g), .ok operand =>
          g.walk o do
            let value ← initialValue d.type operand
            emit (Emit.store value addr)

/-- Declares global variables as far as the mode allows. -/
def addGlobals (Γ : Signatures) (o : Options) (g : Globals) (problems : List Problem) :
    List GlobalVar → Except Fault (Globals × List Problem)
  | [] => return (g, problems)
  | v :: vs =>
    if o.goesOn problems then do
      match ← g.add Γ o v with
      | (.error failure, g) =>
        addGlobals Γ o g (problems ++ [⟨.global v.var.name.text, failure⟩]) vs
      | (.ok _, g) => addGlobals Γ o g problems vs
    else return (g, problems)

/-- Declares the output for positions if that is asked for and the program does not. -/
def Globals.synthesize (o : Options) (g : Globals) : Globals :=
  if o.synthesizePosition && (g.scopes.lookup? positionName).isNone then
    { g with
      globals := (g.declare implicitPosition).2.globals
      scopes := (g.declare implicitPosition).2.scopes }
  else g

/-- Ends the function that computes the values of global variables. -/
def Globals.finish (g : Globals) : Except Fault Globals :=
  match g.init with
  | none => return g
  | some d => do
    let (_, d) ← (Emit.ret none).run d
    return { g with init := some d }

/-! ## Bodies -/

/-- What the bodies of functions have in common. -/
structure Context where
  /-- the functions that can be called -/
  sigs : Signatures
  /-- the global variables -/
  scopes : Scopes DataType Value
  /-- whether there is a function that computes the values of global variables -/
  hasInit : Bool

/-- Declares the parameters of a function, of which those in front have been declared. A parameter
that the function only reads gets room of its own. -/
def bindParams (id : FuncId) (i : Nat) : List Param → Lower Unit
  | [] => return ()
  | p :: ps => do
    let arg : Value := .param id i p.name.text (formal p).type
    let addr ←
      if p.storage = .output then pure arg
      else
        emit do
          let addr ← Emit.alloca p.type p.name.text
          Emit.store arg addr
          return addr
    declare p.name p.type addr false
    bindParams id (i + 1) ps

/-- The parameters of a function, the values of global variables, and the statements. -/
def bodyCode (c : Context) (f : FuncDecl) : Lower Unit := do
  bindParams ⟨f.name.text, 0⟩ 0 f.params
  if f.name.text = "main" && c.hasInit then discard (emit (Emit.call ⟨initName, 0⟩ .void []))
  stmts c.sigs f.result none f.body

/-- Lets every open block return zero, or nothing from a function without a result. -/
def closeBlocks (result : DataType) : Emit Unit := do
  (← Emit.openBlocks).forM fun l => do
    Emit.setPoint (some l)
    Emit.ret (if result = .void then none else some (.zero result))

/-- The code of a function, the names resolved in it, and its failure if there is one. -/
def lowerBody (o : Options) (c : Context) (f : FuncDecl) :
    Except Fault (Except Failure Unit × Func × List (Name × DataType)) := do
  let start : Body := { draft := startDraft o (declaration f), scopes := c.scopes }
  let (result, b) ← (inScope (bodyCode c f)).run start
  let (_, d) ← (closeBlocks f.result).run b.draft
  return (result, d.func, b.bound)

/-- Lowers the bodies of functions as far as the mode allows; the others are only declared. -/
def lowerBodies (o : Options) (c : Context) (out : Outcome) :
    List FuncDecl → Except Fault Outcome
  | [] => return out
  | f :: fs =>
    if o.goesOn out.problems then do
      let (result, func, bound) ← lowerBody o c f
      let problems :=
        match result with
        | .ok _ => []
        | .error failure => [⟨.func f.name.text, failure⟩]
      lowerBodies o c
        { module := { out.module with funcs := out.module.funcs ++ [func] }
          problems := out.problems ++ problems
          bound := bound ++ out.bound } fs
    else
      let rest := (f :: fs).map declaration
      return { out with module := { out.module with funcs := out.module.funcs ++ rest } }

/-! ## Programs -/

/-- The functions of a program. -/
def funcDecls (p : Program) : List FuncDecl :=
  p.defs.filterMap fun
    | .func f => some f
    | .global _ => none

/-- The global variables of a program. -/
def globalVars (p : Program) : List GlobalVar :=
  p.defs.filterMap fun
    | .global g => some g
    | .func _ => none

/-- Lowers a program. -/
def lower (o : Options) (p : Program) : Except Fault Outcome := do
  let (declared, problems) := declareFuncs o [] [] (funcDecls p)
  let Γ := signatures declared
  let bound := declared.map fun f => (f.name, f.result)
  let (g, problems) ← addGlobals Γ o { bound } problems (globalVars p)
  let g ← if o.goesOn problems then (g.synthesize o).finish else pure g
  let c : Context := { sigs := Γ, scopes := g.scopes, hasInit := g.init.isSome }
  let start : Outcome := { module := { globals := g.globals }, problems, bound := g.bound }
  let out ← lowerBodies o c start declared
  let init := (g.init.map Draft.func).toList
  return { out with module := { out.module with funcs := out.module.funcs ++ init } }

end Shader.Lowering
