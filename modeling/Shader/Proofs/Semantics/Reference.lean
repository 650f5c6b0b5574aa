import Shader.Numeral.Digits
import Shader.Tree

/-!
# The meaning of integer functions

What a function that computes with the type `int` alone does, said of its syntax tree. The state is
a store: the variables of the open blocks with their values, so that a name refers to its innermost
declaration.

An expression stands for a value or for a variable. A name, or a list of expressions that ends with
one, stands for the variable; it is read where its value is used. The operands of an arithmetic
operator and of a comparison are used after both have been evaluated; a logical operator uses its
first operand before it evaluates the second, and evaluates that only if it has to.

Evaluation of expressions is structural. The rounds of loops are counted: `exec n` gives up a loop
that takes more than `n` of them, and a function yields a result if it does so for some `n`.
-/

namespace Shader.Meaning

/-! ## Variables -/

/-- The variables of the open blocks and their values, innermost first. -/
abbrev Store := List (List (String × BitVec 32))

namespace Store

/-- The value of a variable. -/
def get? (σ : Store) (name : String) : Option (BitVec 32) :=
  σ.findSome? fun frame => frame.lookup name

/-- The variables of a block with another value of one of them; nothing if none of them has the
name. -/
def assignIn? (name : String) (w : BitVec 32) :
    List (String × BitVec 32) → Option (List (String × BitVec 32))
  | [] => none
  | e :: frame =>
    if e.1 = name then some ((name, w) :: frame) else (assignIn? name w frame).map (e :: ·)

/-- The store with another value of a variable. -/
def set (name : String) (w : BitVec 32) : Store → Store
  | [] => []
  | frame :: σ =>
    match assignIn? name w frame with
    | some frame => frame :: σ
    | none => frame :: set name w σ

/-- The store with another variable in the innermost block. -/
def declare (name : String) (w : BitVec 32) : Store → Store
  | [] => [[(name, w)]]
  | frame :: σ => (frame ++ [(name, w)]) :: σ

end Store

/-- What an expression stands for. -/
inductive Found where
  /-- a value -/
  | value (w : BitVec 32)
  /-- a variable, which has not been read yet -/
  | place (name : String)
  deriving DecidableEq, Repr

/-- The value that an expression stands for; a variable is read now. -/
def Found.read (σ : Store) : Found → Option (BitVec 32)
  | value w => some w
  | place name => σ.get? name

/-! ## Operators -/

/-- The integer zero or one for a truth value. -/
def ofBool (b : Bool) : BitVec 32 := if b then 1 else 0

/-- The arithmetic operators that are defined for all integers, modulo `2 ^ 32`. -/
def arith (x y : BitVec 32) : ArithOp → Option (BitVec 32)
  | .add => some (x + y)
  | .sub => some (x - y)
  | .mul => some (x * y)
  | .and => some (x &&& y)
  | .or => some (x ||| y)
  | .xor => some (x ^^^ y)
  | _ => none

/-- The comparisons of signed integers. -/
def compare (x y : BitVec 32) : RelOp → Bool
  | .eq => x == y
  | .ne => x != y
  | .lt => x.slt y
  | .le => x.sle y
  | .gt => y.slt x
  | .ge => y.sle x

/-- The operators in front of their operands, steps apart. -/
def unary (x : BitVec 32) : UnaryOp → BitVec 32
  | .neg => -x
  | .not => ofBool (x == 0)
  | .bitNot => ~~~x
  | _ => x

/-- The number of the digits that a text starts with. -/
def literal (text : String) : BitVec 32 :=
  BitVec.ofNat 32 (Numeral.ofDigits (text.toList.takeWhile Char.isDigit))

/-- Whether what an expression stands for is not zero. -/
def truth (a : Found) (σ : Store) : Option Bool := (a.read σ).map fun w => w != 0

/-- A step of a variable. -/
def step (s : Step) (post : Bool) (a : Found) (σ : Store) : Option (Store × Found) :=
  match a with
  | .value _ => none
  | .place name => do
    let old ← σ.get? name
    let new ← arith old 1 s.op
    return (σ.set name new, .value (if post then old else new))

/-- The value that an assignment to a variable keeps. -/
def assigned (op : Option ArithOp) (name : String) (b : Found) (σ : Store) :
    Option (BitVec 32) :=
  match op with
  | none => b.read σ
  | some op => do
    let x ← σ.get? name
    let y ← b.read σ
    arith x y op

/-! ## Expressions -/

mutual

/-- Evaluates an expression. -/
def eval : Expr → Store → Option (Store × Found)
  | .name n, σ => some (σ, .place n.text)
  | .number _ kind text, σ => if kind = .int then some (σ, .value (literal text)) else none
  | .unary _ op x, σ => do
    let (σ, a) ← eval x σ
    match op with
    | .step s => step s false a σ
    | op => return (σ, .value (unary (← a.read σ) op))
  | .postStep s x, σ => do
    let (σ, a) ← eval x σ
    step s true a σ
  | .binary (.arith op) x y, σ => do
    let (σ, a) ← eval x σ
    let (σ, b) ← eval y σ
    return (σ, .value (← arith (← a.read σ) (← b.read σ) op))
  | .binary (.rel op) x y, σ => do
    let (σ, a) ← eval x σ
    let (σ, b) ← eval y σ
    return (σ, .value (ofBool (compare (← a.read σ) (← b.read σ) op)))
  | .binary (.logic op) x y, σ => do
    let (σ, a) ← eval x σ
    let first ← truth a σ
    if op = .and && !first || op = .or && first then return (σ, .value (ofBool first))
    let (σ, b) ← eval y σ
    let second ← truth b σ
    return (σ, .value (ofBool (if op = .xor then first ^^ second else second)))
  | .assign op x y, σ => do
    let (σ, a) ← eval x σ
    match a with
    | .value _ => none
    | .place name => do
      let (σ, b) ← eval y σ
      let w ← assigned op name b σ
      return (σ.set name w, .value w)
  | .cond c x y, σ => do
    let (σ, a) ← eval c σ
    let (σ, b) ← if ← truth a σ then eval x σ else eval y σ
    return (σ, .value (← b.read σ))
  | .seq first rest, σ => do
    let (σ, a) ← eval first σ
    evalRest a rest σ
  | _, _ => none

/-- Evaluates expressions one after another; the last of them counts. -/
def evalRest (before : Found) : List Expr → Store → Option (Store × Found)
  | [], σ => some (σ, before)
  | x :: xs, σ => do
    let (σ, a) ← eval x σ
    evalRest a xs σ

end

/-- Evaluates a condition. -/
def test (c : Expr) (σ : Store) : Option (Store × Bool) := do
  let (σ, a) ← eval c σ
  return (σ, ← truth a σ)

/-! ## Statements -/

/-- How a statement ends. -/
inductive Ending where
  /-- the next statement follows -/
  | done
  /-- the loop around it is left -/
  | broken
  /-- the next round of the loop around it follows -/
  | continued
  /-- the function returns a value -/
  | returned (w : BitVec 32)
  deriving DecidableEq, Repr

/-- Executes something in a block of its own. -/
def inBlock (act : Store → Option (Store × Ending)) (σ : Store) : Option (Store × Ending) :=
  (act ([] :: σ)).map fun (σ, ending) => (σ.tail, ending)

/-- A declaration; without a value of its own a variable starts as zero. -/
def declare (d : VarDecl) (σ : Store) : Option Store :=
  match d.init with
  | none => some (σ.declare d.name.text 0)
  | some x => do
    let (σ, a) ← eval x σ
    return σ.declare d.name.text (← a.read σ)

/-- What a counting loop does first. -/
def begin (init : ForInit) (σ : Store) : Option Store :=
  match init with
  | .nothing => some σ
  | .var d => declare d σ
  | .expr x => (eval x σ).map Prod.fst

/-- The rounds of a loop, at most so many. A round tells how the loop ends, unless another one
follows. -/
def rounds (round : Store → Option (Store × Option Ending)) : Nat → Store → Option (Store × Ending)
  | 0, _ => none
  | n + 1, σ =>
    match round σ with
    | none => none
    | some (σ, some ending) => some (σ, ending)
    | some (σ, none) => rounds round n σ

/-- What a round of a loop does after its body. -/
def after (next : Store → Option (Store × Option Ending)) :
    Store × Ending → Option (Store × Option Ending)
  | (σ, .broken) => some (σ, some .done)
  | (σ, .returned w) => some (σ, some (.returned w))
  | (σ, _) => next σ

/-- Whether a loop goes on; it does if it has no condition. -/
def goesOn (c : Option Expr) (σ : Store) : Option (Store × Bool) :=
  match c with
  | none => some (σ, true)
  | some c => test c σ

/-- A round of a loop that tests first: the body and what comes behind it, if the condition
holds. -/
def testedRound (c : Option Expr) (body : Store → Option (Store × Ending))
    (next : Store → Option Store) (σ : Store) : Option (Store × Option Ending) := do
  let (σ, go) ← goesOn c σ
  if go then after (fun σ => (next σ).map fun σ => (σ, none)) (← body σ)
  else return (σ, some .done)

/-- A round of a loop that tests last. -/
def testingRound (c : Expr) (body : Store → Option (Store × Ending)) (σ : Store) :
    Option (Store × Option Ending) := do
  after (fun σ => (test c σ).map fun (σ, go) => (σ, if go then none else some .done)) (← body σ)

/-- What a counting loop does behind its body. -/
def postlude (post : Option Expr) (σ : Store) : Option Store :=
  match post with
  | none => some σ
  | some x => (eval x σ).map Prod.fst

mutual

/-- Executes a statement, with at most `n` rounds of each loop. -/
def exec (n : Nat) : Stmt → Store → Option (Store × Ending)
  | .empty _, σ => some (σ, .done)
  | .expr x, σ => (eval x σ).map fun (σ, _) => (σ, .done)
  | .var d, σ => (declare d σ).map fun σ => (σ, .done)
  | .block _ body, σ => inBlock (execs n body) σ
  | .ifThen _ c yes, σ => do
    let (σ, go) ← test c σ
    if go then inBlock (exec n yes) σ else return (σ, .done)
  | .ifElse _ c yes no, σ => do
    let (σ, go) ← test c σ
    if go then inBlock (exec n yes) σ else inBlock (exec n no) σ
  | .forLoop _ init c post body, σ =>
    inBlock (fun σ => do
      rounds (testedRound c (inBlock (exec n body)) (postlude post)) n (← begin init σ)) σ
  | .whileLoop _ c body, σ => rounds (testedRound (some c) (inBlock (exec n body)) some) n σ
  | .doLoop _ body c, σ => rounds (testingRound c (inBlock (exec n body))) n σ
  | .branch _ token, σ => some (σ, if token = .keyword .break then .broken else .continued)
  | .ret _ result, σ => do
    let (σ, a) ← eval (← result) σ
    return (σ, .returned (← a.read σ))

/-- Executes statements one after another. -/
def execs (n : Nat) : List Stmt → Store → Option (Store × Ending)
  | [], σ => some (σ, .done)
  | s :: ss, σ => do
    match ← exec n s σ with
    | (σ, .done) => execs n ss σ
    | (σ, ending) => return (σ, ending)

end

/-! ## Functions -/

/-- Executes a function, with at most `n` rounds of each loop. A function whose statements all end
returns zero. -/
def run (n : Nat) (f : FuncDecl) (args : List (BitVec 32)) : Option (BitVec 32) := do
  match ← execs n f.body [(f.params.map fun p => p.name.text).zip args] with
  | (_, .done) => return 0
  | (_, .returned w) => return w
  | _ => none

/-- The function returns a value for arguments. -/
def Yields (f : FuncDecl) (args : List (BitVec 32)) (w : BitVec 32) : Prop :=
  ∃ n, run n f args = some w

/-! ## Integer functions -/

/-- The names of the variables of the open blocks, innermost first. -/
abbrev Names := List (List String)

/-- The names with another one in the innermost block. -/
def Names.declare (name : String) : Names → Names
  | [] => [[name]]
  | frame :: ns => (frame ++ [name]) :: ns

/-- The arithmetic operators that are defined for all integers. -/
def isTotal : ArithOp → Bool
  | .add | .sub | .mul | .and | .or | .xor => true
  | _ => false

mutual

/-- Expressions over integer variables, with operators that are defined for all integers. -/
def isInt (ns : Names) : Expr → Bool
  | .name n => ns.any fun frame => frame.contains n.text
  | .number _ kind _ => kind = .int
  | .unary _ _ x => isInt ns x
  | .postStep _ x => isInt ns x
  | .binary (.arith op) x y => isTotal op && isInt ns x && isInt ns y
  | .binary _ x y => isInt ns x && isInt ns y
  | .assign op x y => op.all isTotal && isInt ns x && isInt ns y
  | .cond c x y => isInt ns c && isInt ns x && isInt ns y
  | .seq first rest => isInt ns first && areInt ns rest
  | _ => false

/-- All of some expressions are over integer variables. -/
def areInt (ns : Names) : List Expr → Bool
  | [] => true
  | x :: xs => isInt ns x && areInt ns xs

end

/-- Declarations of integer variables. -/
def isIntDecl (ns : Names) (d : VarDecl) : Bool := d.type = .int && d.init.all (isInt ns)

/-- What a counting loop may do first. -/
def isIntInit (ns : Names) : ForInit → Bool
  | .nothing => true
  | .var d => isIntDecl ns d
  | .expr x => isInt ns x

/-- The names behind what a counting loop does first. -/
def namesAfterInit (ns : Names) : ForInit → Names
  | .var d => ns.declare d.name.text
  | _ => ns

/-- The names behind a statement. -/
def namesAfter (ns : Names) : Stmt → Names
  | .var d => ns.declare d.name.text
  | _ => ns

mutual

/-- Statements that compute with integer variables. -/
def isIntStmt (ns : Names) : Stmt → Bool
  | .empty _ => true
  | .expr x => isInt ns x
  | .var d => isIntDecl ns d
  | .block _ body => areIntStmts ([] :: ns) body
  | .ifThen _ c yes => isInt ns c && isIntStmt ([] :: ns) yes
  | .ifElse _ c yes no => isInt ns c && isIntStmt ([] :: ns) yes && isIntStmt ([] :: ns) no
  | .forLoop _ init c post body =>
    isIntInit ([] :: ns) init &&
      (c.all (isInt (namesAfterInit ([] :: ns) init)) &&
        (post.all (isInt (namesAfterInit ([] :: ns) init)) &&
          isIntStmt ([] :: namesAfterInit ([] :: ns) init) body))
  | .whileLoop _ c body => isInt ns c && isIntStmt ([] :: ns) body
  | .doLoop _ body c => isIntStmt ([] :: ns) body && isInt ns c
  | .branch _ token => token = .keyword .break || token = .keyword .continue
  | .ret _ result => result.all (isInt ns)

/-- All of some statements compute with integer variables. -/
def areIntStmts (ns : Names) : List Stmt → Bool
  | [] => true
  | s :: ss => isIntStmt ns s && areIntStmts (namesAfter ns s) ss

end

/-- Functions of integers that compute with integer variables of their own. -/
def isIntFunc (f : FuncDecl) : Bool :=
  f.result = .int && f.params.all (fun p => p.storage ≠ .output && p.type = .int) &&
    areIntStmts [f.params.map fun p => p.name.text] f.body

end Shader.Meaning
