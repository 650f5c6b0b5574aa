import Shader.Command.Compile
import Shader.Command.Directory
import Shader.Command.Flags
import Shader.Command.Listing
import Shader.Ir.Printer
import Shader.Tree.Document
import Shader.Tree.Outline

/-!
# Runs of the command

A run of the command as a function of its arguments and of what it finds around it: the files, the
runtime that it was built with, and how long its phases take. The answer is everything that can be
seen of the run: the exit code, both outputs, and the file that it writes.
-/

namespace Shader.Command

open Ir

/-! ## Surroundings -/

/-- The runtime that the command was built with. -/
structure Runtime where
  /-- its version -/
  name : String
  /-- whether the version is recent enough -/
  isRecent : Bool

/-- Blanks within a line, in any script. -/
def isSpacing (c : Char) : Bool :=
  let n := c.toNat
  (0x2000 ≤ n && n ≤ 0x200A) ||
    [0x09, 0x0B, 0x0C, 0x0D, 0x20, 0x85, 0xA0, 0x1680, 0x2028, 0x2029, 0x202F, 0x205F,
      0x3000].contains n

/-- The integer that a text starts with, behind blanks and a sign; zero if there is none or if it
does not fit sixty-four bits. -/
def leadingInt (text : List Char) : Int :=
  let text := text.dropWhile isSpacing
  let digits (text : List Char) : Nat := Numeral.ofDigits (text.takeWhile Char.isDigit)
  let n : Int :=
    match text with
    | '-' :: text => -digits text
    | '+' :: text => digits text
    | text => digits text
  if -Numeral.wordBound ≤ n ∧ n < Numeral.wordBound then n else 0

/-- Whether a version of the runtime is recent enough: 1.23, or a first number from 2 on, which is
compared as a text. -/
def isRecentVersion (name : String) : Bool :=
  match name.toList with
  | 'g' :: 'o' :: numbers =>
    match (String.ofList numbers).splitOn "." with
    | major :: minor :: _ => if major = "1" then 23 ≤ leadingInt minor.toList else "2" ≤ major
    | _ => false
  | _ => false

/-- What a run finds around it. -/
structure Surroundings where
  /-- the runtime -/
  runtime : Runtime
  /-- how long a phase takes, and all phases together -/
  duration : Option Phase → String
  /-- what is behind a name -/
  read : String → Input
  /-- why a file cannot be made under a name -/
  refusal? : String → Option String

/-- What can be seen of a run. -/
structure Transcript where
  /-- the exit code -/
  code : Nat
  /-- the standard output -/
  out : String := ""
  /-- the error output -/
  err : String := ""
  /-- the name and contents of the file that is written -/
  written : Option (String × String) := none
  deriving DecidableEq, Repr

/-- A run that ends with an error. -/
def Transcript.error (message : String) : Transcript := { code := 1, err := lines [message] }

/-! ## Reports about the command -/

/-- The version of the command and of its runtime. -/
def versionRun (w : Surroundings) : Transcript :=
  { code := 0, out := lines ["glslc version " ++ versionName, "go version " ++ w.runtime.name] }

/-- The tools that work on code, none of which is needed. -/
def optionalTools : List String := ["llvm-as", "opt", "llc"]

/-- A check of the tools; those that are not needed are not looked for. -/
def doctorRun (w : Surroundings) : Transcript :=
  let ok := w.runtime.isRecent
  { code := if ok then 0 else 1
    out := lines (["glslc Toolchain Doctor", "======================", "",
      "Go:      " ++ w.runtime.name ++ if ok then " ✓" else " ✗ (need 1.23+)"] ++
      (optionalTools.map fun tool => padRight 8 (tool ++ ":") ++ "  (optional, not found)") ++
      ["", if ok then "All required tools available!" else "Some required tools are missing."]) }

/-! ## Reports about a shader -/

/-- Prints the tokens of a file. -/
def tokensRun (w : Surroundings) (file : String) : Transcript :=
  let table (source : Source) : Transcript :=
    let scan := source.scan
    { code := if scan.reports.isEmpty then 0 else 1, out := tokenTable scan }
  match w.read file with
  | .closed cause => .error ("error: " ++ cause)
  | .unreadable cause => table { file, bytes := [], failure := some cause }
  | .contents bytes => table { file, bytes, failure := none }

/-- Parses a file and goes on with its tree. -/
def withProgram (w : Surroundings) (file : String) (act : Program → Transcript) : Transcript :=
  let parsed (source : Source) : Transcript :=
    let parse := source.parse
    match parse.program with
    | none => { code := 1, err := lines (parse.reports.map Report.text) }
    | some p => act p
  match w.read file with
  | .closed cause => .error ("error: " ++ cause)
  | .unreadable cause => parsed { file, bytes := [], failure := some cause }
  | .contents bytes => parsed { file, bytes, failure := none }

/-- Prints the tree of a file in a format. -/
def treeRun (w : Surroundings) (file format : String) : Transcript :=
  withProgram w file fun p =>
    match format with
    | "json" => { code := 0, out := (p.document .empty).render }
    | "text" => { code := 0, out := Outline.render p.outline }
    | format => .error ("error: unknown AST format " ++ Text.quote format)

/-- Prints the layout of the global variables of a file. -/
def layoutRun (w : Surroundings) (file : String) : Transcript :=
  withProgram w file fun p => { code := 0, out := layoutTable p }

/-! ## Compilation -/

/-- The lines about the time that phases took. -/
def traceText (w : Surroundings) (phases : List Phase) : String :=
  let row (name : String) (phase : Option Phase) : String :=
    "trace: " ++ padRight 8 name ++ " " ++ w.duration phase
  lines (phases.map (fun p => row p.name (some p)) ++ [row "total" none])

/-- Writes code to a file, or to the standard output if the file has no name. The file is made
before the code is printed, so that it stays empty if that breaks down. -/
def writeModule (w : Surroundings) (target : String) (m : Module) : Transcript × Option Fault :=
  let text := m.print.2
  if target = "" then
    match text with
    | .ok text => ({ code := 0, out := text }, none)
    | .error fault => ({ code := 2 }, some fault)
  else
    match w.refusal? target, text with
    | some cause, _ => (.error ("error: " ++ cause), none)
    | none, .ok text => ({ code := 0, written := some (target, text) }, none)
    | none, .error fault => ({ code := 2, written := some (target, "") }, some fault)

/-- What can be seen of a compilation. -/
def Compilation.transcript (c : Compilation) (w : Surroundings) (target : String) (trace : Bool) :
    Transcript :=
  let (t, fault) : Transcript × Option Fault :=
    match c.ending with
    | .failed => ({ code := 1 }, none)
    | .broken fault => ({ code := 2 }, some fault)
    | .done m => writeModule w target m
  let panic := fault.map fun f => "panic: " ++ f.message?.getD ""
  { t with
    err := c.log ++ t.err ++ (if trace then traceText w c.phases else "") ++ lines panic.toList }

/-- Compiles a file. -/
def compileRun (w : Surroundings) (s : Settings) (file target : String) : Transcript :=
  match w.read file with
  | .closed cause | .unreadable cause => .error ("error: " ++ cause)
  | .contents bytes =>
    let passes : PassOptions :=
      { dumpBefore := s.value .dumpBefore, dumpAfter := s.value .dumpAfter
        dumpFunc := s.value .dumpFunc, verify := s.isOn .irVerify }
    (compile file bytes { strict := s.isOn .strict, passes }).transcript w target (s.isOn .trace)

/-! ## The command -/

/-- A path without the part of its last component from the last point on. -/
def dropExtension (path : String) : String :=
  let last := path.toList.reverse.takeWhile (· ≠ '/')
  if last.contains '.' then
    String.ofList ((path.toList.reverse.dropWhile (· ≠ '.')).drop 1).reverse
  else path

/-- The file that code goes to; none if it goes to the standard output. -/
def targetOf (s : Settings) (file : String) : String :=
  if s.value .output = "" && !s.isOn .emitLl then dropExtension file ++ ".ll" else s.value .output

/-- A run with settings and the other arguments, of which only the first counts. -/
def runWith (w : Surroundings) (s : Settings) (args : List String) : Transcript :=
  if s.isOn .version then versionRun w
  else if s.isOn .doctor then doctorRun w
  else
    match args with
    | [] =>
      { code := 1
        err := lines ["error: no input file", "usage: glslc [options] <file.glsl>"] }
    | file :: _ =>
      if s.isOn .emitTokens then tokensRun w file
      else if s.isOn .emitAst then treeRun w file (s.value .astFormat)
      else if s.isOn .emitLayout then layoutRun w file
      else compileRun w s file (targetOf s file)

/-- A run of the command. -/
def run (w : Surroundings) (args : List String) : Transcript :=
  match readFlags {} args with
  | .error e => { code := e.code, err := e.message }
  | .ok (s, args) => runWith w s args

end Shader.Command
