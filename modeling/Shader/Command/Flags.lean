import Shader.Text.Quoted

/-!
# Flags

The flags of the command line. A flag stands behind one dash or two; a switch is turned on by its
name alone and takes a truth value behind an equals sign, every other flag takes a text behind an
equals sign or as the next argument. The flags end at the first argument that is none, or behind
two dashes. The last of several uses of a flag counts.
-/

namespace Shader.Command

/-- Flags that are on or off. -/
inductive Switch where
  /-- check the tools -/
  | doctor
  /-- print the tree -/
  | emitAst
  /-- print the layout of global variables -/
  | emitLayout
  /-- print the code -/
  | emitLl
  /-- print the tokens -/
  | emitTokens
  /-- verify the code around passes -/
  | irVerify
  /-- stop at the first failure -/
  | strict
  /-- print how long the phases took -/
  | trace
  /-- print the version -/
  | version
  deriving DecidableEq, Repr

/-- Flags that hold a text. -/
inductive Field where
  /-- the format of the tree -/
  | astFormat
  /-- the pass to dump after -/
  | dumpAfter
  /-- the pass to dump before -/
  | dumpBefore
  /-- the function to dump -/
  | dumpFunc
  /-- the output file -/
  | output
  deriving DecidableEq, Repr

/-- Flags. -/
inductive Flag where
  /-- a flag that is on or off -/
  | switch (s : Switch)
  /-- a flag that holds a text -/
  | field (f : Field)
  deriving DecidableEq, Repr

/-- The text that a flag holds before it is set. -/
def Field.default : Field → String
  | astFormat => "text"
  | _ => ""

namespace Flag

/-- All flags, in the order of their names. -/
def all : List Flag :=
  [field .astFormat, switch .doctor, field .dumpAfter, field .dumpBefore, field .dumpFunc,
    switch .emitAst, switch .emitLayout, switch .emitLl, switch .emitTokens, switch .irVerify,
    field .output, switch .strict, switch .trace, switch .version]

/-- The name of a flag. -/
def name : Flag → String
  | switch .doctor => "doctor"
  | switch .emitAst => "emit-ast"
  | switch .emitLayout => "emit-layout"
  | switch .emitLl => "emit-ll"
  | switch .emitTokens => "emit-tokens"
  | switch .irVerify => "ir-verify"
  | switch .strict => "strict"
  | switch .trace => "trace"
  | switch .version => "version"
  | field .astFormat => "ast-format"
  | field .dumpAfter => "dump-after"
  | field .dumpBefore => "dump-before"
  | field .dumpFunc => "dump-func"
  | field .output => "o"

/-- What a flag is for. -/
def purpose : Flag → String
  | switch .doctor => "Check toolchain"
  | switch .emitAst => "Output AST"
  | switch .emitLayout => "Output global and uniform block layouts"
  | switch .emitLl => "Output LLVM IR to stdout (or -o)"
  | switch .emitTokens => "Output token stream"
  | switch .irVerify => "Verify IR after each pass"
  | switch .strict => "Stop lowering at the first error"
  | switch .trace => "Output timing trace"
  | switch .version => "Print version"
  | field .astFormat => "AST output format (text or json)"
  | field .dumpAfter => "Dump IR after pass (name or \"*\")"
  | field .dumpBefore => "Dump IR before pass (name or \"*\")"
  | field .dumpFunc => "Only dump specific function"
  | field .output => "Output file"

/-- The flag of a name. -/
def ofName? (name : String) : Option Flag := all.find? fun f => f.name = name

/-- The lines about a flag. -/
def help (f : Flag) : String :=
  "  -" ++ f.name ++
    match f with
    | switch _ => "\n    \t" ++ f.purpose ++ "\n"
    | field t =>
      " string\n    \t" ++ f.purpose ++
        (if t.default = "" then "" else " (default " ++ Text.quote t.default ++ ")") ++ "\n"

end Flag

/-- The version of the command. -/
def versionName : String := "0.1.0-dev"

/-- How the command is used. -/
def usage : String :=
  "glslc " ++ versionName ++ "\n\nUsage: glslc [options] <file.glsl>\n\nOptions:\n" ++
    String.join (Flag.all.map Flag.help)

/-- The values of the flags. -/
structure Settings where
  /-- the switches that are on -/
  isOn : Switch → Bool := fun _ => false
  /-- the texts -/
  value : Field → String := Field.default

namespace Settings

/-- Sets a switch. -/
def setSwitch (s : Settings) (x : Switch) (state : Bool) : Settings :=
  { s with isOn := fun y => if y = x then state else s.isOn y }

/-- Sets a text. -/
def setField (s : Settings) (x : Field) (text : String) : Settings :=
  { s with value := fun y => if y = x then text else s.value y }

end Settings

/-- What can be wrong with arguments. -/
inductive FlagError where
  /-- help is asked for -/
  | help
  /-- an argument that looks like a flag and is none -/
  | malformed (arg : String)
  /-- a flag that is not there -/
  | undefined (name : String)
  /-- a switch with a text that is no truth value -/
  | truthValue (name value : String)
  /-- a flag without its text -/
  | noValue (name : String)
  deriving DecidableEq, Repr

/-- What is said of an error, with the usage behind it. -/
def FlagError.message : FlagError → String
  | help => usage
  | malformed arg => "bad flag syntax: " ++ arg ++ "\n" ++ usage
  | undefined name => "flag provided but not defined: -" ++ name ++ "\n" ++ usage
  | truthValue name value =>
    "invalid boolean value " ++ Text.quote value ++ " for -" ++ name ++ ": parse error\n" ++ usage
  | noValue name => "flag needs an argument: -" ++ name ++ "\n" ++ usage

/-- The exit code of an error; help is none. -/
def FlagError.code : FlagError → Nat
  | help => 0
  | _ => 2

/-- The truth value that a text spells. -/
def truthValue? (text : String) : Option Bool :=
  if ["1", "t", "T", "true", "TRUE", "True"].contains text then some true
  else if ["0", "f", "F", "false", "FALSE", "False"].contains text then some false
  else none

/-- The forms of an argument. -/
inductive ArgForm where
  /-- no flag -/
  | plain
  /-- the end of the flags -/
  | endMark
  /-- a flag that has no name -/
  | malformed
  /-- a flag, perhaps with a text -/
  | flag (name : String) (value : Option String)
  deriving DecidableEq, Repr

/-- The form of what stands behind the dashes of an argument. -/
def flagForm (body : List Char) : ArgForm :=
  match body with
  | [] | '-' :: _ | '=' :: _ => .malformed
  | _ =>
    let name := String.ofList (body.takeWhile (· ≠ '='))
    match body.dropWhile (· ≠ '=') with
    | [] => .flag name none
    | _ :: value => .flag name (some (String.ofList value))

/-- The form of an argument. -/
def argForm (arg : String) : ArgForm :=
  match arg.toList with
  | ['-', '-'] => .endMark
  | '-' :: '-' :: body => flagForm body
  | '-' :: c :: body => flagForm (c :: body)
  | _ => .plain

/-- Reads the flags in front of the other arguments. -/
def readFlags (s : Settings) : List String → Except FlagError (Settings × List String)
  | [] => .ok (s, [])
  | arg :: rest =>
    match argForm arg with
    | .plain => .ok (s, arg :: rest)
    | .endMark => .ok (s, rest)
    | .malformed => .error (.malformed arg)
    | .flag name value =>
      match Flag.ofName? name with
      | none =>
        if name = "help" ∨ name = "h" then .error .help else .error (.undefined name)
      | some (.switch x) =>
        match value with
        | none => readFlags (s.setSwitch x true) rest
        | some text =>
          match truthValue? text with
          | some state => readFlags (s.setSwitch x state) rest
          | none => .error (.truthValue name text)
      | some (.field x) =>
        match value with
        | some text => readFlags (s.setField x text) rest
        | none =>
          match rest with
          | [] => .error (.noValue name)
          | text :: rest => readFlags (s.setField x text) rest

end Shader.Command
