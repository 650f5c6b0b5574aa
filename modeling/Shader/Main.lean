import Shader.Command.Run

/-!
# The command

Reads the file that the arguments name, runs the command on it, and shows what can be seen of the
run. The phases of a compilation are not timed one by one.
-/

namespace Shader.Command

/-- The version of the runtime. -/
def runtimeName : String := "go1.23"

/-- Why a file could not be opened. -/
def openFailure (name : String) : IO.Error → String
  | .noFileOrDirectory .. => "open " ++ name ++ ": no such file or directory"
  | .inappropriateType .. => "open " ++ name ++ ": is a directory"
  | .permissionDenied .. => "open " ++ name ++ ": permission denied"
  | e => "open " ++ name ++ ": " ++ toString e

/-- What is behind a name in the file system. -/
def readInput (name : String) : IO Input := do
  try
    return .contents (← IO.FS.readBinFile name).toList
  catch
    | .inappropriateType .. => return .unreadable ("read " ++ name ++ ": is a directory")
    | e => return .closed (openFailure name e)

/-- What is behind the name of the file among the arguments. -/
def inputOf (args : List String) : IO Input :=
  match readFlags {} args with
  | .ok (_, file :: _) => readInput file
  | _ => return .contents []

/-- Shows a run and writes its file. -/
def present (t : Transcript) : IO UInt32 := do
  (← IO.getStdout).putStr t.out
  (← IO.getStderr).putStr t.err
  match t.written with
  | none => return t.code.toUInt32
  | some (name, text) =>
    try
      IO.FS.writeFile name text
      return t.code.toUInt32
    catch e =>
      (← IO.getStderr).putStr (lines ["error: " ++ openFailure name e])
      return 1

end Shader.Command

open Shader.Command

/-- Runs the command. -/
def main (args : List String) : IO UInt32 := do
  let input ← inputOf args
  present (run
    { runtime := ⟨runtimeName, isRecentVersion runtimeName⟩
      duration := fun _ => "0s"
      read := fun _ => input
      refusal? := fun _ => none } args)
