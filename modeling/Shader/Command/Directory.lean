/-!
# Files

What a run can meet when it opens and makes files, and a directory of files as a model of it. A
path is read component by component; the components `.` and the empty one stand for the directory
itself. Where a file has components, the names before the last are directories.
-/

namespace Shader.Command

/-- What is behind a name. -/
inductive Input where
  /-- it cannot be opened -/
  | closed (cause : String)
  /-- it can be opened, but not be read -/
  | unreadable (cause : String)
  /-- a file with contents -/
  | contents (bytes : List UInt8)

/-- A directory: its files with their paths. -/
structure Directory where
  /-- the paths and contents of the files -/
  files : List (String × List UInt8)

/-- The components of a path. -/
def components (path : String) : List String :=
  (path.splitOn "/").filter fun c => c ≠ "" ∧ c ≠ "."

namespace Directory

/-- The contents of the file at some components. -/
def file? (d : Directory) (path : List String) : Option (List UInt8) :=
  (d.files.find? fun f => components f.1 = path).map Prod.snd

/-- Whether there is a directory at some components. -/
def isDirectory (d : Directory) (path : List String) : Bool :=
  path.all (· = "..") || d.files.any fun f => path.isPrefixOf (components f.1) &&
    path ≠ components f.1

/-- Whether a file stands where a path needs a directory. -/
def isBlocked (d : Directory) (path : List String) : Bool :=
  (List.range path.length).any fun n => (d.file? (path.take n)).isSome

/-- Why there is nothing at a path. -/
def absence (d : Directory) (name : String) : String :=
  "open " ++ name ++
    if d.isBlocked (components name) then ": not a directory" else ": no such file or directory"

/-- What is behind a name. -/
def read (d : Directory) (name : String) : Input :=
  let path := components name
  if name = "" then .closed (d.absence name)
  else
    match d.file? path with
    | some bytes =>
      if name.endsWith "/" then .closed ("open " ++ name ++ ": not a directory")
      else .contents bytes
    | none =>
      if d.isDirectory path then .unreadable ("read " ++ name ++ ": is a directory")
      else .closed (d.absence name)

/-- Why a file cannot be made under a name, if it cannot. -/
def refusal? (d : Directory) (name : String) : Option String :=
  let path := components name
  if d.isDirectory path || (name.endsWith "/" && (d.file? path).isNone) then
    some ("open " ++ name ++ ": is a directory")
  else if d.isBlocked path || name.endsWith "/" then some ("open " ++ name ++ ": not a directory")
  else if d.isDirectory path.dropLast then none
  else some ("open " ++ name ++ ": no such file or directory")

end Directory

end Shader.Command
