/-!
# Scopes

The declarations that a walk over nested blocks can see: a frame for the outermost scope, which is
never closed, and the frames of the blocks that are open, innermost first. A name refers to its
declaration in the innermost frame that has one; a frame declares a name at most once.
-/

namespace Shader

/-- A declared name, its type and where its value is kept. -/
structure Symbol (τ α : Type) where
  /-- the declared name -/
  name : String
  /-- the declared type -/
  type : τ
  /-- where the value is kept -/
  handle : α
  /-- whether it may only be initialized -/
  isConst : Bool := false
  deriving DecidableEq, Repr

/-- The declarations of one block, in their order. -/
abbrev Frame (τ α : Type) := List (Symbol τ α)

/-- The declaration of a name in a frame. -/
def Frame.find? {τ α : Type} (f : Frame τ α) (name : String) : Option (Symbol τ α) :=
  List.find? (fun s => s.name = name) f

/-- The open scopes. -/
structure Scopes (τ α : Type) where
  /-- the frames of the open blocks, innermost first -/
  inner : List (Frame τ α) := []
  /-- the outermost frame -/
  root : Frame τ α := []
  deriving DecidableEq, Repr

namespace Scopes

variable {τ α : Type}

/-- No declaration, and only the outermost scope open. -/
def empty : Scopes τ α := {}

/-- All frames, innermost first. -/
def frames (s : Scopes τ α) : List (Frame τ α) := s.inner ++ [s.root]

/-- Opens a block. -/
def enter (s : Scopes τ α) : Scopes τ α := { s with inner := [] :: s.inner }

/-- Closes the innermost block; the outermost scope cannot be closed. -/
def exit? (s : Scopes τ α) : Option (Scopes τ α) :=
  match s.inner with
  | [] => none
  | _ :: inner => some { s with inner }

/-- The innermost frame. -/
def top (s : Scopes τ α) : Frame τ α :=
  match s.inner with
  | [] => s.root
  | f :: _ => f

/-- Replaces the innermost frame. -/
def setTop (s : Scopes τ α) (f : Frame τ α) : Scopes τ α :=
  match s.inner with
  | [] => { s with root := f }
  | _ :: inner => { s with inner := f :: inner }

/-- The declaration that a name refers to. -/
def lookup? (s : Scopes τ α) (name : String) : Option (Symbol τ α) :=
  s.frames.findSome? fun f => f.find? name

/-- Declares a symbol in the innermost frame. If the frame has the name already, nothing changes
and the earlier declaration is the error. -/
def declare (s : Scopes τ α) (sym : Symbol τ α) : Except (Symbol τ α) (Scopes τ α) :=
  match s.top.find? sym.name with
  | some earlier => .error earlier
  | none => .ok (s.setTop (s.top ++ [sym]))

/-- What is said of a name that a frame already declares. -/
def redeclaredMessage (name : String) : String := name ++ ": redeclared in this block"

/-- Sets whether the first symbol of a name is constant. -/
def markFrame (name : String) (isConst : Bool) : Frame τ α → Frame τ α
  | [] => []
  | sym :: f =>
    if sym.name = name then { sym with isConst } :: f else sym :: markFrame name isConst f

/-- Sets whether the declaration of a name is constant, in the first frame that has it. -/
def markFrames (name : String) (isConst : Bool) : List (Frame τ α) → List (Frame τ α)
  | [] => []
  | f :: fs =>
    if (f.find? name).isSome then markFrame name isConst f :: fs
    else f :: markFrames name isConst fs

/-- Sets whether the declaration that a name refers to is constant. -/
def mark (s : Scopes τ α) (name : String) (isConst : Bool) : Scopes τ α :=
  if s.inner.any fun f => (f.find? name).isSome then
    { s with inner := markFrames name isConst s.inner }
  else { s with root := markFrame name isConst s.root }

@[simp] theorem exit?_enter (s : Scopes τ α) : s.enter.exit? = some s := rfl

@[simp] theorem top_setTop (s : Scopes τ α) (f : Frame τ α) : (s.setTop f).top = f := by
  rcases s with ⟨_ | ⟨g, inner⟩, root⟩ <;> rfl

end Scopes

end Shader
