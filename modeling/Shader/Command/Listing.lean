import Shader.DataType.Block
import Shader.Token.Scan
import Shader.Tree

/-!
# Listings

Tables of what a shader is made of: its tokens with their positions, and its global variables with
their sizes, followed by the block that its uniforms make up.
-/

namespace Shader.Command

/-- A text with blanks behind it up to a width. -/
def padRight (width : Nat) (text : String) : String :=
  text ++ String.ofList (List.replicate (width - text.length) ' ')

/-! ## Tokens -/

/-- A line of the table of tokens. -/
def tokenRow (pos token text : String) : String :=
  padRight 20 pos ++ " " ++ padRight 12 token ++ " " ++ text ++ "\n"

/-- A line of dashes. -/
def dashes (n : Nat) : String := String.ofList (List.replicate n '-')

/-- The line of an item; an item without a text shows two quotes. -/
def itemRow (item : Item) : String :=
  tokenRow item.pos.text item.token.text (if item.text = "" then "\"\"" else item.text)

/-- The table of the items of a text, and what is wrong with the text. -/
def tokenTable (scan : Scan) : String :=
  tokenRow "POSITION" "TOKEN" "LITERAL" ++ tokenRow (dashes 20) (dashes 12) (dashes 20) ++
    String.join (scan.items.map itemRow) ++
    if scan.reports.isEmpty then ""
    else "\nErrors:\n" ++ String.join (scan.reports.map fun r => "  " ++ r.text ++ "\n")

/-! ## Layouts -/

/-- The declaration of a global variable without its value. -/
def declarationText (g : GlobalVar) : String :=
  let qualifier := if g.storage = .plain then "" else g.storage.qualifier ++ " "
  let entries := g.layout.map fun e => e.key ++ " = " ++ toString e.value
  (if entries.isEmpty then "" else "layout(" ++ ", ".intercalate entries ++ ") ") ++
    qualifier ++ g.var.type.name ++ " " ++ g.var.name.text

/-- The size and alignment of a type. -/
def measures (t : DataType) : String :=
  "size: " ++ toString t.byteSize ++ ", align: " ++ toString t.alignment

/-- The line of a global variable. -/
def globalRow (g : GlobalVar) : String :=
  padRight 40 (declarationText g) ++ " // " ++ measures g.var.type ++ "\n"

/-- The line of a member of the block of uniforms. -/
def memberRow (v : VarDecl) (offset : Int64) : String :=
  "    " ++ padRight 10 v.name.text ++ " " ++ padRight 8 v.type.name ++ " // offset: " ++
    toString offset ++ ", " ++ measures v.type ++ "\n"

/-- The block that uniforms make up. -/
def blockTable (uniforms : List VarDecl) : String :=
  let (offsets, size) := Block.layout (uniforms.map fun v => (v.type.byteSize, v.type.alignment))
  "\n=== Uniform Block (std140) ===\n\nuniform \x7b\n" ++
    String.join (List.zipWith memberRow uniforms offsets) ++ "\x7d\n// size: " ++ toString size ++
    "\n"

/-- The global variables of a shader and the block of its uniforms, if it has any. -/
def layoutTable (p : Program) : String :=
  let globals := p.defs.filterMap fun
    | .global g => some g
    | .func _ => none
  let uniforms := (globals.filter fun g => g.storage = .uniform).map GlobalVar.var
  "=== Globals ===\n\n" ++ String.join (globals.map globalRow) ++
    if uniforms.isEmpty then "" else blockTable uniforms

end Shader.Command
