import Shader.Text.Quoted

/-!
# JSON text

JSON values and their text: two more spaces of indentation for every level, one member to a line,
the members of an object in the order of their keys, and one line end behind the whole. In strings,
quotes, backslashes and control characters are escaped, and so are `<`, `>`, `&` and the two line
separators, so that the text can stand inside a web page.
-/

namespace Shader.Text

/-- JSON values without fractions. -/
inductive Json where
  /-- a truth value -/
  | bool (b : Bool)
  /-- a number -/
  | num (n : Int)
  /-- a string -/
  | str (s : String)
  /-- a list of values -/
  | arr (items : List Json)
  /-- values with keys -/
  | obj (members : List (String × Json))

namespace Json

/-- An object whose members stand in the order of their keys. -/
def sorted (members : List (String × Json)) : Json :=
  obj (members.mergeSort fun a b => a.1 ≤ b.1)

/-- A character inside a JSON string. -/
def escapeChar (c : Char) : String :=
  if c = '"' ∨ c = '\\' then String.ofList ['\\', c]
  else
    match c.toNat with
    | 8 => "\\b"
    | 9 => "\\t"
    | 10 => "\\n"
    | 12 => "\\f"
    | 13 => "\\r"
    | n =>
      if n < 0x20 ∨ c = '<' ∨ c = '>' ∨ c = '&' ∨ n = 0x2028 ∨ n = 0x2029 then
        "\\u" ++ hexDigits 4 n
      else String.ofList [c]

/-- A JSON string. -/
def quoteJson (s : String) : String := "\"" ++ String.join (s.toList.map escapeChar) ++ "\""

/-- The line end in front of a member at a level. -/
def lineStart (level : Nat) : String := "\n" ++ String.ofList (List.replicate (2 * level) ' ')

mutual

/-- The text of a value that stands at a level of indentation. -/
def renderAt (level : Nat) : Json → String
  | bool b => if b then "true" else "false"
  | num n => toString n
  | str s => quoteJson s
  | arr [] => "[]"
  | arr (x :: xs) =>
    "[" ++ lineStart (level + 1) ++ renderAt (level + 1) x ++ renderItems (level + 1) xs ++
      lineStart level ++ "]"
  | obj [] => "\x7b\x7d"
  | obj ((key, x) :: members) =>
    "\x7b" ++ lineStart (level + 1) ++ quoteJson key ++ ": " ++ renderAt (level + 1) x ++
      renderMembers (level + 1) members ++ lineStart level ++ "\x7d"

/-- The text of the items of a list behind the first. -/
def renderItems (level : Nat) : List Json → String
  | [] => ""
  | x :: xs => "," ++ lineStart level ++ renderAt level x ++ renderItems level xs

/-- The text of the members of an object behind the first. -/
def renderMembers (level : Nat) : List (String × Json) → String
  | [] => ""
  | (key, x) :: members =>
    "," ++ lineStart level ++ quoteJson key ++ ": " ++ renderAt level x ++
      renderMembers level members

end

/-- The text of a value and a line end. -/
def render (x : Json) : String := renderAt 0 x ++ "\n"

end Json

end Shader.Text
