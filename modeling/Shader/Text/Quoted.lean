import Shader.Text.Printable

/-!
# Quoted text

Diagnostics quote characters in single quotes and texts in double quotes. A printable character
stands for itself, except for the quote in use and the backslash, which get a backslash in front.
The seven control characters that have a letter of their own are written with it; every other
character is written as its code point in lower-case hexadecimal digits: two of them for the ASCII
control characters, four or eight for the rest.
-/

namespace Shader.Text

/-- A number in hexadecimal, with zeros in front up to the given width. -/
def hexDigits (width n : Nat) : String :=
  let digits := Nat.toDigits 16 n
  String.ofList (List.replicate (width - digits.length) '0' ++ digits)

/-- The letter that stands for a control character after a backslash. -/
def controlLetter? (c : Char) : Option Char :=
  match c.toNat with
  | 7 => some 'a'
  | 8 => some 'b'
  | 9 => some 't'
  | 10 => some 'n'
  | 11 => some 'v'
  | 12 => some 'f'
  | 13 => some 'r'
  | _ => none

/-- A character as it is written between quotes of the given kind. -/
def escape (quote c : Char) : String :=
  if c = quote ∨ c = '\\' then String.ofList ['\\', c]
  else if isPrintable c then String.ofList [c]
  else
    match controlLetter? c with
    | some letter => String.ofList ['\\', letter]
    | none =>
      if c.toNat < 0x20 ∨ c.toNat = 0x7F then "\\x" ++ hexDigits 2 c.toNat
      else if c.toNat < 0x10000 then "\\u" ++ hexDigits 4 c.toNat
      else "\\U" ++ hexDigits 8 c.toNat

/-- A character in single quotes. -/
def quoteChar (c : Char) : String := "'" ++ escape '\'' c ++ "'"

/-- A text in double quotes. -/
def quote (s : String) : String :=
  "\"" ++ String.join (s.toList.map (escape '"')) ++ "\""

end Shader.Text
