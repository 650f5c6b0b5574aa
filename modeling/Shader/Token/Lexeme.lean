import Shader.Text.Glyph
import Shader.Text.Quoted
import Shader.Token

/-!
# Lexemes

The piece of text that a token takes, read off the front of a sequence of glyphs. `Lexeme.read`
decides by the first glyph what follows: a word, a number, a directive, a punctuator, or a
character that starts nothing. What is wrong with a piece does not stop the reading: it is noted
together with the glyphs that were left when it was noticed, and the piece becomes an error token.
-/

namespace Shader

open Text

/-- What can be wrong with a text before it is parsed. -/
inductive LexError where
  /-- the text could not be read -/
  | unreadable (cause : String)
  /-- a byte is no part of an encoded character -/
  | illFormed
  /-- no token starts with the character -/
  | unexpected (c : Char)
  /-- nothing follows the mark of an exponent -/
  | exponentDigits
  /-- the suffix of floating-point numbers follows an integer -/
  | floatSuffix
  /-- the suffix of unsigned numbers follows a fraction or an exponent -/
  | unsignedSuffix
  /-- a number runs on into letters or points -/
  | malformed (text : String)
  /-- a directive has another name than `version` -/
  | unknownDirective (name : String)
  /-- a comment has no end -/
  | openComment
  deriving DecidableEq, Repr

/-- The wording of a lexical error. -/
def LexError.message : LexError → String
  | unreadable cause => "error reading source file: " ++ cause
  | illFormed => "invalid UTF-8 encoding"
  | unexpected c => "unexpected character " ++ quoteChar c
  | exponentDigits => "exponent has no digits"
  | floatSuffix => "float suffix on integer literal"
  | unsignedSuffix => "unsigned suffix on floating-point literal"
  | malformed text => "malformed number " ++ quote text
  | unknownDirective name => "unknown directive #" ++ name
  | openComment => "comment not terminated"

/-! ## Classes of characters -/

/-- Letters of words. -/
def isLetter (c : Char) : Bool :=
  ('a' ≤ c && c ≤ 'z') || ('A' ≤ c && c ≤ 'Z') || c == '_'

/-- Decimal digits. -/
def isDigit (c : Char) : Bool := '0' ≤ c && c ≤ '9'

/-- Letters and digits. -/
def isWordChar (c : Char) : Bool := isLetter c || isDigit c

/-- White space. -/
def isBlank (c : Char) : Bool :=
  c == ' ' || c == '\t' || c == '\r' || c == '\n' || c == '\x0c' || c == '\x0b'

/-- Whether a text starts with a character of a class. -/
def startsWith (p : Char → Bool) : List Glyph → Bool
  | [] => false
  | g :: _ => p g.char

/-- The longest run of characters of a class at the front, and what is left. -/
def run (p : Char → Bool) (s : List Glyph) : List Glyph × List Glyph :=
  (s.takeWhile fun g => p g.char, s.dropWhile fun g => p g.char)

/-- One character of a class at the front, if it has one, and what is left. -/
def one (p : Char → Bool) : List Glyph → List Glyph × List Glyph
  | [] => ([], [])
  | g :: r => if p g.char then ([g], r) else ([], g :: r)

/-- A piece of text and the token it is. -/
structure Lexeme where
  /-- the token -/
  token : Token
  /-- the text of the token -/
  text : String
  /-- what is wrong with it, each with the glyphs that were left when it was noticed -/
  notices : List (LexError × List Glyph) := []
  /-- the glyphs behind it -/
  rest : List Glyph

namespace Lexeme

/-! ## Words and directives -/

/-- A reserved word, the name of a type, or a name. -/
def word (s : List Glyph) : Lexeme :=
  let (letters, rest) := run isWordChar s
  { token := .ofWord (spell letters), text := spell letters, rest }

/-- A directive, from the glyphs behind its mark. -/
def directive (s : List Glyph) : Lexeme :=
  let (_, s) := run (fun c => c == ' ' || c == '\t') s
  let (letters, rest) := run isWordChar s
  let name := spell letters
  if name = "version" then { token := .version, text := "#version", rest }
  else
    { token := .error, text := "#" ++ name, notices := [(.unknownDirective name, rest)], rest }

/-! ## Numbers -/

/-- A point and the digits behind it. -/
def fraction (s : List Glyph) : List Glyph × List Glyph :=
  match one (· == '.') s with
  | ([], s) => ([], s)
  | (point, s) => let (digits, s) := run isDigit s; (point ++ digits, s)

/-- The mark of an exponent, its sign and its digits. -/
structure Exponent where
  /-- mark, sign and digits; empty if there is no exponent -/
  text : List Glyph := []
  /-- whether the digits are missing, noticed with these glyphs left -/
  notices : List (LexError × List Glyph) := []
  /-- the glyphs behind it -/
  rest : List Glyph

/-- The exponent at the front of a text, if there is one. -/
def exponent (s : List Glyph) : Exponent :=
  match one (fun c => c == 'e' || c == 'E') s with
  | ([], s) => { rest := s }
  | (mark, s) =>
    let (sign, s) := one (fun c => c == '+' || c == '-') s
    let (digits, rest) := run isDigit s
    { text := mark ++ sign ++ digits
      notices := if digits.isEmpty then [(.exponentDigits, s)] else []
      rest }

/-- The suffix of a number: the kind that it makes the number. -/
structure Suffix where
  /-- the suffix; empty if there is none -/
  text : List Glyph := []
  /-- the kind of the number -/
  kind : NumberKind
  /-- whether the suffix does not fit, noticed with these glyphs left -/
  notices : List (LexError × List Glyph) := []
  /-- the glyphs behind it -/
  rest : List Glyph

/-- The suffix behind a number that is an integer or has a fraction or an exponent. -/
def suffix (integral : Bool) (s : List Glyph) : Suffix :=
  match one (fun c => c == 'f' || c == 'F') s with
  | ([], s) =>
    match one (fun c => c == 'u' || c == 'U') s with
    | ([], s) => { kind := if integral then .int else .double, rest := s }
    | (mark, rest) =>
      { text := mark, kind := .uint, rest
        notices := if integral then [] else [(.unsignedSuffix, s)] }
  | (mark, rest) =>
    { text := mark, kind := .float, rest
      notices := if integral then [(.floatSuffix, s)] else [] }

/-- A number: digits, a fraction, an exponent and a suffix, as far as they are there. Letters,
digits and points that follow belong to it and make it malformed. -/
def number (s : List Glyph) : Lexeme :=
  let (whole, s) := run isDigit s
  let (fraction, s) := fraction s
  let exponent := exponent s
  let integral := fraction.isEmpty && exponent.text.isEmpty
  let suffix := suffix integral exponent.rest
  let (tail, rest) := run (fun c => isWordChar c || c == '.') suffix.rest
  let text := spell (whole ++ fraction ++ exponent.text ++ suffix.text ++ tail)
  let notices := exponent.notices ++ suffix.notices ++
    if tail.isEmpty then [] else [(.malformed text, rest)]
  { token := if notices.isEmpty then .number suffix.kind else .error, text, notices, rest }

/-! ## Punctuators -/

/-- An operator that may be followed by an equality sign, and how many characters it takes. -/
def withAssign (op : ArithOp) (next : Option Char) (size : Nat) : Token × Nat :=
  if next = some '=' then (.assign (some op), size + 1) else (.binary (.arith op), size)

/-- The longest operator or delimiter that starts with the character `a`, followed by `b` and `c`,
and how many characters it takes. -/
def punctuator? (a : Char) (b c : Option Char) : Option (Token × Nat) :=
  match a with
  | '+' => some (if b = some '+' then (.step .inc, 2) else withAssign .add b 1)
  | '-' => some (if b = some '-' then (.step .dec, 2) else withAssign .sub b 1)
  | '*' => some (withAssign .mul b 1)
  | '/' => some (withAssign .div b 1)
  | '%' => some (withAssign .rem b 1)
  | '&' => some (if b = some '&' then (.binary (.logic .and), 2) else withAssign .and b 1)
  | '|' => some (if b = some '|' then (.binary (.logic .or), 2) else withAssign .or b 1)
  | '^' => some (if b = some '^' then (.binary (.logic .xor), 2) else withAssign .xor b 1)
  | '<' =>
    some (if b = some '<' then withAssign .shl c 2
      else if b = some '=' then (.binary (.rel .le), 2) else (.binary (.rel .lt), 1))
  | '>' =>
    some (if b = some '>' then withAssign .shr c 2
      else if b = some '=' then (.binary (.rel .ge), 2) else (.binary (.rel .gt), 1))
  | '=' => some (if b = some '=' then (.binary (.rel .eq), 2) else (.assign none, 1))
  | '!' => some (if b = some '=' then (.binary (.rel .ne), 2) else (.not, 1))
  | '~' => some (.tilde, 1)
  | '?' => some (.question, 1)
  | ':' => some (.colon, 1)
  | _ => (Delimiter.ofChar? a).map fun d => (.delim d, 1)

/-! ## Reading -/

/-- The lexeme that starts with the glyph `g`, which is followed by the glyphs `r`. -/
def read (g : Glyph) (r : List Glyph) : Lexeme :=
  if isLetter g.char then word (g :: r)
  else if isDigit g.char || (g.char == '.' && startsWith isDigit r) then number (g :: r)
  else if g.char = '#' then directive r
  else
    match punctuator? g.char (r.head?.map Glyph.char) (r.tail.head?.map Glyph.char) with
    | some (token, size) => { token, text := token.text, rest := r.drop (size - 1) }
    | none =>
      { token := .error, text := String.ofList [g.char]
        notices := [(.unexpected g.char, g :: r)], rest := r }

/-! ## Progress

Every lexeme takes at least its first glyph, so that reading one after another comes to an end. -/

theorem run_rest_le (p : Char → Bool) (s : List Glyph) : (run p s).2.length ≤ s.length :=
  (List.dropWhile_suffix _).length_le

theorem run_cons_rest_le (p : Char → Bool) (g : Glyph) (r : List Glyph) (h : p g.char = true) :
    (run p (g :: r)).2.length ≤ r.length := by
  simpa [run, List.dropWhile_cons, h] using run_rest_le p r

theorem one_rest_le (p : Char → Bool) (s : List Glyph) : (one p s).2.length ≤ s.length := by
  rcases s with _ | ⟨g, r⟩
  · simp [one]
  · simp only [one]
    split <;> simp

theorem fraction_rest_le (s : List Glyph) : (fraction s).2.length ≤ s.length := by
  have h := one_rest_le (· == '.') s
  simp only [fraction]
  split
  · next heq => simpa [heq] using h
  · next point t _ heq =>
    have := run_rest_le isDigit t
    simp only [heq] at h
    exact Nat.le_trans this h

theorem exponent_rest_le (s : List Glyph) : (exponent s).rest.length ≤ s.length := by
  have h := one_rest_le (fun c => c == 'e' || c == 'E') s
  simp only [exponent]
  split
  · next heq => simpa [heq] using h
  · next mark t _ heq =>
    have h₁ := one_rest_le (fun c => c == '+' || c == '-') t
    have h₂ := run_rest_le isDigit (one (fun c => c == '+' || c == '-') t).2
    simp only [heq] at h
    exact Nat.le_trans h₂ (Nat.le_trans h₁ h)

theorem suffix_rest_le (integral : Bool) (s : List Glyph) :
    (suffix integral s).rest.length ≤ s.length := by
  have h := one_rest_le (fun c => c == 'f' || c == 'F') s
  simp only [suffix]
  split
  · next t heq =>
    simp only [heq] at h
    have h₁ := one_rest_le (fun c => c == 'u' || c == 'U') t
    split
    · next heq₁ => simp only [heq₁] at h₁; exact Nat.le_trans h₁ h
    · next heq₁ => simp only [heq₁] at h₁; exact Nat.le_trans h₁ h
  · next heq => simpa [heq] using h

theorem number_rest_le (g : Glyph) (r : List Glyph)
    (h : isDigit g.char = true ∨ g.char = '.') : (number (g :: r)).rest.length ≤ r.length := by
  have later : ∀ s : List Glyph, ∀ integral : Bool,
      (run (fun c => isWordChar c || c == '.')
        (suffix integral (exponent s).rest).rest).2.length ≤ s.length := fun s integral =>
    Nat.le_trans (run_rest_le _ _)
      (Nat.le_trans (suffix_rest_le _ _) (exponent_rest_le _))
  refine Nat.le_trans (later (fraction (run isDigit (g :: r)).2).2 _) ?_
  by_cases hd : isDigit g.char = true
  · exact Nat.le_trans (fraction_rest_le _) (run_cons_rest_le _ _ _ hd)
  · have hp : g.char = '.' := h.resolve_left hd
    have hs : (run isDigit (g :: r)).2 = g :: r := by
      simp [run, hd]
    rw [hs]
    have : (fraction (g :: r)).2 = (run isDigit r).2 := by
      simp [fraction, one, hp]
    rw [this]
    exact run_rest_le _ _

theorem directive_rest_le (s : List Glyph) : (directive s).rest.length ≤ s.length := by
  have h := Nat.le_trans (run_rest_le isWordChar (run (fun c => c == ' ' || c == '\t') s).2)
    (run_rest_le (fun c => c == ' ' || c == '\t') s)
  simp only [directive]
  split <;> exact h

/-- What is left behind a lexeme is no longer than what follows its first glyph. -/
theorem read_rest_le (g : Glyph) (r : List Glyph) : (read g r).rest.length ≤ r.length := by
  unfold read
  split
  · next h =>
    exact run_cons_rest_le isWordChar g r (by simp [isWordChar, h])
  · split
    · next h =>
      refine number_rest_le g r ?_
      rcases Bool.or_eq_true_iff.1 h with h | h
      · exact .inl h
      · exact .inr (by simpa using (Bool.and_eq_true_iff.1 h).1)
    · split
      · exact directive_rest_le r
      · split
        · simp
        · simp

end Lexeme

end Shader
