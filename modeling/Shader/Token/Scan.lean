import Shader.Token.Lexeme

/-!
# Scanning

A source is scanned into items and reports. Between the lexemes stand gaps of white space and
comments, which carry no meaning; the last item marks the end of the text.

Reports come in the order in which reading meets their causes. An ill-formed byte is met when
reading reaches it, before anything else that is noticed there, so the reports on ill-formed bytes
are merged with those on lexemes by the number of glyphs left.
-/

namespace Shader

open Text

/-- A text to be scanned. -/
structure Source where
  /-- the name of the text -/
  file : String := ""
  /-- the bytes of the text -/
  bytes : List UInt8 := []
  /-- why the text could not be read, if it could not -/
  failure : Option String := none

/-! ## Gaps -/

/-- Where in a gap reading stands. -/
inductive GapMode where
  /-- between lexemes -/
  | between
  /-- in a comment that ends with its line -/
  | line
  /-- at the star that opens a comment with the given first glyph -/
  | opened (start : Glyph)
  /-- in a comment that needs an end mark -/
  | block (start : Glyph)
  /-- in such a comment, behind a star -/
  | star (start : Glyph)

/-- A gap that has been read. -/
structure Gap where
  /-- the glyphs behind the gap -/
  rest : List Glyph
  /-- the start of a comment that has no end -/
  unclosed : Option Glyph := none

/-- Reads white space and comments. -/
def Gap.skip : GapMode → List Glyph → Gap
  | .between, [] | .line, [] => { rest := [] }
  | .opened start, [] | .block start, [] | .star start, [] => { rest := [], unclosed := some start }
  | .between, g :: r =>
    if isBlank g.char then skip .between r
    else if g.char = '/' then
      if startsWith (· == '/') r then skip .line r
      else if startsWith (· == '*') r then skip (.opened g) r
      else { rest := g :: r }
    else { rest := g :: r }
  | .line, g :: r => if g.char = '\n' then skip .between r else skip .line r
  | .opened start, _ :: r => skip (.block start) r
  | .block start, g :: r => if g.char = '*' then skip (.star start) r else skip (.block start) r
  | .star start, g :: r =>
    if g.char = '/' then skip .between r
    else if g.char = '*' then skip (.star start) r
    else skip (.block start) r

theorem Gap.skip_rest_le (mode : GapMode) (s : List Glyph) :
    (Gap.skip mode s).rest.length ≤ s.length := by
  induction s generalizing mode with
  | nil => cases mode <;> simp [Gap.skip]
  | cons g r ih =>
    have step : ∀ m : GapMode, (Gap.skip m r).rest.length ≤ (g :: r).length := fun m =>
      Nat.le_succ_of_le (ih m)
    cases mode <;> simp only [Gap.skip] <;> (try split) <;> (try split) <;> (try split) <;>
      (try split) <;> first | exact step _ | exact Nat.le_refl _

/-! ## Items -/

/-- Something wrong, where it is reported, and how many glyphs were left when it was noticed. -/
structure Notice where
  /-- the glyphs that were left -/
  left : Nat
  /-- where it is reported -/
  pos : Pos
  /-- what is wrong -/
  error : LexError

/-- The result of scanning. -/
structure Scan where
  /-- the items, the last of which is the end of the text -/
  items : List Item
  /-- what is wrong with the text, in the order of reading -/
  reports : List Report

namespace Scan

/-- The position of a glyph. -/
def posOf (file : String) (g : Glyph) : Pos := ⟨file, g.line, g.col, g.index⟩

/-- The position of the first of the glyphs left, or of the end of the text. -/
def posAt (file : String) (last : Pos) : List Glyph → Pos
  | [] => last
  | g :: _ => posOf file g

/-- The items of a sequence of glyphs and what is wrong with their lexemes. -/
def lexemes (file : String) (last : Pos) (s : List Glyph) : List Item × List Notice :=
  let gap := Gap.skip .between s
  let opened := gap.unclosed.toList.map fun g => ⟨0, posOf file g, .openComment⟩
  match _h : gap.rest with
  | [] => ([⟨.eof, "", last⟩], opened)
  | g :: r =>
    let lexeme := Lexeme.read g r
    let notices := lexeme.notices.map fun n => ⟨n.2.length, posAt file last n.2, n.1⟩
    let (items, more) := lexemes file last lexeme.rest
    (⟨lexeme.token, lexeme.text, posOf file g⟩ :: items, opened ++ notices ++ more)
termination_by s.length
decreasing_by
  have h₁ := Gap.skip_rest_le .between s
  have h₂ := Lexeme.read_rest_le g r
  have h₃ : (Gap.skip .between s).rest.length = r.length + 1 := by
    rw [show (Gap.skip .between s).rest = g :: r from _h]; rfl
  omega

/-- The ill-formed bytes of a sequence of glyphs. -/
def illFormed (file : String) : List Glyph → List Notice
  | [] => []
  | g :: r =>
    if g.wellFormed then illFormed file r
    else ⟨r.length + 1, posOf file g, .illFormed⟩ :: illFormed file r

end Scan

/-- Scans a source. A source that could not be read is an end of text before the first column. -/
def Source.scan (s : Source) : Scan :=
  match s.failure with
  | some cause =>
    let start : Pos := ⟨s.file, 1, 0, 0⟩
    { items := [⟨.eof, "", start⟩], reports := [⟨start, (LexError.unreadable cause).message⟩] }
  | none =>
    let (glyphs, line, col, index) := arrange 1 1 1 (decode s.bytes)
    let (items, notices) := Scan.lexemes s.file ⟨s.file, line, col, index⟩ glyphs
    let notices := (Scan.illFormed s.file glyphs).merge notices fun a b => b.left ≤ a.left
    { items, reports := notices.map fun n => ⟨n.pos, n.error.message⟩ }

end Shader
