import Shader.Proofs.Grammar.Relexing

/-!
# Pieces

A lexeme is a piece at the front of a text, and its text is spelled by the characters of the piece;
only the blanks that may stand behind the mark of a directive are left out. All parts of a number
that are read one after another are part of it.
-/

namespace Shader

open Text

/-- The text of a lexeme that takes certain characters: those but the blanks behind the mark of a
directive. -/
def spelling : List Char → String
  | '#' :: cs => String.ofList ('#' :: cs.dropWhile fun c => c == ' ' || c == '\t')
  | cs => String.ofList cs

theorem spelling_eq {cs : List Char} (h : cs.head? ≠ some '#') :
    spelling cs = String.ofList cs := by
  rcases cs with _ | ⟨c, cs⟩
  · rfl
  · rw [spelling]
    intro ds hds
    exact h (by rw [hds]; rfl)

namespace Lexeme

/-! ## Parts of lexemes -/

theorem append_run (p : Char → Bool) (s : List Glyph) : (run p s).1 ++ (run p s).2 = s :=
  List.takeWhile_append_dropWhile

theorem append_one (p : Char → Bool) (s : List Glyph) : (one p s).1 ++ (one p s).2 = s := by
  rcases one_cases p s with h | ⟨g, r, rfl, -, h⟩
  · rw [h]
    rfl
  · rw [h]
    rfl

theorem append_fraction (s : List Glyph) : (fraction s).1 ++ (fraction s).2 = s := by
  rcases one_cases (· == '.') s with h | ⟨g, r, rfl, -, h⟩
  · rw [fraction, h]
    rfl
  · rw [fraction, h]
    exact congrArg (g :: ·) (append_run isDigit r)

theorem append_exponent (s : List Glyph) : (exponent s).text ++ (exponent s).rest = s := by
  rcases one_cases (fun c => c == 'e' || c == 'E') s with h | ⟨g, r, rfl, -, h⟩
  · rw [exponent, h]
    rfl
  · have hsign := append_one (fun c => c == '+' || c == '-') r
    have hdigits := append_run isDigit (one (fun c => c == '+' || c == '-') r).2
    rw [exponent, h]
    simp only [List.append_assoc, hdigits, hsign]
    rfl

theorem append_suffix (integral : Bool) (s : List Glyph) :
    (suffix integral s).text ++ (suffix integral s).rest = s := by
  rcases one_cases (fun c => c == 'f' || c == 'F') s with h | ⟨g, r, rfl, -, h⟩
  · rcases one_cases (fun c => c == 'u' || c == 'U') s with h' | ⟨g, r, rfl, -, h'⟩
    · simp only [suffix, h, h', List.nil_append]
    · simp only [suffix, h, h', List.singleton_append]
  · simp only [suffix, h, List.singleton_append]

/-! ## Lexemes -/

/-- A lexeme takes a piece off the front of a text, from which it has its text. It is never the end
of the text. -/
structure Takes (s : List Glyph) (lexeme : Lexeme) (piece : List Glyph) : Prop where
  /-- the piece is in front -/
  append : piece ++ lexeme.rest = s
  /-- it spells the lexeme -/
  text : lexeme.text = spelling (piece.map Glyph.char)
  /-- the end of a text is no lexeme -/
  ne_eof : lexeme.token ≠ .eof

/-- A piece that starts with no mark of a directive is the text of its lexeme. -/
theorem Takes.plain {g : Glyph} {r piece : List Glyph} {lexeme : Lexeme}
    (happend : piece ++ lexeme.rest = g :: r) (hg : g.char ≠ '#')
    (htext : lexeme.text = spell piece) (heof : lexeme.token ≠ .eof) :
    Takes (g :: r) lexeme piece where
  append := happend
  text := by
    rw [htext, spelling_eq, spell]
    rcases piece with _ | ⟨h, piece⟩
    · exact Option.some_ne_none _ ∘ Eq.symm
    · rw [(List.cons.inj happend).1]
      intro heq
      exact hg (Option.some.inj heq)
  ne_eof := heof

/-- The piece of a lexeme that is no directive is its text. -/
theorem Takes.spell {g : Glyph} {r piece : List Glyph} {lexeme : Lexeme}
    (h : Takes (g :: r) lexeme piece) (hg : g.char ≠ '#') :
    lexeme.text.toList = piece.map Glyph.char := by
  rw [h.text, spelling_eq, String.toList_ofList]
  rcases piece with _ | ⟨g', piece⟩
  · exact Option.some_ne_none _ ∘ Eq.symm
  · obtain ⟨rfl, -⟩ := List.cons.inj h.append
    exact fun heq => hg (Option.some.inj heq)

theorem token_ofWord_ne (text : String) : Token.ofWord text ≠ .eof := by
  unfold Token.ofWord
  split
  · exact nofun
  · split
    · exact nofun
    · exact nofun

theorem takes_word {g : Glyph} {r : List Glyph} (hg : isLetter g.char = true) :
    Takes (g :: r) (word (g :: r)) (run isWordChar (g :: r)).1 := by
  apply Takes.plain (append_run isWordChar (g :: r)) _ rfl (token_ofWord_ne _)
  intro hmark
  rw [hmark] at hg
  cases hg

theorem token_number (s : List Glyph) :
    (number s).token = .error ∨ ∃ kind, (number s).token = .number kind := by
  have hcases : ∀ (fits : Bool) (kind : NumberKind),
      (if fits then Token.number kind else .error) = .error ∨
        ∃ kind', (if fits then Token.number kind else .error) = .number kind' := by
    intro fits kind
    cases fits with
    | true => exact .inr ⟨kind, rfl⟩
    | false => exact .inl rfl
  exact hcases _ _

theorem notices_number {s : List Glyph} (h : (number s).token = .error) :
    (number s).notices ≠ [] := by
  have hcases : ∃ kind, (number s).token =
      if (number s).notices.isEmpty then .number kind else .error := ⟨_, rfl⟩
  obtain ⟨kind, htoken⟩ := hcases
  intro hnil
  rw [h, hnil] at htoken
  cases htoken

theorem takes_number {g : Glyph} {r : List Glyph} (hg : g.char ≠ '#') :
    ∃ piece, Takes (g :: r) (number (g :: r)) piece := by
  have heof : (number (g :: r)).token ≠ .eof := by
    rcases token_number (g :: r) with h | ⟨kind, h⟩
    · rw [h]
      exact nofun
    · rw [h]
      exact nofun
  suffices h : ∃ piece, piece ++ (number (g :: r)).rest = g :: r ∧
      (number (g :: r)).text = spell piece by
    obtain ⟨piece, happend, htext⟩ := h
    exact ⟨piece, .plain happend hg htext heof⟩
  have hdigits := append_run isDigit (g :: r)
  rcases hwhole : run isDigit (g :: r) with ⟨whole, s₁⟩
  have hpoint := append_fraction s₁
  rcases hfraction : fraction s₁ with ⟨frac, s₂⟩
  have hexponent := append_exponent s₂
  have hsuffix := append_suffix (frac.isEmpty && (exponent s₂).text.isEmpty) (exponent s₂).rest
  have hmore := append_run (fun c => isWordChar c || c == '.')
    (suffix (frac.isEmpty && (exponent s₂).text.isEmpty) (exponent s₂).rest).rest
  rw [hwhole] at hdigits
  rw [hfraction] at hpoint
  simp only [number, hwhole, hfraction]
  refine ⟨_, ?_, rfl⟩
  simp only [List.append_assoc, hmore, hsuffix, hexponent, hpoint, hdigits]

theorem takes_directive {g : Glyph} {r : List Glyph} (hg : g.char = '#') :
    ∃ piece, Takes (g :: r) (directive r) piece := by
  let isSpace : Char → Bool := fun c => c == ' ' || c == '\t'
  let blanks := run isSpace r
  let letters := run isWordChar blanks.2
  -- no letter is a blank, so the blanks end where the letters start
  have hdrop : ((blanks.1 ++ letters.1).map Glyph.char).dropWhile isSpace =
      letters.1.map Glyph.char := by
    rw [List.map_append, List.dropWhile_append_of_pos (forall_run isSpace r)]
    have hword : ∀ c ∈ letters.1.map Glyph.char, isWordChar c = true := forall_run isWordChar _
    rcases hletters : letters.1.map Glyph.char with _ | ⟨c, cs⟩
    · rfl
    · apply List.dropWhile_cons_of_neg
      intro hspace
      rw [hletters] at hword
      have hc := hword c List.mem_cons_self
      rw [forall_or_eq (p := isWordChar) rfl rfl c hspace] at hc
      cases hc
  have htext :
      spelling ((g :: (blanks.1 ++ letters.1)).map Glyph.char) = "#" ++ spell letters.1 := by
    rw [List.map_cons, hg, spelling, hdrop, spell]
    exact @String.ofList_append ['#'] _
  have happend : g :: (blanks.1 ++ letters.1) ++ letters.2 = g :: r := by
    rw [List.cons_append, List.append_assoc, append_run, append_run]
  refine ⟨g :: (blanks.1 ++ letters.1), ?_, ?_, ?_⟩
  · rw [← happend]
    dsimp only [directive]
    split
    · rfl
    · rfl
  · rw [htext]
    dsimp only [directive]
    split
    next hversion =>
      have hname : spell letters.1 = "version" := hversion
      rw [hname]
      rfl
    · rfl
  · dsimp only [directive]
    split
    · simp
    · simp

theorem ofChar?_text {c : Char} {d : Delimiter} (h : Delimiter.ofChar? c = some d) :
    (Token.delim d).text = String.ofList [c] := by
  have hsign := List.find?_some h
  rw [Token.text, of_decide_eq_true hsign]

theorem prefix_of_head? {b : Char} {cs : List Char} (h : cs.head? = some b) : [b] <+: cs := by
  obtain ⟨ds, rfl⟩ := List.head?_eq_some_iff.1 h
  exact List.prefix_append [b] ds

theorem prefix_of_tail_head? {b c : Char} {cs : List Char} (h : cs.head? = some b)
    (h' : cs.tail.head? = some c) : [b, c] <+: cs := by
  obtain ⟨ds, rfl⟩ := List.head?_eq_some_iff.1 h
  obtain ⟨es, rfl⟩ := List.head?_eq_some_iff.1 h'
  exact List.prefix_append [b, c] es

/-- A punctuator is spelled by the characters that it takes. -/
theorem text_punctuator? {a : Char} {cs : List Char} {token : Token} {size : Nat}
    (h : punctuator? a cs.head? cs.tail.head? = some (token, size)) :
    ∃ w, w <+: cs ∧ size = w.length + 1 ∧ token.text = String.ofList (a :: w) ∧ token ≠ .eof := by
  unfold punctuator? withAssign at h
  split at h
  case h_16 =>
    obtain ⟨d, hd, heq⟩ := Option.map_eq_some_iff.1 h
    obtain ⟨rfl, rfl⟩ := Prod.mk.inj heq
    exact ⟨[], List.nil_prefix, rfl, ofChar?_text hd, nofun⟩
  all_goals repeat' split at h
  -- the sign alone, or with one or two more characters
  all_goals
    obtain ⟨rfl, rfl⟩ := Prod.mk.inj (Option.some.inj h)
    first
    | exact ⟨[], List.nil_prefix, rfl, rfl, nofun⟩
    | exact ⟨[_], prefix_of_head? ‹_›, rfl, by decide, nofun⟩
    | exact ⟨[_, _], prefix_of_tail_head? ‹_› ‹_›, rfl, by decide, nofun⟩

/-- Reading takes a piece off the front of a text. -/
theorem takes_read (g : Glyph) (r : List Glyph) : ∃ piece, Takes (g :: r) (read g r) piece := by
  unfold read
  split
  next hletter => exact ⟨_, takes_word hletter⟩
  split
  next hdigit =>
    apply takes_number
    intro hmark
    rw [hmark] at hdigit
    cases hdigit
  split
  next hmark => exact takes_directive hmark
  next hmark =>
    split
    next token size h =>
      rw [← List.head?_map, ← List.head?_map, List.map_tail] at h
      obtain ⟨w, hw, rfl, htext, heof⟩ := text_punctuator? h
      have hpiece : (g :: r.take w.length).map Glyph.char = g.char :: w := by
        rw [List.map_cons, List.map_take, ← List.prefix_iff_eq_take.1 hw]
      refine ⟨g :: r.take w.length, .plain ?_ hmark ?_ heof⟩
      · rw [List.cons_append, Nat.add_sub_cancel, List.take_append_drop]
      · rw [htext, spell, hpiece]
    next => exact ⟨[g], .plain rfl hmark rfl (by simp)⟩

/-- A piece is not empty. -/
theorem Takes.length_pos {g : Glyph} {r piece : List Glyph} (h : Takes (g :: r) (read g r) piece) :
    0 < piece.length := by
  have hle := read_rest_le g r
  have hlen := congrArg List.length h.append
  rw [List.length_append, List.length_cons] at hlen
  omega

end Lexeme

end Shader
