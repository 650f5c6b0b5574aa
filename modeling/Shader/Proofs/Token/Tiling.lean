import Mathlib.Data.List.Forall2
import Shader.Proofs.Token.Gaps
import Shader.Proofs.Token.Notices
import Shader.Proofs.Token.Pieces

/-!
# How items lie in a text

Scanning loses nothing of a text: the pieces that the items take and the gaps between them follow
each other without a hole, from the start of the text to its end. An item has the place at which its
piece starts, and is spelled by the piece. What is wrong with a text that is not about its lexemes
is reported where it is: a comment that misses its end mark where it starts, and each ill-formed
byte at its own place, once, whether it stands in a lexeme, in a comment or between them.

Positions are counted in words of 32 bits. They are exact in a text of fewer than `2 ^ 32 - 1`
characters, but not in every text with one character more, because the end of the text has a
position too.
-/

namespace Shader

open Text

/-- Items that lie one behind the other in a text, from a certain place on. There are `m` of them in
front of the end of the text. Item `i` takes the characters from `start i` on up to
`behind (i + 1)`; what stands between it and the item in front of it, from `behind i` on, is a gap.
`At` tells which positions the characters have. -/
structure Tiling (At : Nat → Pos → Prop) (text : List Char) (init : Nat) (items : List Item)
    (m : Nat) (start behind : Nat → Nat) : Prop where
  /-- behind the others stands the end of the text -/
  length : items.length = m + 1
  /-- this is where reading starts -/
  first : behind 0 = init
  /-- in front of an item stands a gap -/
  gap : ∀ i < m, behind i ≤ start i ∧ IsGap (text.extract (behind i) (start i))
  /-- an item takes characters, has the position of the first of them, and is spelled by all -/
  piece : ∀ i < m, start i < behind (i + 1) ∧ ∃ item, items[i]? = some item ∧ item.token ≠ .eof ∧
    At (start i) item.pos ∧ item.text = spelling (text.extract (start i) (behind (i + 1)))
  /-- the last item is the end of the text -/
  last : behind m ≤ start m ∧ start m = text.length ∧
    ∃ pos, At (start m) pos ∧ items[m]? = some ⟨.eof, "", pos⟩

/-- A position is exact: its line is one more than the number of line ends in front of the
character, and its column is one more than the number of characters since the last of them. -/
def IsExact (file : String) (text : List Char) (offset : Nat) (p : Pos) : Prop :=
  p.file = file ∧ (p.line.toNat, p.col.toNat) = placeAfter (text.take offset)

/-- Positions are exact where the line and the column behind the text fit into words. -/
theorem isExact_place (file : String) {text : List Char} (h : text.length < UInt32.size - 1)
    (offset : Nat) : IsExact file text offset (place file text offset) :=
  ⟨rfl, toNat_countAfter ((List.take_sublist offset text).length_le.trans_lt h)⟩

/-- Numbers behind a first one. -/
def shift (first : Nat) (more : Nat → Nat) : Nat → Nat
  | 0 => first
  | i + 1 => more i

section

variable {At : Nat → Pos → Prop} {text : List Char} {items : List Item} {m : Nat}
  {start behind : Nat → Nat}

/-- An item lies in front of others. -/
theorem Tiling.cons {init o k : Nat} {item : Item} (h : Tiling At text k items m start behind)
    (hgap : init ≤ o ∧ IsGap (text.extract init o)) (hpiece : o < k) (heof : item.token ≠ .eof)
    (hpos : At o item.pos) (htext : item.text = spelling (text.extract o k)) :
    Tiling At text init (item :: items) (m + 1) (shift o start) (shift init behind) where
  length := by rw [List.length_cons, h.length]
  first := rfl
  gap := fun i hi => by
    cases i with
    | zero => exact hgap
    | succ i => exact h.gap i (Nat.lt_of_succ_lt_succ hi)
  piece := fun i hi => by
    cases i with
    | zero =>
      have hk : shift init behind 1 = k := h.first
      rw [hk]
      exact ⟨hpiece, item, rfl, heof, hpos, htext⟩
    | succ i => exact h.piece i (Nat.lt_of_succ_lt_succ hi)
  last := h.last

/-- Where reading stands at the last gap, only the end of the text is left. -/
theorem Tiling.eof {k : Nat} {pos : Pos} (h : k ≤ text.length) (hpos : At text.length pos) :
    Tiling At text k [⟨.eof, "", pos⟩] 0 (fun _ => text.length) (fun _ => k) where
  length := rfl
  first := rfl
  gap := nofun
  piece := nofun
  last := ⟨h, rfl, pos, hpos, rfl⟩

/-- Positions that mean more. -/
theorem Tiling.mono {At' : Nat → Pos → Prop} {init : Nat}
    (h : Tiling At text init items m start behind) (hat : ∀ o p, At o p → At' o p) :
    Tiling At' text init items m start behind where
  length := h.length
  first := h.first
  gap := h.gap
  piece := fun i hi => by
    obtain ⟨hlt, item, hget, heof, hpos, htext⟩ := h.piece i hi
    exact ⟨hlt, item, hget, heof, hat _ _ hpos, htext⟩
  last := by
    obtain ⟨hle, hend, pos, hpos, hget⟩ := h.last
    exact ⟨hle, hend, pos, hat _ _ hpos, hget⟩

/-- An item has the position of its first character, and the end of the text that of the end. -/
theorem Tiling.exists_at {init : Nat} (h : Tiling At text init items m start behind) :
    ∀ item ∈ items, ∃ o, At o item.pos := by
  intro item hitem
  obtain ⟨i, hi, hget⟩ := List.mem_iff_getElem.1 hitem
  have hget : items[i]? = some item := by rw [List.getElem?_eq_getElem hi, hget]
  rw [h.length] at hi
  rcases Nat.lt_succ_iff_lt_or_eq.1 hi with hlt | rfl
  · obtain ⟨-, item', hget', -, hpos, -⟩ := h.piece i hlt
    rw [hget] at hget'
    exact ⟨_, Option.some.inj hget' ▸ hpos⟩
  · obtain ⟨-, -, pos, hpos, hget'⟩ := h.last
    rw [hget] at hget'
    obtain rfl := Option.some.inj hget'
    exact ⟨_, hpos⟩

/-- There are no more items than characters, apart from the end of the text. -/
theorem Tiling.le_length (h : Tiling At text 0 items m start behind) : m ≤ text.length := by
  -- a piece takes a character, so the items in front of a place are no more than its offset
  have hle : ∀ i ≤ m, i ≤ behind i := by
    intro i hi
    induction i with
    | zero => exact Nat.zero_le _
    | succ i ih =>
      have hgap := (h.gap i hi).1
      have hpiece := (h.piece i hi).1
      have := ih (Nat.le_of_succ_le hi)
      omega
  obtain ⟨hlast, hend, -⟩ := h.last
  have := hle m le_rfl
  omega

end

/-! ## Offsets -/

section

variable {text before : List Char} {a s : List Glyph} {g : Glyph}

theorem extract_append (before cs rest : List Char) :
    (before ++ cs ++ rest).extract before.length (before.length + cs.length) = cs := by
  simp

/-- Glyphs that stand where they belong have the positions of their offsets. -/
theorem posOf_eq_place (file : String) (hs : Stand before (a ++ g :: s))
    (htext : before ++ (a ++ g :: s).map Glyph.char = text) :
    Scan.posOf file g = place file text (before.length + a.length) := by
  have hplace := (stand_append.1 hs).2.1
  have htake : text.take (before.length + a.length) = before ++ a.map Glyph.char := by
    rw [← htext, List.map_append, ← List.append_assoc]
    exact List.take_left' (by rw [List.length_append, List.length_map])
  rw [place, htake, ← hplace]
  rfl

/-- What is skipped in front of a lexeme is a gap. -/
theorem Gap.Skips.of_rest {gap : Gap} (h : Gap.Skips s gap) {r : List Glyph}
    (hrest : gap.rest = g :: r) : gap.unclosed = none ∧
      ∃ a, s = a ++ g :: r ∧ IsGap (a.map Glyph.char) := by
  cases h with
  | gap h rest =>
    obtain rfl : rest = g :: r := hrest
    exact ⟨rfl, _, rfl, h⟩
  | line => cases hrest
  | block => cases hrest

/-- What is skipped where no lexeme follows ends the text. A comment that misses its end mark is
where it is said to be. -/
theorem Gap.Skips.of_rest_nil {gap : Gap} (file : String) (h : Gap.Skips s gap)
    (hrest : gap.rest = []) (hs : Stand before s) (htext : before ++ s.map Glyph.char = text) :
    ∃ opened, IsLastGap (s.map Glyph.char) opened ∧
      gap.unclosed.toList.map (Scan.posOf file) =
        opened.toList.map fun k => place file text (before.length + k) := by
  cases h with
  | gap h rest =>
    obtain rfl : rest = [] := hrest
    rw [List.append_nil]
    exact ⟨none, .gap h, rfl⟩
  | line h hb hbody =>
    rw [List.map_append, hb]
    exact ⟨none, .line h hbody, rfl⟩
  | @block a b g h body hb hbody =>
    have hplace := posOf_eq_place file hs htext
    rw [List.map_append, hb]
    refine ⟨some (a.map Glyph.char).length, .block h hbody, ?_⟩
    simpa using hplace

end

/-! ## Scanning -/

namespace Scan

/-- The lexemes of a text lie in it, and only a comment at its end can miss an end mark. -/
theorem tiling_lexemes (file : String) (text : List Char) (s : List Glyph) :
    ∀ before : List Char, before ++ s.map Glyph.char = text → Stand before s →
      ∃ m start behind opened,
        Tiling (fun o p => p = place file text o) text before.length
          (lexemes file (place file text text.length) s).1 m start behind ∧
        IsLastGap (text.extract (behind m) text.length) opened ∧
        ((lexemes file (place file text text.length) s).2.filter
            fun n => n.error = .openComment).map Notice.pos =
          opened.toList.map fun k => place file text (behind m + k) := by
  fun_induction lexemes file (place file text text.length) s with
  | case1 s gap opened hrest =>
    intro before htext hs
    obtain ⟨o, hgap, hplace⟩ := (Gap.skips_skip s).of_rest_nil file hrest hs htext
    have hle : before.length ≤ text.length := by
      rw [← htext, List.length_append]
      exact Nat.le_add_right _ _
    have hleft : text.extract before.length text.length = s.map Glyph.char := by
      rw [← htext]
      simp
    refine ⟨0, _, _, o, .eof hle rfl, hleft ▸ hgap, ?_⟩
    exact (map_pos_unclosed file _).trans hplace
  | case2 s gap opened g r hrest lexeme notices items more hmore ih =>
    intro before htext hs
    obtain ⟨hclosed, a, hsplit, hgap⟩ := (Gap.skips_skip s).of_rest hrest
    obtain ⟨piece, htakes⟩ := Lexeme.takes_read g r
    have hpos := htakes.length_pos
    -- the text is what is behind, a gap, a piece and what is left; all offsets are lengths of these
    let next := before ++ a.map Glyph.char ++ piece.map Glyph.char
    have hsplit' : s = a ++ piece ++ lexeme.rest := by
      rw [hsplit, ← htakes.append, List.append_assoc]
    have hnext : next ++ lexeme.rest.map Glyph.char = text := by
      rw [← htext, hsplit']
      simp [next]
    have hstand : Stand next lexeme.rest := by
      rw [hsplit', stand_append] at hs
      simpa [next] using hs.2
    obtain ⟨m, start, behind, o, htiling, hlast, hopen⟩ := ih next hnext hstand
    rw [hmore] at htiling hopen
    have hgap' : text.extract before.length (before.length + a.length) = a.map Glyph.char := by
      have hcut := extract_append before (a.map Glyph.char) ((g :: r).map Glyph.char)
      rwa [List.length_map, List.append_assoc, ← List.map_append, ← hsplit, htext] at hcut
    have hlen : next.length = before.length + a.length + piece.length := by
      simp [next, Nat.add_assoc]
    have hpiece : text.extract (before.length + a.length) next.length = piece.map Glyph.char := by
      have hcut := extract_append (before ++ a.map Glyph.char) (piece.map Glyph.char)
        (lexeme.rest.map Glyph.char)
      rwa [List.length_append, List.length_map, List.length_map, ← hlen, hnext] at hcut
    have hopened : opened = [] := by
      change gap.unclosed.toList.map _ = []
      rw [show gap.unclosed = none from hclosed]
      rfl
    -- a lexeme follows, so what is noticed here is about it and not about a comment
    have hnotices : notices.filter (fun n => n.error = .openComment) = [] := by
      rw [List.filter_eq_nil_iff]
      intro n hn herror
      have hlexeme := isOfLexeme_notices file (place file text text.length) g r n hn
      rw [of_decide_eq_true herror] at hlexeme
      cases hlexeme
    refine ⟨m + 1, _, _, o, htiling.cons (o := before.length + a.length) ?_ ?_ ?_ ?_ ?_, hlast, ?_⟩
    · exact ⟨Nat.le_add_right _ _, hgap' ▸ hgap⟩
    · rw [hlen]
      exact Nat.lt_add_of_pos_right hpos
    · exact htakes.ne_eof
    · subst hsplit
      exact posOf_eq_place file hs htext
    · rw [hpiece]
      exact htakes.text
    · rw [hopened, List.nil_append, List.filter_append, hnotices, List.nil_append]
      exact hopen

/-- Where an error is reported, by its wording. -/
def reported (scan : Scan) (e : LexError) : List Pos :=
  (scan.reports.filter fun r => r.message = e.message).map Report.pos

/-- The items of a scan lie in a text without a hole. There are no more of them than characters, the
end of the text apart. Of the reports, those on comments that miss their end mark are about the one
at the end of the text, if there is one, and those on ill-formed bytes are about all of these, one
for each. `At` tells which positions the characters have. -/
def Covers (scan : Scan) (chars : List (Char × Bool)) (At : Nat → Pos → Prop) : Prop :=
  let text := chars.map Prod.fst
  ∃ m start behind opened, Tiling At text 0 scan.items m start behind ∧ m ≤ text.length ∧
    IsLastGap (text.extract (behind m) text.length) opened ∧
    List.Forall₂ At (opened.toList.map fun k => behind m + k) (scan.reported .openComment) ∧
    List.Forall₂ At ((chars.zipIdx.filter fun c => !c.1.2).map Prod.snd)
      (scan.reported .illFormed)

theorem Covers.mono {scan : Scan} {chars : List (Char × Bool)} {At At' : Nat → Pos → Prop}
    (h : scan.Covers chars At) (hat : ∀ o p, At o p → At' o p) : scan.Covers chars At' := by
  obtain ⟨m, start, behind, opened, htiling, hle, hlast, hopen, hformed⟩ := h
  exact ⟨m, start, behind, opened, htiling.mono hat, hle, hlast, hopen.imp hat, hformed.imp hat⟩

end Scan

theorem forall₂_map {α β : Type} {f : α → β} {xs : List α} {ys : List β} (h : ys = xs.map f) :
    List.Forall₂ (fun x y => y = f x) xs ys := by
  rw [h, List.forall₂_map_right_iff]
  exact List.forall₂_same.2 fun _ _ => rfl

/-- What scanning a text finds, by the positions of its characters. -/
theorem Source.scan_eq (file : String) (bytes : List UInt8) :
    let chars := decode bytes
    let text := chars.map Prod.fst
    let glyphs := (arrange 1 1 1 chars).1
    ({ file, bytes } : Source).scan =
      { items := (Scan.lexemes file (place file text text.length) glyphs).1
        reports := ((Scan.illFormed file glyphs).merge
          (Scan.lexemes file (place file text text.length) glyphs).2
          fun a b => b.left ≤ a.left).map fun n => ⟨n.pos, n.error.message⟩ } := by
  intro chars text glyphs
  have hlast : (arrange 1 1 1 chars).2 = countAfter text :=
    (stand_arrange chars countAfter_nil.symm).2
  have hplace : place file text text.length =
      ⟨file, (countAfter text).1, (countAfter text).2.1, (countAfter text).2.2⟩ := by
    rw [place, List.take_length]
  rw [hplace, ← hlast]
  rfl

/-- The items of a text lie in it, each where it has been counted. -/
theorem Source.covers_scan (file : String) (bytes : List UInt8) :
    ({ file, bytes } : Source).scan.Covers (decode bytes)
      fun o p => p = place file ((decode bytes).map Prod.fst) o := by
  have hstand := (stand_arrange (decode bytes) countAfter_nil.symm).1
  have hchars := map_char_arrange 1 1 1 (decode bytes)
  have hformed := Scan.map_pos_illFormed file (decode bytes) countAfter_nil.symm
  obtain ⟨m, start, behind, opened, htiling, hlast, hopen⟩ :=
    Scan.tiling_lexemes file ((decode bytes).map Prod.fst) _ [] hchars hstand
  rw [Source.scan_eq file bytes]
  refine ⟨m, start, behind, opened, htiling, htiling.le_length, hlast, forall₂_map ?_,
    forall₂_map ?_⟩
  · rw [Scan.reported, Scan.map_pos_filter_reports (fun _ => LexError.message_eq_openComment),
      filter_merge_right, hopen, List.map_map]
    · rfl
    · intro n hn
      rw [Scan.error_illFormed n hn]
      rfl
  · rw [Scan.reported, Scan.map_pos_filter_reports (fun _ => LexError.message_eq_illFormed),
      filter_merge_left, List.filter_eq_self.2, List.map_map]
    · exact hformed
    · intro n hn
      exact decide_eq_true (Scan.error_illFormed n hn)
    · intro n hn
      exact decide_eq_false (Scan.error_lexemes _ _ _ n hn)

/-- Scanning loses nothing of a text: its items lie in it without a hole, and what is wrong with it
is reported where it is. Lines and columns are those of the text as far as they fit into words, so
all positions are exact in a text of fewer than `2 ^ 32 - 1` characters. -/
theorem Source.tiling_scan (file : String) (bytes : List UInt8) : ∃ chars, Decodes bytes chars ∧
    ({ file, bytes } : Source).scan.Covers chars
      (fun o p => p = place file (chars.map Prod.fst) o) ∧
    (chars.length < UInt32.size - 1 →
      ({ file, bytes } : Source).scan.Covers chars (IsExact file (chars.map Prod.fst))) := by
  refine ⟨decode bytes, decodes_decode bytes, covers_scan file bytes, fun h => ?_⟩
  rw [← List.length_map (f := Prod.fst)] at h
  refine (covers_scan file bytes).mono fun o p hp => ?_
  rw [hp]
  exact isExact_place file h o

/-- The bytes of a text of two lines, with a comment between its items. -/
def commented : List UInt8 := "int a; // b\nint c;".toUTF8.toList

theorem tiling_scan_commented : ∃ chars, Decodes commented chars ∧ chars.length = 18 ∧
    ({ file := "", bytes := commented } : Source).scan.Covers chars
      (IsExact "" (chars.map Prod.fst)) := by
  obtain ⟨chars, hdecodes, -, hexact⟩ := Source.tiling_scan "" commented
  have hlen : chars.length = 18 := by
    rw [hdecodes.eq_decode]
    decide +kernel
  exact ⟨chars, hdecodes, hlen, hexact (by rw [hlen]; decide)⟩

/-! ### The longest text

The end of a text of `2 ^ 32 - 1` blanks stands at a column that does not fit into a word. -/

/-- A source of blanks. -/
def blanks (n : Nat) : Source where
  bytes := (List.replicate n ' ').flatMap String.utf8EncodeChar

section

variable (n : Nat)

theorem decode_blanks : decode (blanks n).bytes = List.replicate n (' ', true) := by
  rw [blanks, decode_flatMap, List.map_replicate]

theorem placeAfter_blanks : placeAfter (List.replicate n ' ') = (1, 1 + n) := by
  simp [placeAfter, List.count_replicate]

/-- A source of blanks has no item but its end. -/
theorem items_blanks :
    (blanks n).scan.items = [⟨.eof, "", ⟨"", 1, .ofNat (1 + n), n + 1⟩⟩] := by
  have hblank : ∀ g ∈ (arrange 1 1 1 (List.replicate n (' ', true))).1, isBlank g.char = true := by
    intro g hg
    have hchar := List.mem_map_of_mem (f := Glyph.char) hg
    rw [map_char_arrange, List.map_replicate] at hchar
    rw [List.eq_of_mem_replicate hchar]
    rfl
  have hskip := Gap.skip_blanks hblank []
  rw [List.append_nil] at hskip
  have hscan := Source.scan_eq "" (blanks n).bytes
  dsimp only at hscan
  rw [decode_blanks, List.map_replicate, Scan.lexemes_congr hskip] at hscan
  rw [show (blanks n).scan = _ from hscan, place, List.take_length, countAfter, placeAfter_blanks,
    List.length_replicate, Scan.lexemes]
  rfl

variable {n}

theorem lt_of_covers_blanks
    (h : (blanks n).scan.Covers (decode (blanks n).bytes)
      (IsExact "" ((decode (blanks n).bytes).map Prod.fst))) : 1 + n < UInt32.size := by
  rw [decode_blanks, List.map_replicate] at h
  obtain ⟨m, start, behind, opened, htiling, -⟩ := h
  obtain ⟨-, hend, pos, ⟨-, hexact⟩, -⟩ := htiling.last
  rw [List.map_replicate] at hend
  rw [hend, List.take_length, placeAfter_blanks] at hexact
  have hcol : pos.col.toNat = 1 + n := congrArg Prod.snd hexact
  rw [← hcol]
  exact pos.col.toNat_lt

end

/-- The positions of a text of `2 ^ 32 - 1` characters need not be exact: the end of this one stands
at column zero. -/
theorem not_covers_blanks : ∃ chars, Decodes (blanks (UInt32.size - 1)).bytes chars ∧
    chars.length < UInt32.size ∧
    (blanks (UInt32.size - 1)).scan.items = [⟨.eof, "", ⟨"", 1, 0, UInt32.size⟩⟩] ∧
    ¬ (blanks (UInt32.size - 1)).scan.Covers chars (IsExact "" (chars.map Prod.fst)) := by
  refine ⟨_, decodes_decode _, ?_, items_blanks (UInt32.size - 1), fun h => ?_⟩
  · rw [decode_blanks, List.length_replicate]
    decide
  · exact absurd (lt_of_covers_blanks h) (by decide)

end Shader
