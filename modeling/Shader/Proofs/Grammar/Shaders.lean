import Shader.Proofs.Grammar.Productions
import Shader.Proofs.Token.Order

/-!
# What a parsed shader is

Items that are parsed as a shader are a word of the grammar up to the first end of text, and all of
its definitions are proper but the implicit one. A parse that fails reports something, so what is
shown here is about parses that succeed.
-/

namespace Shader

/-- The end of the text is next. -/
def Parsing.AtEnd (s : Parsing) : Prop := ∃ i rest, s.left = i :: rest ∧ i.token = .eof

namespace Grammar

open Shader.Parser Ebnf

variable {s s' : Parsing}

/-- What is read by a production where being stuck is reported. -/
theorem orStuck_some {α : Type} {p : Parser α} {P : α → List Item → Prop} {x : α}
    (hp : Production p P) (hs : s.Ready) (h : (p <|> stuck : Parser α) s = (some x, s')) :
    s.Goes s' ∧ ∃ w, s.left = w ++ s'.left ∧ P x w := by
  rw [orElse_run] at h
  rcases hrun : p s with ⟨_ | y, t⟩
  · rw [hrun] at h
    cases h
  · rw [hrun] at h
    obtain ⟨hx, rfl⟩ := Prod.mk.inj h
    obtain ⟨hgoes, hyield⟩ := (hp s hs).1 _ _ hrun
    exact ⟨hgoes, hyield x hx⟩

/-- Definitions are read one after another, up to the end of the text. -/
theorem definitions_some {n : Nat} {P : Def → List Item → Prop} (hp : Production (definition n) P) :
    ∀ (k : Nat) {s s' : Parsing} {ds : List Def}, s.Ready → definitions n k s = (some ds, s') →
      s.Goes s' ∧ s'.AtEnd ∧ ∃ ws, s.left = ws.flatten ++ s'.left ∧ List.Forall₂ P ds ws
  | 0, _, _, _, _, h => nomatch h
  | k + 1, s, s', ds, hs, h => by
    obtain ⟨i, rest, hleft, -⟩ := hs.exists_cons
    rw [definitions, token_bind hs hleft] at h
    split at h
    next heof =>
      cases h
      exact ⟨.refl hs, ⟨i, rest, hleft, isEof_iff.1 heof⟩, [], rfl, .nil⟩
    next =>
      obtain ⟨d, t, hd, h⟩ := bind_eq_some h
      obtain ⟨ds', t', hds, h⟩ := bind_eq_some h
      cases h
      obtain ⟨hgoes, u, hu, hPu⟩ := orStuck_some hp hs hd
      obtain ⟨hgoes', hend, ws, hws, hall⟩ := definitions_some hp k hgoes.ready hds
      refine ⟨hgoes.trans hgoes', hend, u :: ws, ?_, .cons hPu hall⟩
      rw [hu, hws, List.flatten_cons, List.append_assoc]

theorem spells_many {ds : List Def} {ws : List (List Item)}
    (h : List.Forall₂ (fun d => Spells (.sub .definition) d.Proper) ds ws) :
    Spells (many (sub .definition)) (∀ d ∈ ds, d.Proper) ws.flatten := by
  induction h with
  | nil => exact ⟨.done, fun _ => List.forall_mem_nil _⟩
  | cons hd _ ih =>
    exact ((hd.seq ih).imp fun h => List.forall_mem_cons.2 h).of fun _ => .more hd.word ih.word

/-- Something holds of what is read, unless the parser fails. -/
def Succeeds {α : Type} (s : Parsing) (p : Parser α) (Q : α → Parsing → Prop) : Prop :=
  ∀ x s', p s = (some x, s') → Q x s'

theorem Succeeds.congr {α : Type} {p q : Parser α} {Q : α → Parsing → Prop} {t : Parsing}
    (h : p s = q t) (hq : Succeeds t q Q) : Succeeds s p Q :=
  fun x s' hrun => hq x s' (h ▸ hrun)

theorem succeeds_version (hs : s.Ready) : Succeeds s version fun _ s' => s.Goes s' ∧ ∃ w,
    s.left = w ++ s'.left ∧ Word (opt (tok .version ++ tok (.number .int))) w := by
  obtain ⟨i, rest, hleft, -⟩ := hs.exists_cons
  by_cases hi : i.token = .version
  · obtain ⟨t, hrun, hgoes, hleft'⟩ := exists_advance hs hleft (hi ▸ nofun)
    refine .congr ((accept_bind_pos hs hleft hi).trans (bind_some hrun)) ?_
    obtain ⟨j, rest', hj, -⟩ := hgoes.ready.exists_cons
    refine .congr (current_bind hgoes.ready hj) ?_
    split
    next hnumber =>
      obtain ⟨t', hrun', hgoes', hleft''⟩ := exists_advance hgoes.ready hj (hnumber ▸ nofun)
      refine .congr (bind_some hrun') ?_
      rintro _ _ ⟨⟩
      refine ⟨hgoes.trans hgoes', [i, j], ?_, .left ?_⟩
      · rw [hleft, hleft'', ← hleft', hj]
        rfl
      · exact word_append.2 ⟨[i], [j], rfl, .item hi, .item hnumber⟩
    next => exact nofun
  · refine .congr (accept_bind_neg hs hleft hi) ?_
    rintro _ _ ⟨⟩
    exact ⟨.refl hs, [], rfl, .right .empty⟩

/-- A shader is a version line, if there is one, and definitions up to the end of the text; the
first definition is the implicit one. -/
theorem program_reads {n : Nat} {P : Def → List Item → Prop} (hp : Production (definition n) P)
    {p : Program} (hs : s.Ready) (h : program n s = (some p, s')) :
    s.Goes s' ∧ s'.AtEnd ∧ ∃ u ws ds, s.left = u ++ ws.flatten ++ s'.left ∧
      Word (opt (tok .version ++ tok (.number .int))) u ∧
      p.defs = .global implicitPosition :: ds ∧ List.Forall₂ P ds ws := by
  obtain ⟨i, rest, hleft, -⟩ := hs.exists_cons
  rw [program, pos_bind hs hleft] at h
  obtain ⟨v, t, hv, h⟩ := bind_eq_some h
  obtain ⟨ds, t', hds, h⟩ := bind_eq_some h
  cases h
  obtain ⟨hgoes, u, hu, hword⟩ := succeeds_version hs _ _ hv
  obtain ⟨hgoes', hend, ws, hws, hall⟩ := definitions_some hp n hgoes.ready hds
  exact ⟨hgoes.trans hgoes', hend, u, ws, ds, by rw [hu, hws, List.append_assoc], hword, rfl, hall⟩

theorem program_some {n : Nat} {p : Program} (hs : s.Ready) (h : program n s = (some p, s')) :
    s.Goes s' ∧ s'.AtEnd ∧ ∃ w ds, s.left = w ++ s'.left ∧
      Word (opt (tok .version ++ tok (.number .int)) ++ many (sub .definition)) w ∧
      p.defs = .global implicitPosition :: ds ∧ ((∀ i ∈ w, i.Proper) → ∀ d ∈ ds, d.Proper) := by
  obtain ⟨hgoes, hend, u, ws, ds, hleft, hword, hdefs, hall⟩ :=
    program_reads (production_definition n) hs h
  have hspells := spells_many hall
  exact ⟨hgoes, hend, u ++ ws.flatten, ds, hleft, .seq hword hspells.word, hdefs, fun hproper =>
    hspells.good fun i hi => hproper i (List.mem_append_right _ hi)⟩

end Grammar

open Shader.Grammar

/-- Items of which the last is the end of the text are ready to be parsed. -/
theorem Parsing.ready_start {items : List Item} {e : Item} {reports : List Report}
    (h : items.getLast? = some e) (he : e.token = .eof) :
    ({ stream := { items }, reports } : Parsing).Ready := by
  refine ⟨⟨0, rfl, List.length_pos_iff.2 ?_⟩, e, h, he⟩
  rintro rfl
  cases h

/-- Only the last item of a text is its end. -/
theorem Parsing.AtEnd.left_eq {s : Source} {s' : Parsing} (h : s'.AtEnd)
    (hitems : s'.stream.items = s.scan.items) : ∃ e, s'.left = [e] ∧ e.token = .eof := by
  obtain ⟨e, rest, hleft, he⟩ := h
  obtain ⟨w, last, hscan, -, hw⟩ := s.exists_scan
  have hsuffix : s'.left <:+ s.scan.items := hitems ▸ List.drop_suffix _ _
  rcases List.eq_nil_or_concat rest with rfl | ⟨rest, i, rfl⟩
  · exact ⟨e, hleft, he⟩
  · obtain ⟨v, hv⟩ := hsuffix
    rw [hleft, hscan, List.concat_eq_append, ← List.cons_append, ← List.append_assoc] at hv
    obtain ⟨rfl, -⟩ := List.append_inj' hv rfl
    exact absurd he (hw e (by simp))

/-- Whether a text is read and nothing is noticed in it. -/
def Source.isClean (s : Source) : Bool :=
  let (glyphs, line, col, index) := Text.arrange 1 1 1 (Text.decode s.bytes)
  s.failure.isNone && (Scan.illFormed s.file glyphs).isEmpty &&
    (Scan.lexemes s.file ⟨s.file, line, col, index⟩ glyphs).2.isEmpty

/-- Such a text has no reports. Merging them need not be computed for that. -/
theorem scan_reports_eq_nil {s : Source} (h : s.isClean = true) : s.scan.reports = [] := by
  simp only [Source.isClean, Bool.and_eq_true, Option.isNone_iff_eq_none, List.isEmpty_iff] at h
  obtain ⟨⟨hread, hbytes⟩, hlexemes⟩ := h
  simp only [Source.scan, hread, hbytes, hlexemes, List.merge_right, List.map_nil]

/-- A parse succeeds if the shader is read and nothing was wrong with its items. -/
theorem Stream.parse_eq_some {stream : Stream} {reports : List Report} {p : Program}
    (h : (stream.parse reports).program = some p) : ∃ s',
      program (depthBound stream.items) { stream, reports } = (some p, s') := by
  rcases hrun : program (depthBound stream.items) { stream, reports } with ⟨r, s'⟩
  simp only [Stream.parse, hrun] at h
  split at h
  · exact ⟨s', h ▸ rfl⟩
  · cases h

theorem parse_eq_parseItems {s : Source} (hreports : s.scan.reports = []) :
    s.parse = parseItems s.scan.items := by
  rw [Source.parse, hreports]
  rfl

/-- A program that a text is seen to be when it is parsed. -/
theorem exists_parsed {s : Source} (hreports : s.scan.reports = []) {t : Program → Bool}
    (hrun : (parseItems s.scan.items).program.map t = some true) :
    ∃ p, s.parse.program = some p ∧ t p = true := by
  rw [parse_eq_parseItems hreports]
  exact Option.map_eq_some_iff.1 hrun

/-- The items of a text are ready to be parsed. -/
theorem Source.ready_scan (s : Source) :
    ({ stream := { items := s.scan.items }, reports := s.scan.reports } : Parsing).Ready := by
  obtain ⟨e, he, heof⟩ := s.getLast?_scan
  exact Parsing.ready_start he heof

/-- A parsed text has the implicit definition and others, which are proper. -/
theorem Source.proper_parse {s : Source} {p : Program} (h : s.parse.program = some p) :
    ∃ ds, p.defs = .global implicitPosition :: ds ∧ ∀ d ∈ ds, d.Proper := by
  obtain ⟨s', hrun⟩ := Stream.parse_eq_some h
  obtain ⟨-, -, w, ds, hleft, -, hdefs, hproper⟩ := program_some s.ready_scan hrun
  refine ⟨ds, hdefs, hproper fun i hi => s.proper_scan i ?_⟩
  have hmem : i ∈ w ++ s'.left := List.mem_append_left _ hi
  rw [← hleft] at hmem
  exact List.mem_of_mem_drop hmem

end Shader
