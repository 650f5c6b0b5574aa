import Shader.Proofs.Token.Pieces
import Shader.Proofs.Grammar.Renderings
import Shader.Proofs.Grammar.Shaders

/-!
# Scanning again

A text that is scanned without a complaint is a sequence of pieces with gaps between them. The gaps
do not matter: the texts of the pieces, with single blanks between them, are scanned into the same
pieces. For that, each piece has to be read as itself where it stands apart, which also says that
what followed it in the text had no part in it.
-/

namespace Shader

open Text

/-! ## Pieces -/

/-- The pieces that reading does not complain about. -/
inductive IsPiece : Token × String → Prop
  /-- a reserved word, the name of a type, or a name -/
  | word {w : String} (h : IsIdentifier w) : IsPiece (.ofWord w, w)
  /-- a number -/
  | number (n : NumberText) : IsPiece (.number n.kind, String.ofList n.chars)
  /-- the directive -/
  | version : IsPiece (.version, "#version")
  /-- an operator or a delimiter -/
  | sign {t : Token} (h : t.IsSign) : IsPiece t.piece

namespace Lexeme

theorem isSign_punctuator? {a : Char} {b c : Option Char} {t : Token} {size : Nat}
    (h : punctuator? a b c = some (t, size)) : t.IsSign := by
  unfold punctuator? withAssign at h
  split at h
  case h_16 =>
    obtain ⟨d, -, heq⟩ := Option.map_eq_some_iff.1 h
    obtain ⟨rfl, -⟩ := Prod.mk.inj heq
    trivial
  all_goals repeat' split at h
  all_goals
    obtain ⟨rfl, -⟩ := Prod.mk.inj (Option.some.inj h)
    trivial

/-- What is read without a complaint is a piece. -/
theorem isPiece_read (g : Glyph) (r : List Glyph) :
    (read g r).notices = [] → IsPiece ((read g r).token, (read g r).text) := by
  unfold read
  split
  next hletter => exact fun _ => .word (isIdentifier_word hletter)
  split
  next hstart =>
    intro h
    obtain herror | ⟨kind, hkind⟩ := token_number (g :: r)
    · exact absurd h (notices_number herror)
    · obtain ⟨n, rfl, hn⟩ := exists_numberText hstart hkind
      rw [hkind, ← hn]
      exact .number n
  split
  next =>
    dsimp only [directive]
    split
    · exact fun _ => .version
    · nofun
  split
  next hp => exact fun _ => .sign (isSign_punctuator? hp)
  next => nofun

end Lexeme

theorem isPiece_lexemes (file : String) (last : Pos) (s : List Glyph) :
    (Scan.lexemes file last s).2 = [] → ∃ (items : List Item) (e : Item),
      (Scan.lexemes file last s).1 = items ++ [e] ∧ e.piece = (.eof, "") ∧
        ∀ i ∈ items, IsPiece i.piece := by
  fun_induction Scan.lexemes file last s with
  | case1 s gap opened hrest => exact fun _ => ⟨[], _, rfl, rfl, List.forall_mem_nil _⟩
  | case2 s gap opened g r hrest lexeme notices items more hmore ih =>
    intro h
    obtain ⟨hnotices, hnil⟩ := List.append_eq_nil_iff.1 h
    rw [hmore] at ih
    obtain ⟨items, e, rfl, he, hitems⟩ := ih hnil
    have hread := Lexeme.isPiece_read g r
      (List.map_eq_nil_iff.1 (List.append_eq_nil_iff.1 hnotices).2)
    exact ⟨_ :: items, e, rfl, he, List.forall_mem_cons.2 ⟨hread, hitems⟩⟩

theorem eq_nil_of_merge {α : Type} {le : α → α → Bool} {as bs : List α}
    (h : as.merge bs le = []) : bs = [] := by
  have hperm : (as.merge bs le).Perm (as ++ bs) := List.merge_perm_append le
  rw [h] at hperm
  exact (List.append_eq_nil_iff.1 (List.nil_perm.1 hperm)).2

/-- A text that is scanned without a complaint is scanned into pieces. -/
theorem Source.isPiece_scan {s : Source} (h : s.scan.reports = []) :
    ∃ items e, s.scan.items = items ++ [e] ∧ e.piece = (.eof, "") ∧
      ∀ i ∈ items, IsPiece i.piece := by
  unfold Source.scan at h ⊢
  split
  next hfailure =>
    rw [hfailure] at h
    cases h
  next hfailure =>
    rw [hfailure] at h
    have hmerge := List.map_eq_nil_iff.1 h
    exact isPiece_lexemes _ _ _ (eq_nil_of_merge hmerge)

/-! ## Pieces that stand apart -/

section

variable {ds : List Char}

theorem lexes_version (hds : Parted ds) :
    Lexes ("#version".toList ++ ds) [(.version, "#version")] [] ds := by
  change Lexes ('#' :: ("version".toList ++ ds)) _ _ _
  refine .one rfl nofun fun g r hg hr => ?_
  obtain ⟨a, t, rfl, ha, ht⟩ := List.map_eq_append_iff.1 hr
  have hblank : run (fun c => c == ' ' || c == '\t') (a ++ t) = ([], a ++ t) := by
    refine Lexeme.run_append (a := []) (t := a ++ t) nofun ?_
    rw [List.map_append, ha]
    exact stops_cons.2 rfl
  have hletters : ∀ c ∈ "version".toList, isWordChar c = true := List.all_eq_true.1 (by decide)
  have hword : run isWordChar (a ++ t) = (a, t) :=
    Lexeme.run_append (ha ▸ hletters) (ht ▸ hds.stops rfl)
  have hspell : spell a = "version" := by rw [spell, ha, String.ofList_toList]
  have hread : Lexeme.read g (a ++ t) = { token := .version, text := "#version", rest := t } := by
    rw [Lexeme.read, hg]
    simp [Lexeme.directive, hblank, hword, hspell, isLetter, isDigit]
  rw [hread]
  exact ⟨rfl, rfl, rfl, ht⟩

/-- A piece that stands apart is read as itself. -/
theorem IsPiece.lexes {p : Token × String} (h : IsPiece p) (hds : Parted ds) :
    Lexes (p.2.toList ++ ds) [p] [] ds := by
  cases h with
  | word hw => exact lexes_word hw (hds.stops rfl)
  | number n =>
    rw [String.toList_ofList]
    exact lexes_number n (hds.stops rfl)
  | version => exact lexes_version hds
  | sign ht => exact lexes_sign ht hds

end

theorem lexes_intercalate {ps : List (Token × String)} (h : ∀ p ∈ ps, IsPiece p) :
    Lexes (" ".intercalate (ps.map Prod.snd)).toList ps [] [] := by
  induction ps with
  | nil => exact .nil
  | cons p ps ih =>
    obtain ⟨hp, hps⟩ := List.forall_mem_cons.1 h
    cases ps with
    | nil =>
      have hlexes := hp.lexes (.inl rfl)
      rwa [List.append_nil] at hlexes
    | cons q ps =>
      have hlexes := (hp.lexes (.inr ⟨_, rfl⟩)).append (ih hps).blank
      simpa [String.intercalate_cons_cons] using hlexes

/-! ## Normal texts -/

/-- The texts of the items of a source, the end excepted, with single blanks between them. -/
def Source.normal (s : Source) : String :=
  " ".intercalate ((s.scan.items.filter fun i => !i.token.isEof).map Item.text)

theorem IsPiece.not_isEof {p : Token × String} (h : IsPiece p) : p.1.isEof = false := by
  cases h with
  | word hw =>
    exact Bool.eq_false_iff.2 (mt Grammar.isEof_iff.1 (Lexeme.token_ofWord_ne _))
  | number n => rfl
  | version => rfl
  | @sign t ht => cases t <;> first | rfl | exact ht.elim

/-- A source that is scanned without a complaint can be written with single blanks between its items
and nothing else: it is scanned into the same items, their places apart, and without a complaint. -/
theorem Source.scan_normal (s : Source) (h : s.scan.reports = []) (file : String) :
    (Source.ofText file s.normal).scan.reports = [] ∧
      (Source.ofText file s.normal).scan.items.map Item.piece = s.scan.items.map Item.piece := by
  obtain ⟨items, e, hitems, he, hpieces⟩ := isPiece_scan h
  have hkept : (s.scan.items.filter fun i => !i.token.isEof) = items := by
    have heof : e.token = .eof := congrArg Prod.fst he
    have hall : ∀ i ∈ items, (!i.token.isEof) = true := fun i hi =>
      congrArg (! ·) (hpieces i hi).not_isEof
    rw [hitems, List.filter_append, List.filter_eq_self.2 hall, List.filter_singleton, heof]
    exact List.append_nil items
  have hnormal : s.normal = " ".intercalate ((items.map Item.piece).map Prod.snd) := by
    rw [normal, hkept, List.map_map]
    rfl
  have hlexes := lexes_intercalate (List.forall_mem_map.2 hpieces)
  rw [← hnormal] at hlexes
  obtain ⟨last, t, ht, hscan⟩ := exists_scan_toUTF8 file s.normal
  obtain ⟨items', notices, t', hitems', hnotices, hrest, hrun⟩ := hlexes file last t ht
  obtain rfl := List.map_eq_nil_iff.1 hrest
  rw [Scan.lexemes_nil, List.map_eq_nil_iff.1 hnotices] at hrun
  rw [ofText, hscan, hrun, hitems]
  refine ⟨rfl, ?_⟩
  rw [List.map_append, List.map_append, hitems', List.map_singleton, List.map_singleton, he]
  rfl

/-- A source with a line for its version, comments, and signs that touch. -/
def crowded : Source :=
  .ofText "" "#\tversion 330 // new\nint a/**/=1u<<+-2;float b=.5e1f;"

theorem scan_normal_crowded : crowded.scan.reports = [] ∧
    crowded.normal = "#version 330 int a = 1u << + - 2 ; float b = .5e1f ;" ∧
    (Source.ofText "" crowded.normal).scan.reports = [] ∧
    (Source.ofText "" crowded.normal).scan.items.map Item.piece =
      crowded.scan.items.map Item.piece := by
  have h : crowded.scan.reports = [] := scan_reports_eq_nil (by decide +kernel)
  exact ⟨h, by decide +kernel, crowded.scan_normal h ""⟩

end Shader
