import Shader.Proofs.Grammar.Names

/-!
# Reading lexemes again

A name or a number of a text is read again as what it was, wherever it is written, if the characters
behind it do not go on with it. For numbers this is not so in front of a point: with a point and a
letter behind it, every number is malformed.

`Lexes` says which pieces reading finds in front of some characters, and what is wrong with them. It
looks at characters only, so that places do not matter.
-/

namespace Shader

open Text

/-- A text does not start with a character of a class. -/
def Stops (p : Char → Bool) (cs : List Char) : Prop := ∀ c ∈ cs.head?, p c = false

section

variable {p q : Char → Bool} {c : Char} {cs ds : List Char}

theorem stops_nil : Stops p [] := nofun

theorem stops_cons : Stops p (c :: cs) ↔ p c = false :=
  ⟨fun h => h c rfl, fun h _ hd => Option.some.inj hd ▸ h⟩

theorem Stops.mono (h : Stops q cs) (hpq : ∀ c, q c = false → p c = false) : Stops p cs :=
  fun c hc => hpq c (h c hc)

theorem startsWith_eq_false {s : List Glyph} (h : Stops p (s.map Glyph.char)) :
    startsWith p s = false := by
  rcases s with _ | ⟨g, s⟩
  · rfl
  · exact stops_cons.1 h

end

namespace Lexeme

variable {p : Char → Bool} {a t : List Glyph}

/-! ## Runs -/

theorem run_append (ha : ∀ c ∈ a.map Glyph.char, p c = true) (ht : Stops p (t.map Glyph.char)) :
    run p (a ++ t) = (a, t) := by
  induction a with
  | nil =>
    rcases t with _ | ⟨g, t⟩
    · rfl
    · have hg : p g.char = false := stops_cons.1 ht
      simp [run, hg]
  | cons g a ih =>
    rw [List.map_cons, List.forall_mem_cons] at ha
    have hrun := ih ha.2
    simp only [run, Prod.mk.injEq] at hrun
    simp [run, ha.1, hrun]

theorem forall_run (p : Char → Bool) (s : List Glyph) :
    ∀ c ∈ (run p s).1.map Glyph.char, p c = true := by
  intro c hc
  obtain ⟨g, hg, rfl⟩ := List.mem_map.1 hc
  have hpg := List.mem_takeWhile_imp hg
  exact hpg

theorem one_cons_pos {g : Glyph} (hg : p g.char = true) : one p (g :: t) = ([g], t) := if_pos hg

theorem one_stops (ht : Stops p (t.map Glyph.char)) : one p t = ([], t) := by
  rcases t with _ | ⟨g, t⟩
  · rfl
  · have hg : p g.char = false := stops_cons.1 ht
    simp [one, hg]

/-- What reading one character finds. -/
theorem one_cases (p : Char → Bool) (s : List Glyph) :
    one p s = ([], s) ∨ ∃ g r, s = g :: r ∧ p g.char = true ∧ one p s = ([g], r) := by
  rcases s with _ | ⟨g, r⟩
  · exact .inl rfl
  · by_cases hg : p g.char = true
    · exact .inr ⟨g, r, rfl, hg, one_cons_pos hg⟩
    · exact .inl (by simp [one, hg])

end Lexeme

/-! ## The spelling of numbers -/

/-- The marks of exponents. -/
def isExponentMark (c : Char) : Bool := c == 'e' || c == 'E'

/-- The signs of exponents. -/
def isSign (c : Char) : Bool := c == '+' || c == '-'

/-- The suffix of floating-point numbers. -/
def isFloatSuffix (c : Char) : Bool := c == 'f' || c == 'F'

/-- The suffix of unsigned numbers. -/
def isUnsignedSuffix (c : Char) : Bool := c == 'u' || c == 'U'

/-- Characters that a number may go on with, points apart. -/
def isNumberChar (c : Char) : Bool :=
  isDigit c || isExponentMark c || isFloatSuffix c || isUnsignedSuffix c

/-- Characters that belong to a number in front of them, and may spoil it. -/
def isTailChar (c : Char) : Bool := isWordChar c || c == '.'

/-- A point and digits, or nothing. -/
def IsFraction (cs : List Char) : Prop :=
  cs = [] ∨ ∃ ds, cs = '.' :: ds ∧ ∀ c ∈ ds, isDigit c = true

/-- The mark of an exponent, a sign or none, and digits, or nothing. -/
def IsExponent (cs : List Char) : Prop :=
  cs = [] ∨ ∃ mark sign ds, cs = mark :: (sign ++ ds) ∧ isExponentMark mark = true ∧
    (sign = [] ∨ ∃ c, sign = [c] ∧ isSign c = true) ∧ ds ≠ [] ∧ ∀ c ∈ ds, isDigit c = true

/-- A suffix that fits a number, or none, and the kind of the number. -/
def IsSuffix (integral : Bool) (kind : NumberKind) (cs : List Char) : Prop :=
  cs = [] ∧ kind = (if integral then .int else .double) ∨
    ∃ c, cs = [c] ∧ (isFloatSuffix c = true ∧ integral = false ∧ kind = .float ∨
      isUnsignedSuffix c = true ∧ integral = true ∧ kind = .uint)

/-- The parts of a number that is well formed. -/
structure NumberText where
  /-- digits -/
  whole : List Char
  /-- the fraction -/
  fraction : List Char
  /-- the exponent -/
  exponent : List Char
  /-- the suffix -/
  suffix : List Char
  /-- the kind of the number -/
  kind : NumberKind
  isDigit_whole : ∀ c ∈ whole, isDigit c = true
  isFraction : IsFraction fraction
  isExponent : IsExponent exponent
  isSuffix : IsSuffix (fraction.isEmpty && exponent.isEmpty) kind suffix
  /-- a number starts with a digit, or with a point and a digit -/
  starts : whole ≠ [] ∨ 1 < fraction.length

/-- The characters of a number. -/
def NumberText.chars (n : NumberText) : List Char := n.whole ++ n.fraction ++ n.exponent ++ n.suffix

namespace Lexeme

/-! ## Numbers are read from their spelling -/

section

variable {a t : List Glyph}

theorem fraction_append (ha : IsFraction (a.map Glyph.char))
    (hpoint : a = [] → Stops (· == '.') (t.map Glyph.char))
    (ht : Stops isDigit (t.map Glyph.char)) :
    fraction (a ++ t) = (a, t) := by
  rcases ha with ha | ⟨ds, ha, hds⟩
  · obtain rfl := List.map_eq_nil_iff.1 ha
    rw [List.nil_append, fraction, one_stops (hpoint rfl)]
  · obtain ⟨g, b, rfl, hg, rfl⟩ := List.map_eq_cons_iff.1 ha
    rw [fraction, List.cons_append, one_cons_pos (by rw [hg]; rfl)]
    simp only [run_append hds ht]
    rfl

theorem exponent_append (ha : IsExponent (a.map Glyph.char))
    (hmark : Stops isExponentMark (t.map Glyph.char)) (ht : Stops isDigit (t.map Glyph.char)) :
    exponent (a ++ t) = { text := a, rest := t } := by
  rcases ha with ha | ⟨mark, sign, ds, ha, hm, hsign, hne, hds⟩
  · obtain rfl := List.map_eq_nil_iff.1 ha
    have hnone : one (fun c => c == 'e' || c == 'E') t = ([], t) := one_stops hmark
    rw [List.nil_append, exponent, hnone]
  · obtain ⟨g, b, rfl, hg, hb⟩ := List.map_eq_cons_iff.1 ha
    obtain ⟨x, y, rfl, hx, rfl⟩ := List.map_eq_append_iff.1 hb
    have hone : one (fun c => c == 'e' || c == 'E') (g :: (x ++ y ++ t)) = ([g], x ++ y ++ t) :=
      one_cons_pos (by rw [hg]; exact hm)
    have hy : y ≠ [] := fun h => hne (by rw [h]; rfl)
    have hsigned : one (fun c => c == '+' || c == '-') (x ++ y ++ t) = (x, y ++ t) := by
      rcases hsign with rfl | ⟨c, rfl, hc⟩
      · obtain rfl := List.map_eq_nil_iff.1 hx
        obtain ⟨h, z, rfl⟩ := List.exists_cons_of_ne_nil hy
        have hdigit : isDigit h.char = true := hds _ List.mem_cons_self
        refine one_stops (stops_cons.2 ?_)
        by_contra hcontra
        rw [Bool.not_eq_false, Bool.or_eq_true_iff, beq_iff_eq, beq_iff_eq] at hcontra
        rcases hcontra with hcontra | hcontra
        · exact absurd (hcontra ▸ hdigit) (by decide)
        · exact absurd (hcontra ▸ hdigit) (by decide)
      · obtain ⟨h, rfl, hh⟩ := List.map_eq_singleton_iff.1 hx
        exact one_cons_pos (by rw [hh]; exact hc)
    rw [List.cons_append, exponent, hone]
    simp only [hsigned, run_append hds ht]
    simp [hy]

theorem suffix_append {integral : Bool} {kind : NumberKind}
    (ha : IsSuffix integral kind (a.map Glyph.char))
    (hfloat : Stops isFloatSuffix (t.map Glyph.char))
    (hunsigned : Stops isUnsignedSuffix (t.map Glyph.char)) :
    suffix integral (a ++ t) = { text := a, kind, rest := t } := by
  have hnone : one (fun c => c == 'f' || c == 'F') t = ([], t) := one_stops hfloat
  have hnone' : one (fun c => c == 'u' || c == 'U') t = ([], t) := one_stops hunsigned
  rcases ha with ⟨ha, rfl⟩ | ⟨c, ha, h⟩
  · obtain rfl := List.map_eq_nil_iff.1 ha
    rw [List.nil_append, suffix, hnone]
    simp only [hnone']
  · obtain ⟨g, rfl, rfl⟩ := List.map_eq_singleton_iff.1 ha
    rcases h with ⟨hg, rfl, rfl⟩ | ⟨hg, rfl, rfl⟩
    · have hone : one (fun c => c == 'f' || c == 'F') ([g] ++ t) = ([g], t) := one_cons_pos hg
      rw [suffix, hone]
      rfl
    · have hnot : one (fun c => c == 'f' || c == 'F') ([g] ++ t) = ([], g :: t) := by
        refine one_stops (stops_cons.2 ?_)
        rw [isUnsignedSuffix, Bool.or_eq_true_iff, beq_iff_eq, beq_iff_eq] at hg
        rcases hg with hg | hg
        · rw [hg]
          rfl
        · rw [hg]
          rfl
      have hone : one (fun c => c == 'u' || c == 'U') (g :: t) = ([g], t) := one_cons_pos hg
      rw [suffix, hnot]
      simp only [hone]
      rfl

end

end Lexeme

section

variable {p : Char → Bool} {cs ds : List Char}

theorem IsFraction.stops (h : IsFraction cs) (hp : p '.' = false) (hds : cs = [] → Stops p ds) :
    Stops p (cs ++ ds) := by
  rcases h with rfl | ⟨_, rfl, -⟩
  · exact hds rfl
  · exact stops_cons.2 hp

theorem IsExponent.stops (h : IsExponent cs) (hp : ∀ c, isExponentMark c = true → p c = false)
    (hds : cs = [] → Stops p ds) : Stops p (cs ++ ds) := by
  rcases h with rfl | ⟨mark, _, _, rfl, hmark, -⟩
  · exact hds rfl
  · exact stops_cons.2 (hp mark hmark)

theorem IsSuffix.stops {integral : Bool} {kind : NumberKind} (h : IsSuffix integral kind cs)
    (hfloat : ∀ c, isFloatSuffix c = true → p c = false)
    (hunsigned : ∀ c, isUnsignedSuffix c = true → p c = false) (hds : cs = [] → Stops p ds) :
    Stops p (cs ++ ds) := by
  rcases h with ⟨rfl, -⟩ | ⟨c, rfl, ⟨hc, -⟩ | ⟨hc, -⟩⟩
  · exact hds rfl
  · exact stops_cons.2 (hfloat c hc)
  · exact stops_cons.2 (hunsigned c hc)

end

theorem forall_or_eq {a b : Char} {p : Char → Bool} (ha : p a = false) (hb : p b = false) :
    ∀ c, (c == a || c == b) = true → p c = false := by
  intro c hc
  rw [Bool.or_eq_true_iff, beq_iff_eq, beq_iff_eq] at hc
  rcases hc with rfl | rfl
  · exact ha
  · exact hb

/-- A number is read from its characters, together with letters, digits and points that follow. -/
theorem Lexeme.number_append (n : NumberText) {s : List Glyph} {cs : List Char}
    (hs : s.map Glyph.char = n.chars ++ cs) (hstop : Stops isNumberChar cs)
    (hpoint : n.fraction = [] → n.exponent = [] → n.suffix = [] → Stops (· == '.') cs) :
    ∃ t, t.map Glyph.char = cs ∧ ∀ tail rest, run isTailChar t = (tail, rest) →
      number s =
        { token := if tail.isEmpty then .number n.kind else .error
          text := String.ofList (n.chars ++ tail.map Glyph.char)
          notices := if tail.isEmpty then [] else
            [(.malformed (String.ofList (n.chars ++ tail.map Glyph.char)), rest)]
          rest } := by
  -- what does not go on with a number stops each of its parts
  have hclass : ∀ c, isNumberChar c = false → isDigit c = false ∧ isExponentMark c = false ∧
      isFloatSuffix c = false ∧ isUnsignedSuffix c = false := by
    intro c hc
    simpa [isNumberChar, and_assoc] using hc
  have hdigit : Stops isDigit cs := hstop.mono fun c hc => (hclass c hc).1
  have hsuffix : Stops isDigit (n.suffix ++ cs) :=
    n.isSuffix.stops (forall_or_eq rfl rfl) (forall_or_eq rfl rfl) fun _ => hdigit
  have hexponent : Stops isDigit (n.exponent ++ (n.suffix ++ cs)) :=
    n.isExponent.stops (forall_or_eq rfl rfl) fun _ => hsuffix
  have hmark : Stops isExponentMark (n.suffix ++ cs) :=
    n.isSuffix.stops (forall_or_eq rfl rfl) (forall_or_eq rfl rfl) fun _ =>
      hstop.mono fun c hc => (hclass c hc).2.1
  have hdot : n.fraction = [] → Stops (· == '.') (n.exponent ++ (n.suffix ++ cs)) := fun hf =>
    n.isExponent.stops (forall_or_eq rfl rfl) fun he =>
      n.isSuffix.stops (forall_or_eq rfl rfl) (forall_or_eq rfl rfl) (hpoint hf he)
  simp only [NumberText.chars, List.append_assoc] at hs
  -- the glyphs fall into those of the four parts and what follows
  obtain ⟨w, s₁, rfl, hw, hs⟩ := List.map_eq_append_iff.1 hs
  obtain ⟨f, s₂, rfl, hf, hs⟩ := List.map_eq_append_iff.1 hs
  obtain ⟨e, s₃, rfl, he, hs⟩ := List.map_eq_append_iff.1 hs
  obtain ⟨u, t, rfl, hu, ht⟩ := List.map_eq_append_iff.1 hs
  refine ⟨t, ht, fun tail rest htail => ?_⟩
  have hrun : run isDigit (w ++ (f ++ (e ++ (u ++ t)))) = (w, f ++ (e ++ (u ++ t))) := by
    refine run_append (hw ▸ n.isDigit_whole) ?_
    rw [List.map_append, List.map_append, List.map_append, hf, he, hu, ht]
    exact n.isFraction.stops rfl fun _ => hexponent
  have hfraction : Lexeme.fraction (f ++ (e ++ (u ++ t))) = (f, e ++ (u ++ t)) := by
    refine fraction_append (hf ▸ n.isFraction) (fun hnil => ?_) ?_
    · rw [List.map_append, List.map_append, he, hu, ht]
      exact hdot (by rw [← hf, hnil]; rfl)
    · rw [List.map_append, List.map_append, he, hu, ht]
      exact hexponent
  have hexp : Lexeme.exponent (e ++ (u ++ t)) = { text := e, rest := u ++ t } := by
    refine exponent_append (he ▸ n.isExponent) ?_ ?_
    · rw [List.map_append, hu, ht]
      exact hmark
    · rw [List.map_append, hu, ht]
      exact hsuffix
  have hempty : (f.isEmpty && e.isEmpty) = (n.fraction.isEmpty && n.exponent.isEmpty) := by
    rw [← hf, ← he, List.isEmpty_map, List.isEmpty_map]
  have hsuf : Lexeme.suffix (f.isEmpty && e.isEmpty) (u ++ t) =
      { text := u, kind := n.kind, rest := t } := by
    refine suffix_append (hempty ▸ hu ▸ n.isSuffix) ?_ ?_
    · rw [ht]
      exact hstop.mono fun c hc => (hclass c hc).2.2.1
    · rw [ht]
      exact hstop.mono fun c hc => (hclass c hc).2.2.2
  have htext :
      spell (w ++ f ++ e ++ u ++ tail) = String.ofList (n.chars ++ tail.map Glyph.char) := by
    simp only [spell, List.map_append, hw, hf, he, hu, NumberText.chars]
  have htail' : run (fun c => isWordChar c || c == '.') t = (tail, rest) := htail
  simp only [number, hrun, hfraction, hexp, hsuf, htail', htext, List.nil_append]
  cases tail <;> rfl

/-! ## The spelling of what is read -/

namespace Lexeme

theorem isFraction_fraction (s : List Glyph) : IsFraction ((fraction s).1.map Glyph.char) := by
  rcases one_cases (· == '.') s with h | ⟨g, r, rfl, hg, h⟩
  · rw [fraction, h]
    exact .inl rfl
  · rw [fraction, h]
    refine .inr ⟨_, ?_, forall_run isDigit r⟩
    rw [← beq_iff_eq.1 hg]
    rfl

theorem isExponent_exponent {s : List Glyph} (h : (exponent s).notices = []) :
    IsExponent ((exponent s).text.map Glyph.char) := by
  rcases one_cases (fun c => c == 'e' || c == 'E') s with hone | ⟨g, r, rfl, hg, hone⟩
  · rw [exponent, hone]
    exact .inl rfl
  · rw [exponent, hone] at h ⊢
    have hsign : (one (fun c => c == '+' || c == '-') r).1.map Glyph.char = [] ∨
        ∃ c, (one (fun c => c == '+' || c == '-') r).1.map Glyph.char = [c] ∧ isSign c = true := by
      rcases one_cases (fun c => c == '+' || c == '-') r with hr | ⟨d, _, rfl, hd, hr⟩
      · rw [hr]
        exact .inl rfl
      · rw [hr]
        exact .inr ⟨d.char, rfl, hd⟩
    refine .inr ⟨g.char, _, _, List.map_append, hg, hsign, ?_, forall_run isDigit _⟩
    intro hnil
    have hdigits := List.map_eq_nil_iff.1 hnil
    simp only [hdigits, List.isEmpty_nil, if_true] at h
    cases h

theorem isSuffix_suffix {integral : Bool} {s : List Glyph} (h : (suffix integral s).notices = []) :
    IsSuffix integral (suffix integral s).kind ((suffix integral s).text.map Glyph.char) := by
  rcases one_cases (fun c => c == 'f' || c == 'F') s with hone | ⟨g, r, rfl, hg, hone⟩
  · rcases one_cases (fun c => c == 'u' || c == 'U') s with hone' | ⟨g, r, rfl, hg, hone'⟩
    · simp only [suffix, hone, hone']
      exact .inl ⟨rfl, rfl⟩
    · simp only [suffix, hone, hone'] at h ⊢
      refine .inr ⟨g.char, rfl, .inr ⟨hg, ?_, rfl⟩⟩
      cases integral with
      | true => rfl
      | false => cases h
  · simp only [suffix, hone] at h ⊢
    refine .inr ⟨g.char, rfl, .inl ⟨hg, ?_, rfl⟩⟩
    cases integral with
    | true => cases h
    | false => rfl

/-- A number starts with a digit, or with a point and a digit. -/
theorem starts_number {g : Glyph} {r : List Glyph}
    (h : (isDigit g.char || (g.char == '.' && startsWith isDigit r)) = true) :
    (run isDigit (g :: r)).1 ≠ [] ∨ 1 < (fraction (run isDigit (g :: r)).2).1.length := by
  by_cases hdigit : isDigit g.char = true
  · exact .inl (by simp [run, hdigit])
  · rw [Bool.or_eq_true_iff, Bool.and_eq_true_iff] at h
    obtain ⟨hpoint, hr⟩ := h.resolve_left hdigit
    rcases r with _ | ⟨d, r⟩
    · cases hr
    · have hd : isDigit d.char = true := hr
      have hrun : (run isDigit (g :: d :: r)).2 = g :: d :: r := by simp [run, hdigit]
      refine .inr ?_
      rw [hrun, fraction, one_cons_pos hpoint]
      simp [run, hd]

/-- A number that is well formed is spelled like one. -/
theorem exists_numberText {g : Glyph} {r : List Glyph} {kind : NumberKind}
    (hstart : (isDigit g.char || (g.char == '.' && startsWith isDigit r)) = true)
    (h : (number (g :: r)).token = .number kind) :
    ∃ n : NumberText, n.kind = kind ∧ String.ofList n.chars = (number (g :: r)).text := by
  have hdigits := forall_run isDigit (g :: r)
  have hfirst := starts_number hstart
  rcases hwhole : run isDigit (g :: r) with ⟨w, s₁⟩
  have hf := isFraction_fraction s₁
  rw [hwhole] at hdigits hfirst
  rcases hfraction : fraction s₁ with ⟨f, s₂⟩
  rw [hfraction] at hf hfirst
  rcases htail : run (fun c => isWordChar c || c == '.')
    (suffix (f.isEmpty && (exponent s₂).text.isEmpty) (exponent s₂).rest).rest with ⟨tail, rest⟩
  simp only [number, hwhole, hfraction, htail] at h ⊢
  -- nothing was noticed in any part
  have hnotices := List.isEmpty_iff.1 (of_not_not fun hne => by rw [if_neg hne] at h; cases h)
  rw [List.append_eq_nil_iff, List.append_eq_nil_iff] at hnotices
  obtain ⟨⟨hexponent, hsuffix⟩, hlast⟩ := hnotices
  have hnil : tail = [] := by
    by_contra hne
    rw [if_neg (by rwa [List.isEmpty_iff])] at hlast
    cases hlast
  rw [hexponent, hsuffix, hlast] at h
  have hu := isSuffix_suffix hsuffix
  refine ⟨⟨w.map Glyph.char, f.map Glyph.char, (exponent s₂).text.map Glyph.char,
    (suffix (f.isEmpty && (exponent s₂).text.isEmpty) (exponent s₂).rest).text.map Glyph.char, _,
    hdigits, hf, isExponent_exponent hexponent, ?_, ?_⟩, Token.number.inj h, ?_⟩
  · rwa [List.isEmpty_map, List.isEmpty_map]
  · rw [List.length_map]
    exact hfirst.imp_left fun hne hmap => hne (List.map_eq_nil_iff.1 hmap)
  · simp only [NumberText.chars, spell, hnil, List.append_nil, List.map_append]

end Lexeme

/-- A text of letters and digits that starts with a letter. -/
def IsIdentifier (text : String) : Prop :=
  IsWord text ∧ ∃ c cs, text.toList = c :: cs ∧ isLetter c = true

theorem isIdentifier_word {g : Glyph} {r : List Glyph} (h : isLetter g.char = true) :
    IsIdentifier (Lexeme.word (g :: r)).text := by
  refine ⟨isWord_word _, g.char, (r.takeWhile fun g => isWordChar g.char).map Glyph.char, ?_, h⟩
  have hword : isWordChar g.char = true := by rw [isWordChar, h, Bool.true_or]
  simp [Lexeme.word, run, spell, hword]

theorem Token.ofWord_ne_number (text : String) (kind : NumberKind) :
    Token.ofWord text ≠ .number kind := by
  unfold Token.ofWord
  split
  · nofun
  · split
    · nofun
    · nofun

theorem Lexeme.punctuator?_ne_number {a : Char} {b c : Option Char} {kind : NumberKind}
    {size : Nat} :
    Lexeme.punctuator? a b c ≠ some (.number kind, size) := by
  intro h
  simp only [Lexeme.punctuator?, Lexeme.withAssign] at h
  split at h <;> (try split at h) <;> (try split at h) <;> simp at h

/-- Items that are spelled as their tokens say. -/
structure Item.Spelled (item : Item) : Prop where
  /-- names are words that are not reserved and name no type -/
  name : item.token = .name → IsIdentifier item.text ∧ Token.ofWord item.text = .name
  /-- numbers are well formed -/
  number : ∀ kind, item.token = .number kind →
    ∃ n : NumberText, n.kind = kind ∧ String.ofList n.chars = item.text

theorem Item.Spelled.of_ne {item : Item} (hname : item.token ≠ .name)
    (hnumber : ∀ kind, item.token ≠ .number kind) : item.Spelled :=
  ⟨fun h => absurd h hname, fun kind h => absurd h (hnumber kind)⟩

theorem spelled_read (g : Glyph) (r : List Glyph) (pos : Pos) :
    Item.Spelled ⟨(Lexeme.read g r).token, (Lexeme.read g r).text, pos⟩ := by
  unfold Lexeme.read
  split
  next hletter =>
    exact ⟨fun h => ⟨isIdentifier_word hletter, h⟩,
      fun kind h => absurd h (Token.ofWord_ne_number _ _)⟩
  split
  next hstart =>
    exact ⟨fun h => absurd h (Lexeme.token_number_ne _),
      fun kind h => Lexeme.exists_numberText hstart h⟩
  split
  · refine ⟨fun h => absurd h (Lexeme.token_directive_ne _), fun kind h => ?_⟩
    simp only [Lexeme.directive] at h
    split at h
    · cases h
    · cases h
  split
  next hp =>
    refine ⟨fun h => absurd h (Lexeme.punctuator?_ne hp), fun kind h => ?_⟩
    subst h
    exact absurd hp Lexeme.punctuator?_ne_number
  next => exact .of_ne (by simp) (by simp)

theorem spelled_lexemes (file : String) (last : Pos) (s : List Glyph) :
    ∀ item ∈ (Scan.lexemes file last s).1, item.Spelled := by
  fun_induction Scan.lexemes file last s with
  | case1 s gap opened hrest => exact List.forall_mem_singleton.2 (.of_ne (by simp) (by simp))
  | case2 s gap opened g r hrest lexeme notices items more hmore ih =>
    rw [hmore] at ih
    exact List.forall_mem_cons.2 ⟨spelled_read g r _, ih⟩

/-- All items of a text are spelled as their tokens say. -/
theorem Source.spelled_scan (s : Source) : ∀ item ∈ s.scan.items, item.Spelled := by
  unfold Source.scan
  split
  · exact List.forall_mem_singleton.2 (.of_ne (by simp) (by simp))
  · exact spelled_lexemes _ _ _

/-! ## Reading characters -/

/-- What an item says, its place apart. -/
def Item.piece (i : Item) : Token × String := (i.token, i.text)

/-- Reading finds pieces in front of some characters, and errors in them. -/
def Lexes (cs : List Char) (ps : List (Token × String)) (es : List LexError) (ds : List Char) :
    Prop :=
  ∀ (file : String) (last : Pos) (s : List Glyph), s.map Glyph.char = cs → ∃ items notices t,
    items.map Item.piece = ps ∧ notices.map Notice.error = es ∧ t.map Glyph.char = ds ∧
      Scan.lexemes file last s =
        (items ++ (Scan.lexemes file last t).1, notices ++ (Scan.lexemes file last t).2)

theorem Scan.lexemes_of_skip {file : String} {last : Pos} {s : List Glyph} {g : Glyph}
    {r : List Glyph} (h : Gap.skip .between s = { rest := g :: r }) :
    lexemes file last s =
      ([⟨(Lexeme.read g r).token, (Lexeme.read g r).text, posOf file g⟩] ++
          (lexemes file last (Lexeme.read g r).rest).1,
        (Lexeme.read g r).notices.map (fun n => ⟨n.2.length, posAt file last n.2, n.1⟩) ++
          (lexemes file last (Lexeme.read g r).rest).2) := by
  rw [lexemes]
  split
  next heq =>
    rw [h] at heq
    cases heq
  next heq =>
    rw [h] at heq ⊢
    cases heq
    rfl

theorem Scan.lexemes_congr {file : String} {last : Pos} {s t : List Glyph}
    (h : Gap.skip .between s = Gap.skip .between t) :
    lexemes file last s = lexemes file last t := by
  rw [lexemes, lexemes, h]

namespace Lexes

variable {cs ds fs : List Char} {ps qs : List (Token × String)} {es es' : List LexError}

theorem nil : Lexes cs [] [] cs := fun _ _ s hs => ⟨[], [], s, rfl, rfl, hs, rfl⟩

theorem append (h : Lexes cs ps es ds) (h' : Lexes ds qs es' fs) :
    Lexes cs (ps ++ qs) (es ++ es') fs := by
  intro file last s hs
  obtain ⟨items, notices, t, hitems, hnotices, ht, hrun⟩ := h file last s hs
  obtain ⟨items', notices', t', hitems', hnotices', ht', hrun'⟩ := h' file last t ht
  refine ⟨items ++ items', notices ++ notices', t', ?_, ?_, ht', ?_⟩
  · rw [List.map_append, hitems, hitems']
  · rw [List.map_append, hnotices, hnotices']
  · rw [hrun, hrun', List.append_assoc, List.append_assoc]

/-- Behind a blank. -/
theorem blank (h : Lexes cs ps es ds) : Lexes (' ' :: cs) ps es ds := by
  intro file last s hs
  obtain ⟨g, r, rfl, hg, hr⟩ := List.map_eq_cons_iff.1 hs
  have hskip : Gap.skip .between (g :: r) = Gap.skip .between r := by
    rw [Gap.skip, hg]
    rfl
  rw [Scan.lexemes_congr hskip]
  exact h file last r hr

/-- One lexeme, where no gap starts. -/
theorem one {c : Char} {piece : Token × String} (hblank : isBlank c = false)
    (hslash : c = '/' → Stops (· == '/') cs ∧ Stops (· == '*') cs)
    (hread : ∀ g r, g.char = c → r.map Glyph.char = cs → (Lexeme.read g r).token = piece.1 ∧
      (Lexeme.read g r).text = piece.2 ∧ (Lexeme.read g r).notices.map Prod.fst = es ∧
        (Lexeme.read g r).rest.map Glyph.char = ds) : Lexes (c :: cs) [piece] es ds := by
  intro file last s hs
  obtain ⟨g, r, rfl, rfl, hr⟩ := List.map_eq_cons_iff.1 hs
  have hskip : Gap.skip .between (g :: r) = { rest := g :: r } := by
    rw [Gap.skip, hblank]
    by_cases hg : g.char = '/'
    · obtain ⟨hline, hopen⟩ := hslash hg
      rw [startsWith_eq_false (hr ▸ hline), startsWith_eq_false (hr ▸ hopen)]
      simp
    · simp [hg]
  obtain ⟨htoken, htext, hnotices, hrest⟩ := hread g r rfl hr
  refine ⟨_, _, _, ?_, ?_, hrest, Scan.lexemes_of_skip hskip⟩
  · rw [List.map_singleton, Item.piece, htoken, htext]
  · rw [List.map_map, ← hnotices]
    rfl

end Lexes

theorem isTailChar_of_isLetter {c : Char} (h : isLetter c = true) : isTailChar c = true := by
  rw [isTailChar, isWordChar, h, Bool.true_or, Bool.true_or]

theorem isTailChar_of_isDigit {c : Char} (h : isDigit c = true) : isTailChar c = true := by
  rw [isTailChar, isWordChar, h, Bool.or_true, Bool.true_or]

/-- Words and numbers do not start like gaps. -/
theorem not_isBlank {c : Char} (h : isTailChar c = true) : isBlank c = false := by
  by_contra hblank
  simp only [isBlank, Bool.not_eq_false, Bool.or_eq_true, beq_iff_eq] at hblank
  rcases hblank with ((((rfl | rfl) | rfl) | rfl) | rfl) | rfl <;> exact absurd h (by decide)

theorem not_isLetter {c : Char} (h : isDigit c = true) : isLetter c = false := by
  by_contra hletter
  simp only [isLetter, isDigit, Bool.not_eq_false, Bool.or_eq_true, Bool.and_eq_true,
    decide_eq_true_eq, beq_iff_eq, Char.le_def] at h hletter
  rcases hletter with (hletter | hletter) | rfl
  · exact absurd (UInt32.le_trans hletter.1 h.2) (by decide)
  · exact absurd (UInt32.le_trans hletter.1 h.2) (by decide)
  · exact absurd h (by decide)

theorem isTailChar_of_isNumberChar {c : Char} (h : isNumberChar c = true) :
    isTailChar c = true := by
  simp only [isNumberChar, isExponentMark, isFloatSuffix, isUnsignedSuffix, Bool.or_eq_true,
    beq_iff_eq] at h
  rcases h with ((h | h | h) | h | h) | h | h
  · exact isTailChar_of_isDigit h
  all_goals
    rw [h]
    rfl

section

variable {cs : List Char}

/-- A word is read up to the first character that is no part of it. -/
theorem lexes_word {w : String} (hw : IsIdentifier w) (hcs : Stops isWordChar cs) :
    Lexes (w.toList ++ cs) [(.ofWord w, w)] [] cs := by
  obtain ⟨hword, c, ds, hlist, hletter⟩ := hw
  rw [hlist, List.cons_append]
  have htail := isTailChar_of_isLetter hletter
  refine .one (not_isBlank htail) (fun h => absurd (h ▸ htail) (by decide)) ?_
  rintro g r rfl hr
  have hmap : (g :: r).map Glyph.char = w.toList ++ cs := by
    rw [List.map_cons, hr, hlist, List.cons_append]
  obtain ⟨a, t, hsplit, ha, ht⟩ := List.map_eq_append_iff.1 hmap
  have hrun : run isWordChar (g :: r) = (a, t) := by
    rw [hsplit]
    exact Lexeme.run_append (ha ▸ hword) (ht ▸ hcs)
  have hspell : spell a = w := by rw [spell, ha, String.ofList_toList]
  have hread : Lexeme.read g r = { token := .ofWord w, text := w, rest := t } := by
    simp only [Lexeme.read, if_pos hletter, Lexeme.word, hrun, hspell]
  rw [hread]
  exact ⟨rfl, rfl, rfl, ht⟩

/-- A number starts with a digit, or with a point and a digit. -/
theorem NumberText.head_cases (n : NumberText) : (∃ c ds, n.chars = c :: ds ∧ isDigit c = true) ∨
    ∃ c ds, n.chars = '.' :: c :: ds ∧ isDigit c = true := by
  rcases hwhole : n.whole with _ | ⟨c, ds⟩
  · have hlength := n.starts.resolve_left (not_not.2 hwhole)
    rcases n.isFraction with hf | ⟨_ | ⟨c, ds⟩, hf, hds⟩
    · rw [hf] at hlength
      cases hlength
    · rw [hf] at hlength
      exact absurd hlength (lt_irrefl _)
    · exact .inr ⟨c, _, by rw [NumberText.chars, hwhole, hf]; rfl, hds c List.mem_cons_self⟩
  · exact .inl ⟨c, _, by rw [NumberText.chars, hwhole]; rfl,
      n.isDigit_whole c (hwhole ▸ List.mem_cons_self)⟩

theorem NumberText.exists_cons (n : NumberText) :
    ∃ c ds, n.chars = c :: ds ∧ isTailChar c = true := by
  rcases n.head_cases with ⟨c, ds, hchars, hc⟩ | ⟨c, ds, hchars, -⟩
  · exact ⟨c, ds, hchars, isTailChar_of_isDigit hc⟩
  · exact ⟨'.', c :: ds, hchars, rfl⟩

/-- A number is read as one. -/
theorem Lexeme.read_number (n : NumberText) {g : Glyph} {r : List Glyph}
    (h : (g :: r).map Glyph.char = n.chars ++ cs) : Lexeme.read g r = Lexeme.number (g :: r) := by
  rcases n.head_cases with ⟨c, ds, hchars, hc⟩ | ⟨c, ds, hchars, hc⟩
  · rw [hchars] at h
    obtain ⟨hg, -⟩ := List.cons.inj h
    rw [Lexeme.read, hg, not_isLetter hc, hc]
    rfl
  · rw [hchars] at h
    obtain ⟨hg, hr⟩ := List.cons.inj h
    obtain ⟨d, r', rfl, hd, -⟩ := List.map_eq_cons_iff.1 hr
    have hstarts : startsWith isDigit (d :: r') = true := by rw [startsWith, hd, hc]
    rw [Lexeme.read, hg, hstarts]
    rfl

/-- A number and the letters, digits and points behind it make up one lexeme. -/
theorem lexes_tailed (n : NumberText) {v : List Char} (hv : ∀ c ∈ v, isTailChar c = true)
    (hstop : Stops isNumberChar (v ++ cs))
    (hpoint : n.fraction = [] → n.exponent = [] → n.suffix = [] → Stops (· == '.') (v ++ cs))
    (hcs : Stops isTailChar cs) :
    Lexes (n.chars ++ (v ++ cs))
      [(if v.isEmpty then .number n.kind else .error, String.ofList (n.chars ++ v))]
      (if v.isEmpty then [] else [.malformed (String.ofList (n.chars ++ v))]) cs := by
  obtain ⟨c, ds, hchars, htail⟩ := n.exists_cons
  rw [hchars, List.cons_append, ← hchars]
  refine .one (not_isBlank htail) (fun h => absurd (h ▸ htail) (by decide)) fun g r hg hr => ?_
  have hmap : (g :: r).map Glyph.char = n.chars ++ (v ++ cs) := by
    rw [List.map_cons, hg, hr, hchars, List.cons_append]
  obtain ⟨t, ht, hnumber⟩ := Lexeme.number_append n hmap hstop hpoint
  obtain ⟨a, t', rfl, ha, ht'⟩ := List.map_eq_append_iff.1 ht
  rw [Lexeme.read_number n hmap, hnumber a t' (Lexeme.run_append (ha ▸ hv) (ht' ▸ hcs)), ← ha,
    List.isEmpty_map]
  refine ⟨rfl, rfl, ?_, ht'⟩
  cases a <;> rfl

/-- What goes on with no word and has no point goes on with no number. -/
theorem Stops.number (hcs : Stops isTailChar cs) : Stops isNumberChar cs ∧ Stops (· == '.') cs := by
  refine ⟨hcs.mono fun c hc => ?_, hcs.mono fun c hc => (Bool.or_eq_false_iff.1 hc).2⟩
  by_contra hnumber
  rw [isTailChar_of_isNumberChar (Bool.not_eq_false _ ▸ hnumber)] at hc
  cases hc

/-- A number is read again as what it was. -/
theorem lexes_number (n : NumberText) (hcs : Stops isTailChar cs) :
    Lexes (n.chars ++ cs) [(.number n.kind, String.ofList n.chars)] [] cs := by
  have h := lexes_tailed n (v := []) nofun hcs.number.1 (fun _ _ _ => hcs.number.2) hcs
  rwa [List.append_nil] at h

/-- A number is malformed in front of a point and a letter. -/
theorem lexes_malformed (n : NumberText) {c : Char} {v : List Char} (hc : isNumberChar c = false)
    (hctail : isTailChar c = true) (hv : ∀ c ∈ v, isTailChar c = true) (hcs : Stops isTailChar cs) :
    Lexes (n.chars ++ ('.' :: c :: v ++ cs)) [(.error, String.ofList (n.chars ++ '.' :: c :: v))]
      [.malformed (String.ofList (n.chars ++ '.' :: c :: v))] cs := by
  have hcv : ∀ d ∈ c :: v, isTailChar d = true := List.forall_mem_cons.2 ⟨hctail, hv⟩
  by_cases hparts : n.fraction = [] ∧ n.exponent = [] ∧ n.suffix = []
  · -- the point belongs to the number, and the letter does not
    obtain ⟨hfraction, hexponent, hsuffix⟩ := hparts
    let m : NumberText :=
      { n with
        fraction := ['.'], kind := .double, isFraction := .inr ⟨[], rfl, nofun⟩
        isSuffix := .inl ⟨hsuffix, rfl⟩
        starts := .inl (n.starts.resolve_right (by rw [hfraction]; exact Nat.not_lt_zero 1)) }
    have hm : ∀ ds, n.chars ++ '.' :: ds = m.chars ++ ds := fun ds => by
      simp [NumberText.chars, m, hfraction, hexponent, hsuffix]
    have h := lexes_tailed m hcv (stops_cons.2 hc) (fun h => absurd h (List.cons_ne_nil _ _)) hcs
    rwa [← hm, ← hm] at h
  · exact lexes_tailed n (v := '.' :: c :: v) (List.forall_mem_cons.2 ⟨rfl, hcv⟩) (stops_cons.2 rfl)
      (fun hf he hu => absurd ⟨hf, he, hu⟩ hparts) hcs

end

/-! ## Punctuators -/

/-- Characters that neither a word, nor a number, nor a gap, nor a directive starts with; only a
point may start a number. -/
def isMark (c : Char) : Bool := !(isWordChar c || isBlank c || c == '#')

/-- The piece that a token with a text of its own is. -/
def Token.piece (t : Token) : Token × String := (t, t.text)

/-- The token of an operator in front of an operand. -/
def UnaryOp.token : UnaryOp → Token
  | step s => .step s
  | plus => .binary (.arith .add)
  | neg => .binary (.arith .sub)
  | not => .not
  | bitNot => .tilde

theorem UnaryOp.unaryOp?_token (op : UnaryOp) : Grammar.unaryOp? op.token = some op := by
  cases op <;> rfl

section

variable {ds : List Char}

/-- A punctuator is read where it is the longest one. -/
theorem lexes_token (t : Token) (c : Char) (more : List Char) (htext : t.text.toList = c :: more)
    (hmark : isMark c = true)
    (hslash : c = '/' → Stops (fun d => d == '/' || d == '*') (more ++ ds))
    (hpoint : c = '.' → Stops isDigit (more ++ ds))
    (h : Lexeme.punctuator? c (more ++ ds).head? (more ++ ds).tail.head? =
      some (t, more.length + 1)) : Lexes (t.text.toList ++ ds) [t.piece] [] ds := by
  simp only [isMark, isWordChar, Bool.not_eq_true', Bool.or_eq_false_iff,
    beq_eq_false_iff_ne] at hmark
  obtain ⟨⟨⟨hletter, hdigit⟩, hblank⟩, hhash⟩ := hmark
  rw [htext, List.cons_append]
  refine .one hblank (fun hc => ⟨?_, ?_⟩) ?_
  · exact (hslash hc).mono fun d hd => (Bool.or_eq_false_iff.1 hd).1
  · exact (hslash hc).mono fun d hd => (Bool.or_eq_false_iff.1 hd).2
  rintro g r rfl hr
  have hnumber : ¬ (isDigit g.char || (g.char == '.' && startsWith isDigit r)) = true := by
    rw [hdigit, Bool.false_or, Bool.and_eq_true_iff, beq_iff_eq]
    rintro ⟨hdot, hstarts⟩
    rw [startsWith_eq_false (hr ▸ hpoint hdot)] at hstarts
    cases hstarts
  rw [← hr, List.head?_map, ← List.map_tail, List.head?_map] at h
  have hread : Lexeme.read g r = { token := t, text := t.text, rest := r.drop more.length } := by
    rw [Lexeme.read, hletter, if_neg Bool.false_ne_true, if_neg hnumber, if_neg hhash, h]
    rfl
  rw [hread]
  refine ⟨rfl, rfl, rfl, ?_⟩
  rw [List.map_drop, hr, List.drop_left]

/-- A punctuator that starts neither a comment nor a number. -/
theorem lexes_plain (t : Token) (c : Char) (more : List Char) (htext : t.text.toList = c :: more)
    (hmark : isMark c = true) (hslash : c ≠ '/') (hpoint : c ≠ '.')
    (h : Lexeme.punctuator? c (more ++ ds).head? (more ++ ds).tail.head? =
      some (t, more.length + 1)) : Lexes (t.text.toList ++ ds) [t.piece] [] ds :=
  lexes_token t c more htext hmark (fun hc => absurd hc hslash) (fun hc => absurd hc hpoint) h

theorem lexes_delim (d : Delimiter) (h : d = .dot → Stops isDigit ds) :
    Lexes (d.sign :: ds) [(Token.delim d).piece] [] ds := by
  have hsign : (Token.delim d).text.toList = [d.sign] := String.toList_ofList
  have hlexes : Lexes ((Token.delim d).text.toList ++ ds) [(Token.delim d).piece] [] ds := by
    cases d with
    | dot => exact lexes_token _ _ _ hsign rfl nofun (fun _ => h rfl) rfl
    | _ => exact lexes_plain _ _ _ hsign rfl (by decide) (by decide) rfl
  rwa [hsign] at hlexes

theorem lexes_step (s : Step) : Lexes (s.sign.toList ++ ds) [(Token.step s).piece] [] ds := by
  have hlexes : Lexes ((Token.step s).text.toList ++ ds) [(Token.step s).piece] [] ds := by
    cases s <;> exact lexes_plain _ _ _ rfl rfl (by decide) (by decide) rfl
  exact hlexes

/-- An operator in front of what does not start with a sign. -/
theorem lexes_unary (op : UnaryOp) (h : Stops (fun c => c == '+' || c == '-' || c == '=') ds) :
    Lexes (op.sign.toList ++ ds) [op.token.piece] [] ds := by
  have hne : ∀ c, (c == '+' || c == '-' || c == '=') = true → ds.head? ≠ some c :=
    fun c hc hhead => Bool.false_ne_true ((h c hhead).symm.trans hc)
  have hplus := hne '+' rfl
  have hminus := hne '-' rfl
  have hequal := hne '=' rfl
  cases op with
  | step s => exact lexes_step s
  | plus =>
    refine lexes_plain (.binary (.arith .add)) '+' [] rfl rfl (by decide) (by decide) ?_
    simp [Lexeme.punctuator?, Lexeme.withAssign, hplus, hequal]
  | neg =>
    refine lexes_plain (.binary (.arith .sub)) '-' [] rfl rfl (by decide) (by decide) ?_
    simp [Lexeme.punctuator?, Lexeme.withAssign, hminus, hequal]
  | not =>
    refine lexes_plain .not '!' [] rfl rfl (by decide) (by decide) ?_
    simp [Lexeme.punctuator?, hequal]
  | bitNot => exact lexes_plain .tilde '~' [] rfl rfl (by decide) (by decide) rfl

theorem lexes_question : Lexes ('?' :: ds) [Token.question.piece] [] ds :=
  lexes_plain .question '?' [] rfl rfl (by decide) (by decide) rfl

theorem lexes_colon : Lexes (':' :: ds) [Token.colon.piece] [] ds :=
  lexes_plain .colon ':' [] rfl rfl (by decide) (by decide) rfl

/-- What goes on with no piece in front of it: the end of a text, or a blank. -/
def Parted (ds : List Char) : Prop := ds = [] ∨ ∃ es, ds = ' ' :: es

theorem Parted.stops {p : Char → Bool} (h : Parted ds) (hp : p ' ' = false) : Stops p ds := by
  obtain rfl | ⟨es, rfl⟩ := h
  · exact stops_nil
  · exact stops_cons.2 hp

/-- Operators and delimiters. -/
def Token.IsSign : Token → Prop
  | assign _ | question | colon | binary _ | step _ | not | tilde | delim _ => True
  | _ => False

/-- A sign is read as itself when it stands apart. -/
theorem lexes_sign {t : Token} (ht : t.IsSign) (hds : Parted ds) :
    Lexes (t.text.toList ++ ds) [t.piece] [] ds := by
  cases t with
  | assign op =>
    obtain rfl | ⟨es, rfl⟩ := hds
    all_goals
      rcases op with _ | op
      · exact lexes_plain _ _ _ rfl rfl (by decide) (by decide) rfl
      · cases op <;> exact lexes_token _ _ _ rfl rfl (fun _ => stops_cons.2 rfl) nofun rfl
  | binary op =>
    obtain rfl | ⟨es, rfl⟩ := hds
    all_goals
      rcases op with op | op | op <;> cases op <;> first
        | exact lexes_token _ _ _ rfl rfl (fun _ => stops_cons.2 rfl) nofun rfl
        | exact lexes_token _ _ _ rfl rfl (fun _ => stops_nil) nofun rfl
  | not =>
    obtain rfl | ⟨es, rfl⟩ := hds
    all_goals exact lexes_plain .not '!' [] rfl rfl (by decide) (by decide) rfl
  | tilde => exact lexes_plain .tilde '~' [] rfl rfl (by decide) (by decide) rfl
  | step s => exact lexes_step s
  | question => exact lexes_question
  | colon => exact lexes_colon
  | delim d =>
    rw [Token.text, String.toList_ofList]
    exact lexes_delim d fun _ => hds.stops rfl
  | _ => exact ht.elim

/-- An operator between blanks. -/
theorem lexes_binary (op : BinaryOp) :
    Lexes (op.sign.toList ++ ' ' :: ds) [(Token.binary op).piece] [] (' ' :: ds) :=
  lexes_sign (t := .binary op) trivial (.inr ⟨ds, rfl⟩)

theorem lexes_assign (op : Option ArithOp) :
    Lexes ((assignSign op).toList ++ ' ' :: ds) [(Token.assign op).piece] [] (' ' :: ds) :=
  lexes_sign (t := .assign op) trivial (.inr ⟨ds, rfl⟩)

end

end Shader
