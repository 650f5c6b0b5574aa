import Mathlib.Computability.RegularExpressions
import Mathlib.Tactic.IntervalCases
import Shader.Proofs.Token.Pieces
import Shader.Proofs.Grammar.Renderings

/-!
# The forms of numbers

The four kinds of numbers as regular expressions: digits alone, digits and the suffix of unsigned
numbers, a number with a fraction or an exponent, and such a number with the suffix of single
precision. They describe the texts that are scanned as one number without a complaint. Any other
text that starts like a number starts with an error.
-/

namespace Shader

open Text RegularExpression

/-! ## Forms -/

namespace NumberForm

/-- One of some characters. -/
def oneOf (cs : List Char) : RegularExpression Char := cs.foldr (fun c P => char c + P) 0

/-- A digit. -/
def digit : RegularExpression Char := oneOf ['0', '1', '2', '3', '4', '5', '6', '7', '8', '9']

/-- Digits, one at least. -/
def digits : RegularExpression Char := digit * star digit

/-- An exponent. -/
def exponent : RegularExpression Char := oneOf ['e', 'E'] * (1 + oneOf ['+', '-']) * digits

/-- A point and digits, on one side of it at least. -/
def pointed : RegularExpression Char := digits * char '.' * star digit + char '.' * digits

/-- A number with a fraction or an exponent. -/
def floating : RegularExpression Char := pointed * (1 + exponent) + digits * exponent

end NumberForm

open NumberForm in
/-- The texts of the numbers of a kind. -/
def NumberKind.form : NumberKind → RegularExpression Char
  | int => digits
  | uint => digits * oneOf ['u', 'U']
  | double => floating
  | float => floating * oneOf ['f', 'F']

namespace NumberForm

variable {w : List Char}

theorem mem_oneOf {cs : List Char} : w ∈ (oneOf cs).matches' ↔ ∃ c ∈ cs, w = [c] := by
  induction cs with
  | nil => exact iff_of_false (Set.notMem_empty w) (by simp)
  | cons c cs ih =>
    rw [oneOf, List.foldr_cons, matches'_add, Language.mem_add, ← oneOf, ih,
      List.exists_mem_cons_iff]
    exact or_congr_left Set.mem_singleton_iff

theorem mem_optional {P : RegularExpression Char} :
    w ∈ (1 + P).matches' ↔ w = [] ∨ w ∈ P.matches' := by
  rw [matches'_add, Language.mem_add, matches'_epsilon, Language.mem_one]

theorem mem_digit : w ∈ digit.matches' ↔ ∃ c, isDigit c = true ∧ w = [c] := by
  rw [digit, mem_oneOf]
  have hall : ∀ c ∈ ['0', '1', '2', '3', '4', '5', '6', '7', '8', '9'], isDigit c = true :=
    List.all_eq_true.1 (by decide)
  refine exists_congr fun c => and_congr_left fun _ => ⟨hall c, fun h => ?_⟩
  · simp only [isDigit, Bool.and_eq_true, decide_eq_true_eq, Char.le_def,
      UInt32.le_iff_toNat_le] at h
    have hc : c = Char.ofNat c.val.toNat := (Char.ofNat_toNat c).symm
    have hlow : 48 ≤ c.val.toNat := h.1
    have hhigh : c.val.toNat ≤ 57 := h.2
    rw [hc]
    generalize c.val.toNat = n at hlow hhigh
    interval_cases n <;> decide

theorem mem_star_digit : w ∈ (star digit).matches' ↔ ∀ c ∈ w, isDigit c = true := by
  rw [matches'_star, Language.mem_kstar]
  constructor
  · rintro ⟨L, rfl, hL⟩ c hc
    obtain ⟨v, hv, hc⟩ := List.mem_flatten.1 hc
    obtain ⟨d, hd, rfl⟩ := mem_digit.1 (hL v hv)
    rwa [List.mem_singleton.1 hc]
  · intro h
    refine ⟨w.map fun c => [c], by simp [← List.flatMap_def], List.forall_mem_map.2 fun c hc => ?_⟩
    exact mem_digit.2 ⟨c, h c hc, rfl⟩

theorem mem_digits : w ∈ digits.matches' ↔ w ≠ [] ∧ ∀ c ∈ w, isDigit c = true := by
  rw [digits, matches'_mul, Language.mem_mul]
  constructor
  · rintro ⟨a, ha, b, hb, rfl⟩
    obtain ⟨c, hc, rfl⟩ := mem_digit.1 ha
    exact ⟨List.cons_ne_nil _ _, List.forall_mem_cons.2 ⟨hc, mem_star_digit.1 hb⟩⟩
  · rintro ⟨hne, h⟩
    obtain ⟨c, w, rfl⟩ := List.exists_cons_of_ne_nil hne
    obtain ⟨hc, hw⟩ := List.forall_mem_cons.1 h
    exact ⟨[c], mem_digit.2 ⟨c, hc, rfl⟩, w, mem_star_digit.2 hw, rfl⟩

theorem mem_pair {a b : Char} : w ∈ (oneOf [a, b]).matches' ↔
    ∃ c, (c == a || c == b) = true ∧ w = [c] := by
  simp [mem_oneOf]

theorem mem_exponent : w ∈ exponent.matches' ↔ w ≠ [] ∧ IsExponent w := by
  simp only [exponent, matches'_mul, Language.mem_mul, mem_optional, mem_pair, mem_digits]
  constructor
  · rintro ⟨a, ⟨-, ⟨mark, hmark, rfl⟩, sign, hsign, rfl⟩, ds, ⟨hne, hds⟩, rfl⟩
    refine ⟨List.cons_ne_nil _ _, .inr ⟨mark, sign, ds, rfl, hmark, ?_, hne, hds⟩⟩
    exact hsign.imp_right fun ⟨c, hc, h⟩ => ⟨c, h, hc⟩
  · rintro ⟨hne, rfl | ⟨mark, sign, ds, rfl, hmark, hsign, hds⟩⟩
    · exact absurd rfl hne
    · refine ⟨mark :: sign, ⟨[mark], ⟨mark, hmark, rfl⟩, sign, ?_, rfl⟩, ds, hds, rfl⟩
      exact hsign.imp_right fun ⟨c, hc, h⟩ => ⟨c, h, hc⟩

theorem mem_optional_exponent : w ∈ (1 + exponent).matches' ↔ IsExponent w := by
  rw [mem_optional, mem_exponent]
  constructor
  · rintro (rfl | h)
    · exact .inl rfl
    · exact h.2
  · exact fun h => or_iff_not_imp_left.2 fun hne => ⟨hne, h⟩

theorem mem_pointed : w ∈ pointed.matches' ↔ ∃ whole ds : List Char, whole ++ '.' :: ds = w ∧
    (∀ c ∈ whole, isDigit c = true) ∧ (∀ c ∈ ds, isDigit c = true) ∧ (whole ≠ [] ∨ ds ≠ []) := by
  simp only [pointed, matches'_add, Language.mem_add, matches'_mul, Language.mem_mul, mem_digits,
    mem_star_digit, matches'_char]
  constructor
  · rintro (⟨-, ⟨whole, ⟨hne, hwhole⟩, -, rfl, rfl⟩, ds, hds, rfl⟩ | ⟨-, rfl, ds, ⟨hne, hds⟩, rfl⟩)
    · exact ⟨whole, ds, by simp, hwhole, hds, .inl hne⟩
    · exact ⟨[], ds, rfl, nofun, hds, .inr hne⟩
  · rintro ⟨whole, ds, rfl, hwhole, hds, hne⟩
    by_cases hnil : whole = []
    · exact .inr ⟨['.'], rfl, ds, ⟨hne.resolve_left (not_not.2 hnil), hds⟩, by rw [hnil]; rfl⟩
    · exact .inl ⟨whole ++ ['.'], ⟨whole, ⟨hnil, hwhole⟩, ['.'], rfl, rfl⟩, ds, hds, by simp⟩

theorem mem_floating : w ∈ floating.matches' ↔ ∃ whole fraction exponent : List Char,
    whole ++ fraction ++ exponent = w ∧ (∀ c ∈ whole, isDigit c = true) ∧ IsFraction fraction ∧
      IsExponent exponent ∧ (fraction.isEmpty && exponent.isEmpty) = false ∧
        (whole ≠ [] ∨ 1 < fraction.length) := by
  rw [floating, matches'_add, Language.mem_add]
  simp only [matches'_mul, Language.mem_mul, mem_pointed, mem_optional_exponent, mem_digits,
    mem_exponent]
  constructor
  · rintro (⟨-, ⟨whole, ds, rfl, hwhole, hds, hne⟩, e, he, rfl⟩ |
      ⟨whole, ⟨hne, hwhole⟩, e, ⟨hne', he⟩, rfl⟩)
    · refine ⟨whole, '.' :: ds, e, rfl, hwhole, .inr ⟨ds, rfl, hds⟩, he, rfl, hne.imp_right ?_⟩
      exact fun hne => Nat.succ_lt_succ (List.length_pos_iff.2 hne)
    · exact ⟨whole, [], e, by simp, hwhole, .inl rfl, he, by simpa using hne', .inl hne⟩
  · rintro ⟨whole, f, e, rfl, hwhole, rfl | ⟨ds, rfl, hds⟩, he, hpart, hstart⟩
    · refine .inr ⟨whole, ⟨hstart.resolve_right (Nat.not_lt_zero 1), hwhole⟩, e, ⟨?_, he⟩, by simp⟩
      simpa using hpart
    · refine .inl ⟨whole ++ '.' :: ds, ⟨whole, ds, rfl, hwhole, hds, hstart.imp_right ?_⟩, e, he,
        rfl⟩
      exact fun hlt => List.length_pos_iff.1 (Nat.lt_of_succ_lt_succ hlt)

end NumberForm

open NumberForm

/-- The forms describe the numbers that are well formed. -/
theorem NumberKind.mem_form {kind : NumberKind} {w : List Char} :
    w ∈ kind.form.matches' ↔ ∃ n : NumberText, n.kind = kind ∧ n.chars = w := by
  constructor
  · intro h
    cases kind with
    | int =>
      obtain ⟨hne, hw⟩ := mem_digits.1 h
      exact ⟨⟨w, [], [], [], .int, hw, .inl rfl, .inl rfl, .inl ⟨rfl, rfl⟩, .inl hne⟩, rfl,
        by simp [NumberText.chars]⟩
    | uint =>
      obtain ⟨ds, hds, u, hu, rfl⟩ := Language.mem_mul.1 h
      obtain ⟨hne, hds⟩ := mem_digits.1 hds
      obtain ⟨c, hc, rfl⟩ := mem_pair.1 hu
      exact ⟨⟨ds, [], [], [c], .uint, hds, .inl rfl, .inl rfl, .inr ⟨c, rfl, .inr ⟨hc, rfl, rfl⟩⟩,
        .inl hne⟩, rfl, by simp [NumberText.chars]⟩
    | double =>
      obtain ⟨whole, f, e, rfl, hwhole, hf, he, hpart, hstart⟩ := mem_floating.1 h
      exact ⟨⟨whole, f, e, [], .double, hwhole, hf, he, .inl ⟨rfl, by rw [hpart]; rfl⟩, hstart⟩,
        rfl, List.append_nil _⟩
    | float =>
      obtain ⟨v, hv, u, hu, rfl⟩ := Language.mem_mul.1 h
      obtain ⟨whole, f, e, rfl, hwhole, hf, he, hpart, hstart⟩ := mem_floating.1 hv
      obtain ⟨c, hc, rfl⟩ := mem_pair.1 hu
      exact ⟨⟨whole, f, e, [c], .float, hwhole, hf, he, .inr ⟨c, rfl, .inl ⟨hc, hpart, rfl⟩⟩,
        hstart⟩, rfl, rfl⟩
  · rintro ⟨⟨whole, f, e, u, kind, hwhole, hf, he, hsuffix, hstart⟩, rfl, rfl⟩
    rcases hpart : f.isEmpty && e.isEmpty with _ | _
    · have hmem : whole ++ f ++ e ∈ floating.matches' :=
        mem_floating.2 ⟨whole, f, e, rfl, hwhole, hf, he, hpart, hstart⟩
      rw [hpart] at hsuffix
      obtain ⟨rfl, rfl⟩ | ⟨c, rfl, ⟨hc, -, rfl⟩ | ⟨-, h, -⟩⟩ := hsuffix
      · rwa [NumberText.chars, List.append_nil]
      · exact Language.mem_mul.2 ⟨_, hmem, [c], mem_pair.2 ⟨c, hc, rfl⟩, rfl⟩
      · cases h
    · obtain ⟨rfl, rfl⟩ : f = [] ∧ e = [] := by simpa using hpart
      have hmem : whole ∈ digits.matches' :=
        mem_digits.2 ⟨hstart.resolve_right (Nat.not_lt_zero 1), hwhole⟩
      obtain ⟨rfl, rfl⟩ | ⟨c, rfl, ⟨-, h, -⟩ | ⟨hc, -, rfl⟩⟩ := hsuffix
      · rw [NumberText.chars, List.append_nil, List.append_nil, List.append_nil]
        exact hmem
      · cases h
      · refine Language.mem_mul.2 ⟨whole, hmem, [c], mem_pair.2 ⟨c, hc, rfl⟩, ?_⟩
        simp [NumberText.chars]

/-! ## Scanning -/

/-- A text starts like a number: with a digit, or with a point and a digit. -/
def StartsNumber (cs : List Char) : Prop :=
  ∃ c ds, cs = c :: ds ∧ (isDigit c = true ∨ c = '.' ∧ ∃ d es, ds = d :: es ∧ isDigit d = true)

theorem StartsNumber.glyphs {g : Glyph} {r : List Glyph}
    (h : StartsNumber ((g :: r).map Glyph.char)) :
    (isDigit g.char || (g.char == '.' && startsWith isDigit r)) = true := by
  obtain ⟨c, ds, hcons, hstart⟩ := h
  obtain ⟨rfl, rfl⟩ := List.cons.inj hcons
  rw [Bool.or_eq_true, Bool.and_eq_true, beq_iff_eq]
  refine hstart.imp_right (And.imp_right ?_)
  rintro ⟨d, es, hr, hd⟩
  obtain ⟨g', r', rfl, rfl, -⟩ := List.map_eq_cons_iff.1 hr
  exact hd

namespace Lexeme

theorem stops_run (p : Char → Bool) (s : List Glyph) : Stops p ((run p s).2.map Glyph.char) := by
  intro c hc
  rw [List.head?_map] at hc
  obtain ⟨g, hg, rfl⟩ := Option.map_eq_some_iff.1 hc
  have hnot := List.head?_dropWhile_not (fun g : Glyph => p g.char) s
  have hhead : (s.dropWhile fun g => p g.char).head? = some g := hg
  rwa [hhead] at hnot

/-- A number takes all letters, digits and points behind it. -/
theorem stops_number (s : List Glyph) : Stops isTailChar ((number s).rest.map Glyph.char) :=
  stops_run isTailChar _

/-- Characters that are well formed as a number are read as one. -/
theorem token_number_of_numberText (n : NumberText) {s : List Glyph} {cs : List Char}
    (hs : s.map Glyph.char = n.chars ++ cs) (hcs : Stops isTailChar cs) :
    (number s).token = .number n.kind := by
  obtain ⟨t, ht, hnumber⟩ := number_append n hs hcs.number.1 fun _ _ _ => hcs.number.2
  rw [hnumber [] t (run_append (a := []) nofun (ht ▸ hcs))]
  rfl

/-- What starts like a number is one, or an error. -/
theorem read_cases {g : Glyph} {r : List Glyph} (h : StartsNumber ((g :: r).map Glyph.char)) :
    (∃ kind : NumberKind, (read g r).token = .number kind ∧
      (read g r).text.toList ∈ kind.form.matches') ∨
    (read g r).token = .error ∧ (read g r).notices ≠ [] ∧
      ∀ kind : NumberKind, (read g r).text.toList ∉ kind.form.matches' := by
  have hstart := h.glyphs
  have hletter : ¬ isLetter g.char = true := by
    rw [Bool.or_eq_true, Bool.and_eq_true, beq_iff_eq] at hstart
    obtain hdigit | ⟨hpoint, -⟩ := hstart
    · rw [not_isLetter hdigit]
      exact Bool.false_ne_true
    · rw [hpoint]
      decide
  have hmark : g.char ≠ '#' := by
    intro hmark
    rw [hmark] at hstart
    cases hstart
  have hread : read g r = number (g :: r) := by rw [read, if_neg hletter, if_pos hstart]
  rw [hread]
  obtain herror | ⟨kind, hkind⟩ := token_number (g :: r)
  · refine .inr ⟨herror, notices_number herror, fun kind hmem => ?_⟩
    obtain ⟨n, -, hn⟩ := NumberKind.mem_form.1 hmem
    obtain ⟨piece, hpiece⟩ := takes_number (r := r) hmark
    have hchars : (g :: r).map Glyph.char = n.chars ++ (number (g :: r)).rest.map Glyph.char := by
      rw [hn, hpiece.spell hmark, ← List.map_append, hpiece.append]
    have htoken := token_number_of_numberText n hchars (stops_number _)
    rw [herror] at htoken
    cases htoken
  · obtain ⟨n, rfl, hn⟩ := exists_numberText hstart hkind
    refine .inl ⟨_, hkind, NumberKind.mem_form.2 ⟨n, rfl, ?_⟩⟩
    rw [← hn, String.toList_ofList]

end Lexeme

namespace Source

variable (file w : String)

/-- A text is scanned as one number, without a complaint, if and only if it has its form. -/
theorem scan_number_iff (kind : NumberKind) :
    ((ofText file w).scan.items.map Item.piece = [(.number kind, w), (.eof, "")] ∧
      (ofText file w).scan.reports = []) ↔ w.toList ∈ kind.form.matches' := by
  constructor
  · rintro ⟨hitems, -⟩
    obtain ⟨item, items, hscan, hitem, -⟩ := List.map_eq_cons_iff.1 hitems
    have hspelled := (ofText file w).spelled_scan item (hscan ▸ List.mem_cons_self)
    obtain ⟨htoken, htext⟩ := Prod.mk.inj hitem
    obtain ⟨n, hkind, hn⟩ := hspelled.number kind htoken
    exact NumberKind.mem_form.2 ⟨n, hkind, by rw [← htext, ← hn, String.toList_ofList]⟩
  · intro h
    obtain ⟨n, rfl, hn⟩ := NumberKind.mem_form.1 h
    obtain ⟨last, s, hs, hscan⟩ := exists_scan_toUTF8 file w
    have hlexes := lexes_number n stops_nil
    rw [List.append_nil, hn, String.ofList_toList] at hlexes
    obtain ⟨items, notices, t, hitems, hnotices, ht, hrun⟩ := hlexes file last s hs
    obtain rfl := List.map_eq_nil_iff.1 ht
    rw [Scan.lexemes_nil, List.map_eq_nil_iff.1 hnotices] at hrun
    rw [ofText, hscan, hrun]
    refine ⟨?_, rfl⟩
    rw [List.map_append, hitems]
    rfl

/-- A text that starts like a number starts with a number of its form, or with an error that is
reported. -/
theorem scan_startsNumber (h : StartsNumber w.toList) : ∃ item items,
    (ofText file w).scan.items = item :: items ∧
      ((∃ kind : NumberKind, item.token = .number kind ∧ item.text.toList ∈ kind.form.matches') ∨
        item.token = .error ∧ (ofText file w).scan.reports ≠ [] ∧
          ∀ kind : NumberKind, item.text.toList ∉ kind.form.matches') := by
  obtain ⟨last, s, hs, hscan⟩ := exists_scan_toUTF8 file w
  rw [← hs] at h
  obtain ⟨g, r, rfl⟩ : ∃ g r, s = g :: r := by
    obtain ⟨c, ds, hcons, -⟩ := h
    obtain ⟨g, r, rfl, -⟩ := List.map_eq_cons_iff.1 hcons
    exact ⟨g, r, rfl⟩
  have htail : isTailChar g.char = true := by
    have hstart := h.glyphs
    rw [Bool.or_eq_true, Bool.and_eq_true] at hstart
    exact hstart.elim isTailChar_of_isDigit fun h => by rw [isTailChar, h.1, Bool.or_true]
  have hslash : g.char ≠ '/' := fun hg => absurd (hg ▸ htail) (by decide)
  have hskip : Gap.skip .between (g :: r) = { rest := g :: r } := by
    rw [Gap.skip, not_isBlank htail, if_neg Bool.false_ne_true, if_neg hslash]
  rw [ofText, hscan, Scan.lexemes_of_skip hskip]
  refine ⟨_, _, rfl, (Lexeme.read_cases h).imp_right (And.imp_right (And.imp_left ?_))⟩
  intro hnotices hnil
  simp at hnil
  exact hnotices hnil.1

end Source

end Shader
