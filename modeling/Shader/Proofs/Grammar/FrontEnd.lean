import Shader.Proofs.Grammar.Composition
import Shader.Proofs.Grammar.Rejection
import Shader.Proofs.Token.Tiling

/-!
# Two ways to parse a text

A text can be parsed at once, or it can be scanned first and its items parsed then. Where scanning
reports something the second way still parses, but what it reads is not used. Both ways report the
same, in the same order, and come to the same shader.

What scanning reports is not always seen in the items: an ill-formed byte in a comment leaves none,
and neither does a comment that misses its end mark. So the reports are counted. The other way
around, an item that is no token is always reported, and no production reads it.
-/

namespace Shader

namespace Grammar

open Ebnf

/-! ## Items that words are made of -/

/-- All items of a right side are of a kind. -/
def Ebnf.All {σ : Type} (P : Item → Prop) : Ebnf σ → Prop
  | .item kind => ∀ i, kind i → P i
  | .sub _ => True
  | .empty => True
  | .seq e e' => e.All P ∧ e'.All P
  | .alt e e' => e.All P ∧ e'.All P
  | .many e => e.All P

section

variable {σ : Type} {P : Item → Prop} {e e' : Ebnf σ}

@[simp] theorem all_sub {symbol : σ} : (sub symbol).All P := trivial

@[simp] theorem all_append : (e ++ e').All P ↔ e.All P ∧ e'.All P := Iff.rfl

@[simp] theorem all_or : (e ||| e').All P ↔ e.All P ∧ e'.All P := Iff.rfl

@[simp] theorem all_many : (many e).All P ↔ e.All P := Iff.rfl

@[simp] theorem all_opt : (opt e).All P ↔ e.All P := and_iff_left trivial

@[simp] theorem all_list : (list e : Ebnf σ).All P ↔ e.All P ∧ (delim .comma : Ebnf σ).All P := by
  constructor
  · rintro ⟨h, hcomma, -⟩
    exact ⟨h, hcomma⟩
  · rintro ⟨h, hcomma⟩
    exact ⟨h, hcomma, h⟩

end

/-- The items of a word are of the kind of all items that can be in one. -/
theorem forall_word {P : Item → Prop} (hrule : ∀ symbol, (rule symbol).All P)
    {e : Ebnf Nonterminal} {w : List Item} (h : Word e w) (he : e.All P) : ∀ i ∈ w, P i := by
  induction h with
  | item h => exact List.forall_mem_singleton.2 (he _ h)
  | sub _ ih => exact ih (hrule _)
  | empty => exact List.forall_mem_nil _
  | seq _ _ ih ih' => exact List.forall_mem_append.2 ⟨ih he.1, ih' he.2⟩
  | left _ ih => exact ih he.1
  | right _ ih => exact ih he.2
  | done => exact List.forall_mem_nil _
  | more _ _ ih ih' => exact List.forall_mem_append.2 ⟨ih he, ih' he⟩

/-! ## Tokens -/

/-- An item is a token. -/
def IsToken (i : Item) : Prop := i.token ≠ .error

section

variable {σ : Type}

theorem isToken_of {i : Item} {t : Token} (h : i.token = t) (ht : t ≠ .error) : IsToken i := by
  rw [IsToken, h]
  exact ht

@[simp] theorem all_tok {t : Token} : (tok t : Ebnf σ).All IsToken ↔ t ≠ .error :=
  ⟨fun h => h ⟨t, "", {}⟩ rfl, fun ht _ hi => isToken_of hi ht⟩

@[simp] theorem all_delim {d : Delimiter} : (delim d : Ebnf σ).All IsToken := all_tok.2 nofun

@[simp] theorem all_word {k : Keyword} : (word k : Ebnf σ).All IsToken := all_tok.2 nofun

@[simp] theorem all_isType : (item IsType : Ebnf σ).All IsToken := fun _ h =>
  isToken_of h.choose_spec nofun

@[simp] theorem all_isNumber : (item IsNumber : Ebnf σ).All IsToken := fun _ h =>
  isToken_of h.choose_spec nofun

@[simp] theorem all_isSelector : (item IsSelector : Ebnf σ).All IsToken := fun _ h =>
  isToken_of h.1 nofun

@[simp] theorem all_isSmall : (item IsSmall : Ebnf σ).All IsToken := fun _ h => isToken_of h.1 nofun

@[simp] theorem all_isAssign : (item IsAssign : Ebnf σ).All IsToken := fun _ h =>
  isToken_of h.choose_spec nofun

@[simp] theorem all_isStep : (item IsStep : Ebnf σ).All IsToken := fun _ h =>
  isToken_of h.choose_spec nofun

@[simp] theorem all_isUnaryOp : (item IsUnaryOp : Ebnf σ).All IsToken := by
  rintro i ⟨op, hop⟩ herror
  rw [herror] at hop
  cases hop

@[simp] theorem all_isBinaryOp {level : Nat} : (item (IsBinaryOp level) : Ebnf σ).All IsToken := by
  rintro i ⟨op, hop⟩ herror
  rw [herror] at hop
  cases hop

end

/-- No rule asks for an item that is no token. -/
theorem isToken_rule : ∀ symbol : Nonterminal, (rule symbol).All IsToken
  | .binary 0 => trivial
  | .binary (_ + 1) => by simp [rule]
  | .program | .params | .param | .layout | .layoutEntry | .varSpec | .block | .expression
  | .assignment | .conditional | .unary | .selection | .args => by simp [rule]
  | .definition => by simp [rule, funcForm, globalForm, varForm]
  | .stmt => by
    simp [rule, varForm, exprForm, ifForm, forForm, whileForm, doForm, branchForm, returnForm,
      condition]
  | .primary => by simp [rule, application]

end Grammar

open Shader.Grammar Shader.Parser

/-! ## Counting errors -/

/-- The number of errors and the first of them, as they are kept while errors are reported. -/
structure Tally where
  /-- the number of errors -/
  count : Nat := 0
  /-- the first error -/
  first : Option Report := none

/-- One more error. -/
def Tally.add (t : Tally) (r : Report) : Tally where
  count := t.count + 1
  first := if t.count = 0 then some r else t.first

/-- The errors of a parse. -/
def Parse.tally (p : Parse) : Tally := p.reports.foldl Tally.add {}

theorem foldl_add (rs : List Report) : ∀ ls : List Report,
    rs.foldl Tally.add ⟨ls.length, ls.head?⟩ = ⟨(ls ++ rs).length, (ls ++ rs).head?⟩ := by
  induction rs with
  | nil =>
    intro ls
    rw [List.append_nil]
    rfl
  | cons r rs ih =>
    intro ls
    have hadd : Tally.add ⟨ls.length, ls.head?⟩ r = ⟨(ls ++ [r]).length, (ls ++ [r]).head?⟩ := by
      cases ls <;> simp [Tally.add]
    rw [List.foldl_cons, hadd, ih, List.append_assoc, List.singleton_append]

theorem Parse.tally_eq (p : Parse) : p.tally = ⟨p.reports.length, p.reports.head?⟩ :=
  foldl_add p.reports []

/-! ## Parsing items -/

/-- What has been reported before a stream is parsed stays in front, and is all that makes a
difference. -/
theorem Stream.parse_reported (stream : Stream) (reports : List Report) :
    (stream.parse reports).reports = reports ++ (stream.parse []).reports ∧
      (stream.parse reports).cursor = (stream.parse []).cursor ∧
      ∀ p, (stream.parse reports).program = some p ↔
        reports = [] ∧ (stream.parse []).program = some p := by
  have hrun := (built_program (depthBound stream.items)).reported reports { stream }
  rw [Parser.reported, List.append_nil] at hrun
  rcases hparse : program (depthBound stream.items) { stream } with ⟨r, s'⟩
  rw [hparse] at hrun
  refine ⟨?_, ?_, fun p => ?_⟩
  · simp only [parse, hrun, hparse]
    rfl
  · simp only [parse, hrun, hparse]
    rfl
  · simp only [parse, hrun, hparse, Parser.reported]
    rcases reports with _ | ⟨x, reports⟩
    · simp
    · simp

/-- Where a shader is found, nothing is reported. -/
theorem Stream.reports_eq_nil {stream : Stream} {reports : List Report} {p : Program}
    (h : (stream.parse reports).program = some p) : (stream.parse reports).reports = [] := by
  simp only [parse] at h ⊢
  split at h
  next hempty => exact List.isEmpty_iff.1 hempty
  next => cases h

section

variable {s : Source}

/-- The items of a text are closed already. -/
theorem Source.closeItems_scan (s : Source) : closeItems s.scan.items = s.scan.items := by
  obtain ⟨e, he, heof⟩ := s.getLast?_scan
  simp only [closeItems, he, heof, Token.isEof, if_true]

theorem Source.dropLast_scan (s : Source) :
    ∀ i ∈ (closeItems s.scan.items).dropLast, i.token ≠ .eof := by
  obtain ⟨w, e, hscan, -, hw⟩ := s.exists_scan
  rwa [s.closeItems_scan, hscan, List.dropLast_concat]

theorem Source.parseItems_scan (s : Source) :
    parseItems s.scan.items = (Stream.ofItems s.scan.items).parse [] := by
  rw [Stream.ofItems, s.closeItems_scan]
  rfl

/-- Items of a text are a shader, and nothing is reported, or they are none, and one thing is. -/
theorem Source.parseItems_cases (s : Source) :
    (∃ p, (parseItems s.scan.items).program = some p ∧ (parseItems s.scan.items).reports = []) ∨
      (parseItems s.scan.items).program = none ∧ ∃ r, (parseItems s.scan.items).reports = [r] := by
  rcases hprogram : (parseItems s.scan.items).program with _ | p
  · rw [s.parseItems_scan] at hprogram ⊢
    obtain ⟨i, -, hreports, -⟩ := Stream.firstImpossible_reach s.dropLast_scan hprogram
    exact .inr ⟨rfl, _, hreports⟩
  · exact .inl ⟨p, rfl, Stream.reports_eq_nil hprogram⟩

/-- The items of a shader are tokens. -/
theorem Source.isToken_scan {p : Program} (h : (parseItems s.scan.items).program = some p) :
    ∀ i ∈ s.scan.items, IsToken i := by
  rw [s.parseItems_scan] at h
  have hword := (Stream.isSome_parse_iff _ s.dropLast_scan).1 (Option.isSome_of_eq_some h)
  rw [s.closeItems_scan] at hword
  exact forall_word isToken_rule hword all_sub

/-- A shader is read up to the end of the text. -/
theorem Source.cursor_parseItems {p : Program} (h : (parseItems s.scan.items).program = some p) :
    (parseItems s.scan.items).cursor + 1 = s.scan.items.length ∧
      ∃ e, s.scan.items[(parseItems s.scan.items).cursor]? = some e ∧ e.token = .eof := by
  obtain ⟨s', hrun⟩ := Stream.parse_eq_some h
  obtain ⟨e, he, heof⟩ := s.getLast?_scan
  have hcursor : (parseItems s.scan.items).cursor = s'.stream.cursor.toNat :=
    congrArg (fun r : Option Program × Parsing => r.2.stream.cursor.toNat) hrun
  have hready : ({ stream := { items := s.scan.items } } : Parsing).Ready :=
    Parsing.ready_start he heof
  obtain ⟨hgoes, hend, -⟩ := program_some hready hrun
  obtain ⟨e, hleft, he⟩ := hend.left_eq hgoes.items
  have hitems : s'.stream.items = s.scan.items := hgoes.items
  rw [Parsing.left, hitems] at hleft
  have hlength := congrArg List.length hleft
  rw [List.length_drop, List.length_singleton] at hlength
  refine ⟨by omega, e, ?_, he⟩
  rw [hcursor, ← List.head?_drop, hleft]
  rfl

/-- Parsing a text at once and parsing the items that scanning finds in it come to the same: a
shader is read at once if and only if scanning reports nothing and the items are one, it is the same
shader, and the same is reported, first what is wrong with the lexemes. At most one report is about
the items. There is a shader if and only if there are no errors, and then all items are tokens and
the cursor has come to the end of the text. -/
theorem Source.parse_parseItems (s : Source) :
    (∀ p, s.parse.program = some p ↔
      s.scan.reports = [] ∧ (parseItems s.scan.items).program = some p) ∧
    s.parse.reports = s.scan.reports ++ (parseItems s.scan.items).reports ∧
    (s.parse.program = none ↔ 0 < s.parse.tally.count) ∧
    (s.parse.tally.count = s.scan.reports.length ∨
      s.parse.tally.count = s.scan.reports.length + 1) ∧
    s.parse.tally.first = s.parse.reports.head? ∧
    ∀ p, s.parse.program = some p →
      s.parse.cursor + 1 = s.scan.items.length ∧
      (∃ e, s.scan.items[s.parse.cursor]? = some e ∧ e.token = .eof) ∧
      ∀ i ∈ s.scan.items, i.token ≠ .error := by
  obtain ⟨hreports, hcursor, hprogram⟩ := Stream.parse_reported { items := s.scan.items }
    s.scan.reports
  have hprogram : ∀ p, s.parse.program = some p ↔
    s.scan.reports = [] ∧ (parseItems s.scan.items).program = some p := hprogram
  have hreports : s.parse.reports = s.scan.reports ++ (parseItems s.scan.items).reports := hreports
  have hcursor : s.parse.cursor = (parseItems s.scan.items).cursor := hcursor
  rw [Parse.tally_eq, hreports, List.length_append, hcursor]
  refine ⟨hprogram, rfl, ?_, ?_, rfl, fun p hp => ?_⟩
  · rw [Option.eq_none_iff_forall_ne_some]
    constructor
    · intro hnone
      rcases s.parseItems_cases with ⟨p, hp, -⟩ | ⟨-, r, hone⟩
      · apply Nat.add_pos_left
        rw [List.length_pos_iff]
        intro hscan
        exact hnone p ((hprogram p).2 ⟨hscan, hp⟩)
      · rw [hone]
        exact Nat.succ_pos _
    · intro hpos p hp
      obtain ⟨hscan, hp⟩ := (hprogram p).1 hp
      rcases s.parseItems_cases with ⟨-, -, hnil⟩ | ⟨hnone, -⟩
      · rw [hscan, hnil] at hpos
        cases hpos
      · rw [hnone] at hp
        cases hp
  · rcases s.parseItems_cases with ⟨p, -, hnil⟩ | ⟨-, r, hone⟩
    · exact .inl (by rw [hnil]; rfl)
    · exact .inr (by rw [hone]; rfl)
  · have hitems := ((hprogram p).1 hp).2
    obtain ⟨hlast, heof⟩ := Source.cursor_parseItems hitems
    exact ⟨hlast, heof, Source.isToken_scan hitems⟩

end

end Shader
