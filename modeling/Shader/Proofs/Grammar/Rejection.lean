import Shader.Proofs.Grammar.Completeness
import Shader.Proofs.Grammar.Exploration
import Shader.Proofs.Grammar.Locality
import Shader.Proofs.Grammar.Backtracking

/-!
# What is reported of a text that is no shader

A parse that fails reports one item, the furthest that reading has moved to. It is the first
impossible one: no shader begins with the items up to it, and some shader begins with the items in
front of it, unless the last of them is a name behind a dot that is no selector.

That no shader goes on like this is shown by running the parser on one: it would do the same there,
as it looks no further than it gets. That some shader begins with the items in front holds because
they have been tried.
-/

namespace Shader

namespace Grammar

open Shader.Parser Ebnf

variable {k n m : Nat} {s s' t : Parsing}

/-! ## The bound of a shader -/

/-- Behind what the first parser has read, if it has not failed. -/
theorem agreeAt_bind {α β : Type} {p q : Parser α} {f g : α → Parser β} (h : AgreeAt s p q)
    (hf : ∀ x t, p s = (some x, t) → AgreeAt t (f x) (g x)) : AgreeAt s (p >>= f) (q >>= g) := by
  have hq : p s = q s := h
  rw [AgreeAt]
  rcases hrun : p s with ⟨_ | x, t⟩
  · rw [bind_none hrun, bind_none (hq ▸ hrun)]
  · rw [bind_some hrun, bind_some (hq ▸ hrun)]
    exact hf x t hrun

theorem agree_definitions : ∀ {k l l' : Nat}, k + 1 < n → k + 1 < m → k ≤ l → k ≤ l' →
    Agree k (definitions n l) (definitions m l')
  | 0, _, _, _, _, _, _ => .zero
  | k + 1, l + 1, l' + 1, hn, hm, hl, hl' => by
    refine .token fun s i rest hs hleft hle => ?_
    split
    · rfl
    · have hdefinition : definition n s = definition m s := agree_definition hn hm s hs hle
      have hfirst : AgreeAt s (definition n <|> stuck) (definition m <|> stuck) := by
        rw [AgreeAt, orElse_run, orElse_run, hdefinition]
      refine agreeAt_bind hfirst fun d t hrun => ?_
      obtain ⟨hgoes, w, hw, hspells⟩ := orStuck_some (production_definition n) hs hrun
      have hlen := congrArg List.length hw
      have hpos := List.length_pos_iff.2 (word_ne_nil hspells.word rfl)
      rw [List.length_append] at hlen
      have hrest : Agree k (definitions n l) (definitions m l') :=
        agree_definitions (by omega) (by omega) (by omega) (by omega)
      exact hrest.bind_right t hgoes.ready (by omega)

/-- The bound of a shader makes no difference where it is large enough. -/
theorem agree_program (hn : k + 1 < n) (hm : k + 1 < m) : Agree k (program n) (program m) := by
  refine .pos fun pos s hs hle => agreeAt_bind rfl fun v t hrun => ?_
  obtain ⟨hgoes, w, hw, -⟩ := succeeds_version hs v t hrun
  have hlen := congrArg List.length hw
  rw [List.length_append] at hlen
  have hrest : Agree k (definitions n n) (definitions m m) :=
    agree_definitions hn hm (by omega) (by omega)
  exact hrest.bind_right t hgoes.ready (by omega)

/-! ## The report -/

/-- Reading stops with a report on the furthest item. -/
def Halts (s s' : Parsing) : Prop := ∃ t i, s.Goes t ∧ t.stream.items[t.stream.far]? = some i ∧
  s' = { t with reports := t.reports ++ [⟨i.pos, unexpected i⟩] }

theorem Halts.behind (h : s.Goes t) (h' : Halts t s') : Halts s s' := by
  obtain ⟨u, i, hgoes, hi, hs'⟩ := h'
  exact ⟨u, i, h.trans hgoes, hi, hs'⟩

/-- The furthest place is never behind the last item. -/
theorem far_lt_of_goes (h : s.Goes t) (hfar : s.stream.far < s.stream.items.length) :
    t.stream.far < t.stream.items.length := by
  obtain ⟨log, -, hlog, hlt, -⟩ := h.moves
  rw [h.items, hlog]
  exact foldr_max_lt hfar hlt

theorem halts_stuck {α : Type} (h : s.Goes t) (hfar : s.stream.far < s.stream.items.length) :
    Halts s (stuck t : Option α × Parsing).2 := by
  have hget := List.getElem?_eq_getElem (far_lt_of_goes h hfar)
  refine ⟨t, _, h, hget, ?_⟩
  simp only [stuck, Stream.furthest?, hget, Option.map_some, Option.toList_some]

/-- A part fails if its first part does or the rest. -/
theorem bind_eq_none {α β : Type} {p : Parser α} {f : α → Parser β}
    (h : (p >>= f) s = (none, s')) :
    p s = (none, s') ∨ ∃ x t, p s = (some x, t) ∧ f x t = (none, s') := by
  rcases hp : p s with ⟨_ | x, t⟩
  · exact .inl ((Prod.mk.inj ((bind_none hp).symm.trans h)).2 ▸ rfl)
  · exact .inr ⟨x, t, rfl, (bind_some hp).symm.trans h⟩

theorem map_eq_none {α β : Type} {p : Parser α} {g : α → β}
    (h : (p >>= fun x => pure (g x)) s = (none, s')) : p s = (none, s') := by
  rcases bind_eq_none h with h | ⟨x, t, -, h⟩
  · exact h
  · cases h

theorem halts_definitions : ∀ {l : Nat} {s : Parsing}, s.Ready → s.left.length ≤ l →
    s.stream.far < s.stream.items.length → definitions n l s = (none, s') → Halts s s'
  | 0, s, hs, hle, _, _ => by
    obtain ⟨i, rest, hleft, -⟩ := hs.exists_cons
    rw [hleft] at hle
    exact absurd hle (Nat.not_succ_le_zero _)
  | l + 1, s, hs, hle, hfar, hrun => by
    obtain ⟨i, rest, hleft, -⟩ := hs.exists_cons
    rw [definitions, token_bind hs hleft] at hrun
    split at hrun
    · cases hrun
    · rcases bind_eq_none hrun with hrun | ⟨d, t, hd, hrun⟩
      · rw [orElse_run] at hrun
        rcases hd : definition n s with ⟨_ | d, t⟩
        · have hgoes := ((production_definition n s hs).1 _ _ hd).1
          simp only [hd] at hrun
          obtain rfl : (stuck t : Option Def × Parsing).2 = s' := congrArg Prod.snd hrun
          exact halts_stuck hgoes hfar
        · simp only [hd] at hrun
          cases hrun
      · obtain ⟨hgoes, w, hw, hspells⟩ := orStuck_some (production_definition n) hs hd
        have hlen := congrArg List.length hw
        have hpos := List.length_pos_iff.2 (word_ne_nil hspells.word rfl)
        rw [List.length_append] at hlen
        exact .behind hgoes (halts_definitions hgoes.ready (by omega) (far_lt_of_goes hgoes hfar)
          (map_eq_none hrun))

theorem halts_version (hs : s.Ready) (hfar : s.stream.far < s.stream.items.length)
    (hrun : version s = (none, s')) : Halts s s' := by
  obtain ⟨i, rest, hleft, -⟩ := hs.exists_cons
  by_cases hi : i.token = .version
  · obtain ⟨t, hadvance, hgoes, -⟩ := exists_advance hs hleft (hi ▸ nofun)
    obtain ⟨j, rest', hleft', -⟩ := hgoes.ready.exists_cons
    by_cases hj : j.token = .number .int
    · obtain ⟨t', hadvance', -, -⟩ := exists_advance hgoes.ready hleft' (hj ▸ nofun)
      rw [version, accept_bind_pos hs hleft hi, bind_some hadvance, if_pos rfl,
        current_bind hgoes.ready hleft', hj] at hrun
      cases (bind_some hadvance').symm.trans hrun
    · have hstuck : version s = stuck t := by
        rw [version, accept_bind_pos hs hleft hi, bind_some hadvance, if_pos rfl,
          current_bind hgoes.ready hleft']
        refine congrArg (fun q : Parser Nat => q t) ?_
        split
        next h => exact absurd h hj
        next => rfl
      rw [hstuck] at hrun
      obtain rfl : (stuck t : Option Nat × Parsing).2 = s' := congrArg Prod.snd hrun
      exact halts_stuck hgoes hfar
  · rw [version, accept_bind_neg hs hleft hi] at hrun
    cases hrun

/-- A text that is no shader has one report, on the furthest item. -/
theorem halts_program (hs : s.Ready) (hlen : s.left.length ≤ n)
    (hfar : s.stream.far < s.stream.items.length) (hrun : program n s = (none, s')) :
    Halts s s' := by
  obtain ⟨i, rest, hleft, -⟩ := hs.exists_cons
  rw [program, pos_bind hs hleft] at hrun
  rcases bind_eq_none hrun with hrun | ⟨v, t, hv, hrun⟩
  · exact halts_version hs hfar hrun
  · obtain ⟨hgoes, w, hw, -⟩ := succeeds_version hs v t hv
    have hlen' := congrArg List.length hw
    rw [List.length_append] at hlen'
    exact .behind hgoes (halts_definitions hgoes.ready (by omega) (far_lt_of_goes hgoes hfar)
      (map_eq_none hrun))

end Grammar

open Shader.Parser Shader.Grammar Ebnf

/-! ## Prefixes of shaders -/

/-- Some stream that is parsed as a shader begins with the items. -/
def Begins (u : List Item) : Prop := ∃ items : List Item,
  ((Stream.ofItems items).parse []).program.isSome = true ∧ u <+: closeItems items

/-- Some stream with one end of text that is parsed as a shader begins with the items. -/
def Viable (u : List Item) : Prop := ∃ items : List Item,
  (∀ i ∈ (closeItems items).dropLast, i.token ≠ .eof) ∧
  ((Stream.ofItems items).parse []).program.isSome = true ∧ u <+: closeItems items

theorem closeItems_concat {e : Item} (he : e.token = .eof) (w : List Item) :
    closeItems (w ++ [e]) = w ++ [e] := by
  simp [closeItems, he, Token.isEof]

/-- What the words of the grammar begin with is what shaders begin with. -/
theorem viable_iff {u : List Item} : Viable u ↔ Opening (.sub .program) u := by
  constructor
  · rintro ⟨items, honly, hsome, v, hv⟩
    have hword := (Stream.isSome_parse_iff items honly).1 hsome
    rw [← hv] at hword
    exact ⟨v, hword⟩
  · rintro ⟨v, hword⟩
    obtain ⟨w, e, hw, he, hneat⟩ := exists_of_word_program hword
    have hclose : closeItems (u ++ v) = u ++ v := hw ▸ closeItems_concat he w
    have honly : ∀ i ∈ (closeItems (u ++ v)).dropLast, i.token ≠ .eof := by
      rw [hclose, hw, List.dropLast_concat]
      exact hneat.eofFree
    have hsome := (Stream.isSome_parse_iff _ honly).2 (hclose.symm ▸ hword)
    exact ⟨u ++ v, honly, hsome, v, hclose.symm⟩

theorem ready_ofItems (items : List Item) : ({ stream := .ofItems items } : Parsing).Ready := by
  obtain ⟨e, hlast, he⟩ := getLast?_closeItems items
  exact Parsing.ready_start hlast he

/-- Items with one end of text are not the beginning of others. -/
theorem eq_concat_of_eof {u w : List Item} {e : Item} (hw : ∀ i ∈ w.dropLast, i.token ≠ .eof)
    (he : e.token = .eof) (h : u ++ [e] <+: w) : w = u ++ [e] := by
  obtain ⟨v, rfl⟩ := h
  rcases v with _ | ⟨i, v⟩
  · rw [List.append_nil]
  · refine absurd he (hw e ?_)
    rw [List.append_assoc, List.singleton_append, List.dropLast_append_of_ne_nil (by simp)]
    simp

/-- What stands behind the first end of text is not read. -/
theorem Begins.viable {u : List Item} (h : Begins u) (hu : ∀ i ∈ u.dropLast, i.token ≠ .eof) :
    Viable u := by
  obtain ⟨items, hsome, hprefix⟩ := h
  obtain ⟨p, hp⟩ := Option.isSome_iff_exists.1 hsome
  obtain ⟨s', hrun⟩ := Stream.parse_eq_some hp
  obtain ⟨-, ⟨e, rest, hend, he⟩, w, ds, hw, hword, -⟩ := program_some (ready_ofItems items) hrun
  have hprogram : Word (.sub .program) (w ++ [e]) := .sub (.seq hword (.item he))
  have hread : w ++ [e] <+: closeItems items := by
    refine ⟨rest, ?_⟩
    rw [List.append_assoc, List.singleton_append, ← hend]
    exact hw.symm
  refine viable_iff.2 ?_
  rcases List.prefix_or_prefix_of_prefix hprefix hread with ⟨v, hv⟩ | hwhole
  · exact ⟨v, hv ▸ hprogram⟩
  · exact (eq_concat_of_eof hu he hwhole ▸ hprogram).opening

/-! ## Rejected streams -/

/-- The furthest place that parsing moves the cursor to. -/
def Stream.reach (stream : Stream) : Nat :=
  (program (depthBound stream.items) { stream }).2.moves.foldr max 0

section

variable {items : List Item}

theorem length_closeItems_pos (items : List Item) : 0 < (closeItems items).length := by
  obtain ⟨e, hlast, -⟩ := getLast?_closeItems items
  exact List.length_pos_iff.2 (List.ne_nil_of_mem (List.mem_of_getLast? hlast))

/-- Where no shader is found, reading has stopped with a report. -/
theorem Stream.halts_of_parse_eq_none (h : ((Stream.ofItems items).parse []).program = none) :
    ∃ s', program (depthBound (closeItems items)) { stream := .ofItems items } = (none, s') ∧
      Halts { stream := .ofItems items } s' := by
  have hready := ready_ofItems items
  rcases hrun : program (depthBound (closeItems items)) { stream := .ofItems items }
    with ⟨_ | p, s'⟩
  · refine ⟨s', rfl, halts_program hready ?_ (length_closeItems_pos items) hrun⟩
    exact (Parsing.length_left_le _).trans (Nat.le_add_right _ 2)
  · have hreports : s'.reports = [] := (program_some hready hrun).1.reports
    have hitems : (Stream.ofItems items).items = closeItems items := rfl
    simp only [Stream.parse, hitems, hrun, hreports] at h
    cases h

/-- All bounds that are large enough for a stream are as good as its own. -/
theorem program_ofItems {n : Nat} (hn : depthBound (closeItems items) ≤ n) :
    program n { stream := .ofItems items } =
      program (depthBound (closeItems items)) { stream := .ofItems items } := by
  have hlen : (closeItems items).length + 1 < depthBound (closeItems items) := Nat.lt_succ_self _
  exact agree_program (hlen.trans_le hn) hlen _ (ready_ofItems items) (Nat.le_refl _)

/-- A stream that goes on behind the furthest place is not told from another that is the same up to
there. -/
theorem program_eq_none_of_take {others : List Item} {s' : Parsing}
    (hrun : program (depthBound (closeItems items)) { stream := .ofItems items } = (none, s'))
    (htake : (closeItems others).take (s'.stream.far + 1) =
      (closeItems items).take (s'.stream.far + 1))
    (hlt : s'.stream.far + 1 < (closeItems items).length)
    (hlt' : s'.stream.far + 1 < (closeItems others).length) :
    ∃ t', program (depthBound (closeItems others)) { stream := .ofItems others } = (none, t') := by
  have halike : Parsing.Alike s'.stream.far { stream := .ofItems items }
      { stream := .ofItems others } :=
    ⟨rfl, rfl, htake, hlt, hlt', getLast?_closeItems items⟩
  have hbound : depthBound (closeItems items) ≤
      (closeItems items).length + (closeItems others).length + 1 + 1 := by
    rw [depthBound]
    omega
  have hbound' : depthBound (closeItems others) ≤
      (closeItems items).length + (closeItems others).length + 1 + 1 := by
    rw [depthBound]
    omega
  obtain ⟨t', ht, -⟩ := (local_program _).agrees _ _ none s' halike ⟨0, rfl, Nat.zero_le _⟩
    ((program_ofItems hbound).trans hrun) (Nat.le_refl _)
  exact ⟨t', (program_ofItems hbound').symm.trans ht⟩

/-- Nothing that is accepted begins with the items up to the furthest one. -/
theorem not_viable_succ {s' : Parsing} (honly : ∀ i ∈ (closeItems items).dropLast, i.token ≠ .eof)
    (hrejected : ((Stream.ofItems items).parse []).program = none)
    (hrun : program (depthBound (closeItems items)) { stream := .ofItems items } = (none, s'))
    (hfar : s'.stream.far < (closeItems items).length) :
    ¬ Viable ((closeItems items).take (s'.stream.far + 1)) := by
  rintro ⟨others, honly', hsome, hprefix⟩
  have hlen : ((closeItems items).take (s'.stream.far + 1)).length = s'.stream.far + 1 := by
    rw [List.length_take]
    omega
  rcases Nat.lt_or_eq_of_le (Nat.succ_le_of_lt hfar) with hlt | hend
  · have hne : (closeItems others).length ≠ s'.stream.far + 1 := by
      intro heq
      obtain ⟨e, hlast, he⟩ := getLast?_closeItems others
      have hsame := hprefix.eq_of_length (hlen.trans heq.symm)
      refine honly e ?_ he
      rw [List.dropLast_eq_take]
      have hmem : e ∈ (closeItems items).take (s'.stream.far + 1) :=
        hsame ▸ List.mem_of_getLast? hlast
      exact List.take_subset_take_left _ (by omega) hmem
    have hle := hprefix.length_le
    obtain ⟨t', ht⟩ := program_eq_none_of_take hrun
      (by rw [← hlen, ← List.prefix_iff_eq_take.1 hprefix, hlen]) hlt (by omega)
    obtain ⟨p, hp⟩ := Option.isSome_iff_exists.1 hsome
    obtain ⟨t'', ht'⟩ := Stream.parse_eq_some hp
    cases ht'.symm.trans ht
  · obtain ⟨e, hlast, he⟩ := getLast?_closeItems items
    rw [List.take_of_length_le hend.ge] at hprefix
    have hconcat : (closeItems items).dropLast ++ [e] = closeItems items :=
      List.dropLast_append_getLast? e hlast
    rw [← hconcat] at hprefix
    have hsame : closeItems others = closeItems items :=
      (eq_concat_of_eof honly' he hprefix).trans hconcat
    rw [Stream.ofItems, hsame, ← Stream.ofItems, hrejected] at hsome
    cases hsome

/-- The items in front of the furthest one have been tried for a shader. -/
theorem tried_take {s' : Parsing} {r : Option Program}
    (hrun : program (depthBound (closeItems items)) { stream := .ofItems items } = (r, s')) :
    Tried (.sub .program) ((closeItems items).take s'.stream.far) := by
  have hexplores := explores_program (depthBound (closeItems items)) _ (ready_ofItems items)
  rw [ExploresAt, hrun] at hexplores
  rcases hexplores with hfar | ⟨u, rest, hleft, hfar, hu⟩
  · have hzero : s'.stream.far = 0 := hfar
    obtain ⟨w, hw⟩ := (Productive.sub .program).exists_word
    rw [hzero, List.take_zero]
    exact .inl ⟨w, hw⟩
  · have hitems : closeItems items = u ++ rest := hleft
    have hlen : s'.stream.far + rest.length = (closeItems items).length := hfar
    rw [hitems, List.length_append, Nat.add_right_cancel_iff] at hlen
    rwa [hitems, hlen, List.take_left]

end

/-- The item at a place is the first impossible one. -/
structure FirstImpossible (items : List Item) (k : Nat) : Prop where
  /-- no shader begins with the items up to the place -/
  impossible : ¬ Begins (items.take (k + 1))
  /-- some shader begins with the items in front of it -/
  possible : ¬ Misnamed (items.take k) → Viable (items.take k)
  /-- a name behind a dot that is no selector is passed as well, but only it -/
  misnamed : Misnamed (items.take k) → Viable (items.take (k - 1)) ∧ ¬ Begins (items.take k)

/-- A stream with one end of text that is not parsed as a shader has one report, at the furthest
item that parsing moves to, and that is the first impossible one. -/
theorem Stream.firstImpossible_reach {items : List Item}
    (honly : ∀ i ∈ (closeItems items).dropLast, i.token ≠ .eof)
    (hrejected : ((Stream.ofItems items).parse []).program = none) :
    ∃ i, (closeItems items)[(Stream.ofItems items).reach]? = some i ∧
      ((Stream.ofItems items).parse []).reports = [⟨i.pos, unexpected i⟩] ∧
      FirstImpossible (closeItems items) (Stream.ofItems items).reach := by
  obtain ⟨s', hrun, t, i, hgoes, hi, rfl⟩ := Stream.halts_of_parse_eq_none hrejected
  obtain ⟨log, hmoves, hfar, -⟩ := hgoes.moves
  have hitems : (Stream.ofItems items).items = closeItems items := rfl
  have hreach : (Stream.ofItems items).reach = t.stream.far := by
    rw [Stream.reach, hitems, hrun, hfar]
    simp only [hmoves, List.append_nil]
    rfl
  have hreports : ((Stream.ofItems items).parse []).reports = [⟨i.pos, unexpected i⟩] := by
    simp only [Stream.parse, hitems, hrun, hgoes.reports, List.nil_append]
  have hget : (closeItems items)[t.stream.far]? = some i := by
    have hsame : t.stream.items = closeItems items := hgoes.items
    rwa [← hsame]
  obtain ⟨hlt, -⟩ := List.getElem?_eq_some_iff.1 hget
  -- only the last item is the end of the text
  have hplain : ∀ l ≤ t.stream.far + 1, ∀ i ∈ ((closeItems items).take l).dropLast,
      i.token ≠ .eof := by
    intro l hl i hi
    refine honly i ?_
    rw [List.dropLast_eq_take, List.take_take] at hi
    rw [List.dropLast_eq_take]
    exact List.take_subset_take_left _ (by rw [List.length_take]; omega) hi
  have htried := tried_take hrun
  have himpossible := not_viable_succ honly hrejected hrun hlt
  rw [hreach]
  refine ⟨i, hget, hreports, fun h => ?_, fun hname => ?_, fun hname => ⟨?_, fun h => ?_⟩⟩
  · exact himpossible (h.viable (hplain _ (Nat.le_refl _)))
  · exact viable_iff.2 (htried.resolve_right fun h => hname h.1)
  · rw [← List.dropLast_take hlt]
    exact viable_iff.2 (htried.resolve_left hname.not_opening).2
  · exact hname.not_opening (viable_iff.1 (h.viable (hplain _ (Nat.le_succ _))))

/-- A function with the statement `a.q;`, in which the name behind the dot is no selector. -/
def strangeMember : List Item :=
  [⟨.typeName .void, "void", .implicit⟩, ⟨.name, "main", .implicit⟩,
    ⟨.delim .lparen, "(", .implicit⟩, ⟨.delim .rparen, ")", .implicit⟩,
    ⟨.delim .lbrace, "\x7b", .implicit⟩, ⟨.name, "a", .implicit⟩,
    ⟨.delim .dot, ".", .implicit⟩, ⟨.name, "q", .implicit⟩,
    ⟨.delim .semi, ";", .implicit⟩, ⟨.delim .rbrace, "\x7d", .implicit⟩]

theorem Stream.firstImpossible_reach_strangeMember :
    (∀ i ∈ (closeItems strangeMember).dropLast, i.token ≠ .eof) ∧
      ((Stream.ofItems strangeMember).parse []).program = none ∧
      (Stream.ofItems strangeMember).reach = 8 ∧
      ∃ i, (closeItems strangeMember)[(Stream.ofItems strangeMember).reach]? = some i ∧
        ((Stream.ofItems strangeMember).parse []).reports = [⟨i.pos, unexpected i⟩] ∧
        FirstImpossible (closeItems strangeMember) (Stream.ofItems strangeMember).reach := by
  have honly : ∀ i ∈ (closeItems strangeMember).dropLast, i.token ≠ .eof := by decide +kernel
  have hrejected : ((Stream.ofItems strangeMember).parse []).program = none :=
    Option.isNone_iff_eq_none.1 (by decide +kernel)
  exact ⟨honly, hrejected, by decide +kernel, Stream.firstImpossible_reach honly hrejected⟩

end Shader
