import Shader.Proofs.Grammar.Openings
import Shader.Proofs.Grammar.Shaders

/-!
# How far reading gets

Wherever a production newly moves the furthest place to, the items in front of that place have been
tried for its symbol: also those that an alternative has gone past before it was given up.

`Explores` says this of a parser and a right side. It is composed along the definition of a parser:
a part explores its right side, and behind a part that has read a word the next one goes on. What
comes later need not be reached, only possible.
-/

namespace Shader

open Shader.Grammar Ebnf

namespace Grammar

/-! ## Words of repeated and optional parts -/

variable {e e' : Ebnf Nonterminal}

/-- A list that may end behind its first element is a list. -/
theorem word_list_of_opt {w : List Item} (h : Word (e ++ opt (delim .comma ++ list e)) w) :
    Word (list e) w := by
  obtain ⟨u, v, rfl, hu, hv⟩ := word_append.1 h
  rcases word_opt.1 hv with hv | rfl
  · obtain ⟨i, v, rfl, hi, hv⟩ := word_delim_append.1 hv
    exact word_list.2 (.inr ⟨u, i, v, rfl, hu, hi, hv⟩)
  · exact word_list.2 (.inl (by rwa [List.append_nil]))

/-- One more in front of a repetition makes a repetition. -/
theorem word_many_of_append {w : List Item} (h : Word (e ++ many e) w) : Word (many e) w := by
  obtain ⟨u, v, rfl, hu, hv⟩ := word_append.1 h
  exact .more hu hv

theorem word_many_append {w : List Item} (h : Word (e ++ (many e ++ e')) w) :
    Word (many e ++ e') w := by
  obtain ⟨u, v, rfl, hu, hv⟩ := word_append.1 (word_assoc.2 h)
  exact .seq (word_many_of_append hu) hv

/-- An optional part in front is there, or it is not. -/
theorem word_opt_append {w : List Item} : Word (opt e ++ e') w ↔ Word (e ++ e') w ∨ Word e' w := by
  constructor
  · intro h
    obtain ⟨u, v, rfl, hu, hv⟩ := word_append.1 h
    rcases word_opt.1 hu with hu | rfl
    · exact .inl (.seq hu hv)
    · exact .inr hv
  · rintro (h | h)
    · obtain ⟨u, v, rfl, hu, hv⟩ := word_append.1 h
      exact .seq (.left hu) hv
    · exact .seq (.right .empty) h

end Grammar

namespace Parser

variable {α β : Type} {e e' e'' : Ebnf Nonterminal} {s s' : Parsing} {p : Parser α}
  {f : α → Parser β}

/-- The furthest place is the old one, or the items up to it have been tried. -/
def Reaches (s : Parsing) (e : Ebnf Nonterminal) (s' : Parsing) : Prop :=
  s'.stream.far = s.stream.far ∨ ∃ u rest, s.left = u ++ rest ∧
    s'.stream.far + rest.length = s.stream.items.length ∧ Tried e u

/-- A parser gets no further than a right side can be tried. -/
def ExploresAt (s : Parsing) (p : Parser α) (e : Ebnf Nonterminal) : Prop := Reaches s e (p s).2

/-- A parser gets no further than a right side can be tried, wherever the cursor is. -/
def Explores (p : Parser α) (e : Ebnf Nonterminal) : Prop := ∀ s, s.Ready → ExploresAt s p e

/-- What has been tried for a right side has been tried for one that has all of its words. -/
theorem Reaches.of (h : Reaches s e s') (hword : ∀ w, Word e w → Word e' w) : Reaches s e' s' :=
  h.imp_right fun ⟨u, rest, hleft, hfar, hu⟩ => ⟨u, rest, hleft, hfar, hu.of hword⟩

/-- What has been tried for the first part has been tried for both. -/
theorem Reaches.first [Productive e'] (h : Reaches s e s') : Reaches s (e ++ e') s' :=
  h.imp_right fun ⟨u, rest, hleft, hfar, hu⟩ => ⟨u, rest, hleft, hfar, hu.first⟩

/-- Behind a word that has been read. -/
theorem Reaches.behind [Productive e'] {t : Parsing} {w : List Item} (h : Reaches s e s')
    (hitems : s'.stream.items = s.stream.items) (hw : s.left = w ++ s'.left) (hword : Word e w)
    (h' : Reaches s' e' t) : Reaches s (e ++ e') t := by
  rcases h' with h' | ⟨u, rest, hleft, hfar, hu⟩
  · rw [Reaches, h']
    exact h.first
  · refine .inr ⟨w ++ u, rest, ?_, hitems ▸ hfar, hu.behind hword⟩
    rw [hw, hleft, List.append_assoc]

/-! ## Composition -/

theorem ExploresAt.of (h : ExploresAt s p e) (hword : ∀ w, Word e w → Word e' w) :
    ExploresAt s p e' := Reaches.of h hword

theorem Explores.of (h : Explores p e) (hword : ∀ w, Word e w → Word e' w) : Explores p e' :=
  fun s hs => (h s hs).of hword

/-- A symbol is tried as its right side is. -/
theorem Explores.sub {symbol : Nonterminal} (h : Explores p (rule symbol)) :
    Explores p (.sub symbol) := h.of fun _ => .sub

/-- The parts of a form are explored from the first to the last. -/
theorem Explores.assoc (h : Explores p (e ++ (e' ++ e''))) : Explores p (e ++ e' ++ e'') :=
  h.of fun _ => word_assoc.2

theorem Explores.optAssoc (h : Explores p (opt (e ++ (e' ++ e'')))) :
    Explores p (opt (e ++ e' ++ e'')) :=
  h.of fun _ hw => word_opt.2 ((word_opt.1 hw).imp_left word_assoc.2)

theorem Explores.orAssoc (h : Explores p (e ||| (e' ||| e''))) :
    Explores p (e ||| e' ||| e'') :=
  h.of fun _ hw => by simpa only [word_or, or_assoc] using hw

/-- Parsers that do the same get equally far. -/
theorem ExploresAt.congr {q : Parser α} (h : p s = q s) (hq : ExploresAt s q e) :
    ExploresAt s p e := by
  rw [ExploresAt, h]
  exact hq

theorem ExploresAt.pure {x : α} : ExploresAt s (Pure.pure x) e := .inl rfl

theorem Explores.pure {x : α} : Explores (Pure.pure x) e := fun _ _ => .pure

theorem Explores.fail : Explores (fail : Parser α) e := fun _ _ => .inl rfl

/-- What is computed from a node moves nothing. -/
theorem ExploresAt.map {g : α → β} (h : ExploresAt s p e) :
    ExploresAt s (p >>= fun x => Pure.pure (g x)) e := by
  rw [ExploresAt] at h ⊢
  rw [bind_run]
  rcases hp : p s with ⟨_ | x, s'⟩
  · rwa [hp] at h
  · rwa [hp] at h

/-- Changing a result looks at no item. -/
theorem Explores.map {g : α → β} (h : Explores p e) :
    Explores (p >>= fun x => Pure.pure (g x)) e := fun s hs => (h s hs).map

/-- One part behind the other. -/
theorem ExploresAt.bind [Productive e'] (h : ExploresAt s p e)
    (hp : Succeeds s p fun _ s' => s.Goes s' ∧ ∃ w, s.left = w ++ s'.left ∧ Word e w)
    (hf : ∀ x s', p s = (some x, s') → s'.Ready → ExploresAt s' (f x) e') :
    ExploresAt s (p >>= f) (e ++ e') := by
  rw [ExploresAt] at h ⊢
  rw [bind_run]
  rcases hrun : p s with ⟨_ | x, s'⟩
  · rw [hrun] at h
    exact h.first
  · rw [hrun] at h
    obtain ⟨hgoes, w, hw, hword⟩ := hp x s' hrun
    exact h.behind hgoes.items hw hword (hf x s' hrun hgoes.ready)

/-- What a part has read is a word of its right side. -/
theorem succeeds_of_part {good : α → Prop} (h : Part p fun x => Spells e (good x)) (hs : s.Ready) :
    Succeeds s p fun _ s' => s.Goes s' ∧ ∃ w, s.left = w ++ s'.left ∧ Word e w := by
  intro x s' hrun
  obtain ⟨hgoes, hyield⟩ := h s hs _ _ hrun
  obtain ⟨w, hw, hspells⟩ := hyield x rfl
  exact ⟨hgoes, w, hw, hspells.word⟩

/-- Two parts in a row. Behind the first one the word that it has read stands in front of whatever
the second one tries. -/
theorem Explores.bind [Productive e'] {good : α → Prop} (h : Explores p e)
    (hp : Part p fun x => Spells e (good x)) (hf : ∀ x, Explores (f x) e') :
    Explores (p >>= f) (e ++ e') :=
  fun s hs => (h s hs).bind (succeeds_of_part hp hs) fun x s' _ hs' => hf x s' hs'

/-- An alternative is tried where the first one has failed. -/
theorem Explores.orElse {q : Parser α} {P : α → List Item → Prop} (hp : Production p P)
    (h : Explores p e) (hq : Explores q e) : Explores (p <|> q) e := by
  intro s hs
  have hfirst := h s hs
  rw [ExploresAt] at hfirst ⊢
  rw [orElse_run]
  rcases hrun : p s with ⟨_ | x, s'⟩
  · rw [hrun] at hfirst
    have hgoes := ((hp s hs).1 _ _ hrun).1
    have hleft := hgoes.left_eq ((hp s hs).2 _ hrun)
    rcases hq s' hgoes.ready with hsame | ⟨u, rest, hu, hfar, htried⟩
    · exact hfirst.imp hsame.trans fun h => by simpa only [hsame] using h
    · exact .inr ⟨u, rest, hleft ▸ hu, hgoes.items ▸ hfar, htried⟩
  · rwa [hrun] at hfirst

/-- Taking the cursor back leaves the furthest place. -/
theorem ExploresAt.orReset {m : Int} (h : ExploresAt s p e) : ExploresAt s (orReset m p) e := by
  rw [ExploresAt] at h ⊢
  rw [orReset_run]
  rcases hrun : p s with ⟨_ | x, s'⟩
  · rwa [hrun] at h
  · rwa [hrun] at h

theorem Explores.orReset {m : Int} (h : Explores p e) : Explores (orReset m p) e :=
  fun s hs => (h s hs).orReset

theorem Explores.mark {f : Int → Parser β} (h : ∀ m, Explores (f m) e) :
    Explores (mark >>= f) e := fun s hs => h _ s hs

/-! ## Items -/

/-- Looking at the item at the cursor gets no further. -/
theorem Explores.current {f : Item → Parser β}
    (h : ∀ s i rest, s.Ready → s.left = i :: rest → ExploresAt s (f i) e) :
    Explores (current >>= f) e := by
  intro s hs
  obtain ⟨i, rest, hleft, -⟩ := hs.exists_cons
  exact (h s i rest hs hleft).congr (current_bind hs hleft)

theorem Explores.token {f : Token → Parser β}
    (h : ∀ s i rest, s.Ready → s.left = i :: rest → ExploresAt s (f i.token) e) :
    Explores (token >>= f) e := by
  intro s hs
  obtain ⟨i, rest, hleft, -⟩ := hs.exists_cons
  exact (h s i rest hs hleft).congr (token_bind hs hleft)

theorem Explores.pos {f : Pos → Parser β} (h : ∀ pos, Explores (f pos) e) :
    Explores (pos >>= f) e := by
  intro s hs
  obtain ⟨i, rest, hleft, -⟩ := hs.exists_cons
  exact (h i.pos s hs).congr (pos_bind hs hleft)

/-- The furthest place is moved to behind the item that is passed, if it is moved at all. -/
theorem advance_far {i : Item} {rest : List Item} (hs : s.Ready) (hleft : s.left = i :: rest) :
    (advance s).2.stream.far = s.stream.far ∨
      (advance s).2.stream.far + rest.length = s.stream.items.length := by
  obtain ⟨c, hc, hlt⟩ := hs.inside
  have hlen := congrArg List.length hleft
  rw [Parsing.left, hc, Int.toNat_natCast, List.length_drop, List.length_cons] at hlen
  by_cases hnext : c + 1 < s.stream.items.length
  · have hfar : (advance s).2.stream.far = max s.stream.far (c + 1) := by
      simp only [advance, Stream.next?, hc, List.getElem?_eq_getElem hlt, Option.map_some,
        if_pos hnext]
    omega
  · refine .inl ?_
    simp only [advance, Stream.next?, hc, List.getElem?_eq_getElem hlt, Option.map_some,
      if_neg hnext]

section

variable {i : Item} {rest : List Item} (hs : s.Ready) (hleft : s.left = i :: rest)
include hs hleft

/-- Moving past an item with which something begins. -/
theorem ExploresAt.advance (hi : Word e [i]) : ExploresAt s advance e :=
  (advance_far hs hleft).imp_right fun hfar => ⟨[i], rest, hleft, hfar, .inl hi.opening⟩

/-- Going past an item of a kind, and then on. -/
theorem ExploresAt.step [Productive e'] {f : Unit → Parser β} (hne : i.token ≠ .eof)
    (hi : Word e [i]) (hf : ∀ s', s'.Ready → s'.left = rest → ExploresAt s' (f ()) e') :
    ExploresAt s (Parser.advance >>= f) (e ++ e') := by
  obtain ⟨s', hrun, hgoes, hleft'⟩ := exists_advance hs hleft hne
  refine (ExploresAt.advance hs hleft hi).bind (fun x t ht => ?_) fun x t ht ht' => ?_
  · obtain ⟨-, rfl⟩ := Prod.mk.inj (hrun.symm.trans ht)
    exact ⟨hgoes, [i], by rw [hleft, hleft']; rfl, hi⟩
  · obtain ⟨-, rfl⟩ := Prod.mk.inj (hrun.symm.trans ht)
    exact hf s' ht' hleft'

theorem ExploresAt.pass [Productive e'] {t : Token} {f : Unit → Parser β} (hi : i.token = t)
    (ht : t ≠ .eof) (hf : Explores (f ()) e') :
    ExploresAt s (Parser.advance >>= f) (tok t ++ e') :=
  .step hs hleft (hi ▸ ht) (.item hi) fun s' hs' _ => hf s' hs'

end

section

variable {t : Token}

/-- A token that may be there. -/
theorem Explores.accepted [Productive e] {f : Bool → Parser β} (ht : t ≠ .eof)
    (hyes : Explores (f true) e) (hno : Explores (f false) e') :
    Explores (accept t >>= f) (tok t ++ e ||| e') := by
  intro s hs
  obtain ⟨i, rest, hleft, -⟩ := hs.exists_cons
  by_cases hi : i.token = t
  · refine .congr (accept_bind_pos hs hleft hi) (.of ?_ fun _ => .left)
    exact .pass hs hleft hi ht hyes
  · exact .congr (accept_bind_neg hs hleft hi) ((hno s hs).of fun _ => .right)

/-- A token that may be there, with the same behind it either way. -/
theorem Explores.optional [Productive e] {f : Bool → Parser β} (ht : t ≠ .eof)
    (h : ∀ b, Explores (f b) e) : Explores (Parser.accept t >>= f) (opt (tok t) ++ e) :=
  (Explores.accepted ht (h true) (h false)).of fun _ hw => word_opt_append.2 (word_or.1 hw)

/-- A token behind which something follows, or nothing. -/
theorem Explores.acceptOpt [Productive e] {yes : Parser β} {x : β} (ht : t ≠ .eof)
    (hyes : Explores yes e) :
    Explores (accept t >>= fun b => if b = true then yes else Pure.pure x) (opt (tok t ++ e)) :=
  .accepted ht hyes .pure

/-- A token behind which nothing follows, or something else. -/
theorem Explores.acceptOr {no : Parser β} {x : β} (ht : t ≠ .eof) (hno : Explores no e) :
    Explores (accept t >>= fun b => if b = true then Pure.pure x else no) (tok t ||| e) := by
  have h : Explores (Parser.accept t >>= fun b => if b = true then Pure.pure x else no)
      (tok t ++ Ebnf.empty ||| e) := .accepted ht .pure hno
  exact h.of fun w hw => by simpa using hw

/-- A token that has to be there. -/
theorem explores_expect (ht : t ≠ .eof) : Explores (expect t) (tok t) :=
  (Explores.acceptOr ht .fail).of fun _ hw => (word_or.1 hw).elim id id

/-- A token that has to be there is gone past only if it is. -/
theorem Explores.expect [Productive e] {f : Unit → Parser β} (ht : t ≠ .eof)
    (h : Explores (f ()) e) : Explores (expect t >>= f) (tok t ++ e) :=
  (explores_expect ht).bind (production_expect ht).part fun _ => h

theorem Explores.expectLast {x : β} (ht : t ≠ .eof) :
    Explores (Parser.expect t >>= fun _ => Pure.pure x) (tok t) := (explores_expect ht).map

end

theorem name_bind_pos {f : Name → Parser β} {i : Item} {rest : List Item} (hs : s.Ready)
    (hleft : s.left = i :: rest) (hi : i.token = .name) :
    (name >>= f) s = (advance >>= fun _ => f ⟨i.text, i.pos⟩) s := by
  have hname : name s = (advance >>= fun _ => Pure.pure ⟨i.text, i.pos⟩) s := by
    rw [name, current_bind hs hleft, hi]
  rw [bind_run, hname, bind_run, bind_run]
  rcases advance s with ⟨_ | _, s'⟩ <;> rfl

theorem name_bind_neg {f : Name → Parser β} {i : Item} {rest : List Item} (hs : s.Ready)
    (hleft : s.left = i :: rest) (hi : i.token ≠ .name) : (name >>= f) s = (none, s) := by
  refine bind_none ((current_bind hs hleft).trans (congrArg (fun q : Parser Name => q s) ?_))
  split
  next h => exact absurd h hi
  next => rfl

theorem explores_name : Explores name (tok .name) := by
  refine .current fun s i rest hs hleft => ?_
  split
  next hi => exact (ExploresAt.advance hs hleft (.item hi)).map
  next => exact .inl rfl

theorem explores_typeName : Explores typeName (item IsType) := by
  refine .token fun s i rest hs hleft => ?_
  split
  next hi => exact (ExploresAt.advance hs hleft (.item ⟨_, hi⟩)).map
  next => exact .inl rfl

end Parser

namespace Grammar

open Shader.Parser

variable {e : Ebnf Nonterminal}

/-- A list may be given up behind any of its commas. -/
theorem explores_commaList [Productive e] {α : Type} {p : Parser α} {good : α → Prop}
    (hp : Part p fun x => Spells e (good x)) (h : Explores p e) :
    ∀ n, Explores (commaList p n) (list e)
  | 0 => .fail
  | n + 1 => by
    have ih := explores_commaList hp h n
    refine (h.bind hp fun x => ?_).of fun _ => word_list_of_opt
    exact .acceptOpt nofun ih.map

/-! ## Expressions -/

section Expressions

variable {a : Parser Expr} (ha : Production a (Reads .assignment))
  (h : Explores a (sub .assignment)) (n : Nat)
include ha h

theorem explores_assignments : Explores (commaList a n) (list (sub .assignment)) :=
  explores_commaList ha.part h n

/-- Expressions between commas, from a parser of one of them. -/
theorem explores_expressionOf : Explores (expressionOf a n) (sub .expression) := by
  refine .of (.mark fun m => h.bind ha.part fun x => .orReset ?_) fun _ hw =>
    .sub (word_list_of_opt hw)
  exact .acceptOpt nofun (explores_assignments ha h n).map

theorem explores_argsOf : Explores (argsOf a n) (sub .args) := by
  refine .sub (.mark fun m => .acceptOr nofun (.orReset ?_))
  exact (explores_assignments ha h n).bind (part_commaList ha.part n) fun xs => .expectLast nofun

/-- Behind a name arguments or an index may be tried, as their first token tells. -/
theorem explores_named : Explores (named a n) (sub .primary) := by
  have hname : Explores (named a n) (tok .name ++ opt application) := by
    refine explores_name.bind production_name.part fun x => .token fun s i rest hs hleft => ?_
    split
    next hi =>
      refine .of (.pass hs hleft hi nofun (explores_argsOf ha h n).map) ?_
      exact fun w hw => .left (.left hw)
    next hi =>
      have hindex := (explores_expressionOf ha h n).bind (production_expressionOf ha n).part
        (f := fun i => do expect (.delim .rbrack); return Expr.index x i) fun y => .expectLast nofun
      refine .of (.pass hs hleft hi nofun hindex) ?_
      exact fun w hw => .left (.right (word_assoc.2 hw))
    next => exact .pure
  exact hname.of fun w hw => .sub (.left (.left (.left (.left (.left hw)))))

theorem explores_construction : Explores (construction a n) (sub .primary) := by
  refine .of (.assoc ?_) fun w hw => .sub (.left (.left (.left (.left (.right hw)))))
  refine .pos fun pos => explores_typeName.bind production_typeName.part fun t => ?_
  exact .expect nofun (explores_argsOf ha h n).map

theorem explores_enclosed : Explores (enclosed a n) (sub .primary) := by
  refine .of (.assoc (.expect nofun ?_)) fun w hw => .sub (.right hw)
  exact (explores_expressionOf ha h n).bind (production_expressionOf ha n).part fun x =>
    .expectLast nofun

/-- Every form of primary expressions is tried for its first token alone. -/
theorem explores_primaryOf : Explores (primaryOf a n) (sub .primary) := by
  refine .mark fun m => .current fun s i rest hs hleft => ?_
  have hword : Word (rule .primary) [i] → ExploresAt s advance (sub .primary) :=
    fun hi => .advance hs hleft (.sub hi)
  split
  next => exact (explores_named ha h n s hs).orReset
  next => exact (explores_construction ha h n s hs).orReset
  next hi => exact (hword (.left (.left (.left (.right (.item ⟨_, hi⟩)))))).map
  next hi => exact (hword (.left (.left (.right (.item hi))))).map
  next hi => exact (hword (.left (.right (.item hi)))).map
  next => exact (explores_enclosed ha h n s hs).orReset
  next => exact .inl rfl

omit ha h in
/-- A name behind a dot is read before it is known for a selector. -/
theorem exploresAt_member [Productive e] {β : Type} {g : Name → Parser β} {s : Parsing} {i : Item}
    {rest : List Item} (hs : s.Ready) (hleft : s.left = i :: rest)
    (hi : i.token = .delim .dot) (hg : ∀ x, Explores (g x) e)
    (hnone : ∀ x, Swizzle.ofText? x.text = none → g x = fail) :
    ExploresAt s (do advance; let x ← name; g x) (delim .dot ++ (item IsSelector ++ e)) := by
  obtain ⟨t, hrun, hgoes, hleft'⟩ := exists_advance hs hleft (hi ▸ nofun)
  obtain ⟨j, rest', hj, -⟩ := hgoes.ready.exists_cons
  obtain rfl : rest = j :: rest' := hleft'.symm.trans hj
  by_cases hname : j.token = .name
  · by_cases hsel : IsSelector j
    · refine .step hs hleft (hi ▸ nofun) (.item hi) fun s' hs' hj' => ?_
      refine .congr (name_bind_pos hs' hj' hname) ?_
      exact .step hs' hj' (hname ▸ nofun) (.item hsel) fun t' ht' _ => hg _ t' ht'
    · have htext : Swizzle.ofText? j.text = none := by
        by_contra hsome
        obtain ⟨c, hc⟩ := Option.ne_none_iff_exists'.1 hsome
        exact hsel ⟨hname, c, hc⟩
      have hstop : (do advance; let x ← name; g x : Parser β) s = (none, (advance t).2) := by
        rw [bind_some hrun, name_bind_pos hgoes.ready hj hname, hnone _ htext, bind_run]
        rcases advance t with ⟨_ | _, t'⟩ <;> rfl
      have hmisnamed : Misnamed [i, j] :=
        ⟨[], i, j, rfl, hi, hname, fun h => hsel (isSelector_iff.2 ⟨hname, h⟩)⟩
      have hopening : Opening (delim .dot ++ (item IsSelector ++ e)) [i] :=
        (Word.opening (.item hi)).first
      rw [ExploresAt, hstop]
      rcases advance_far hgoes.ready hj with hsame | hfar
      · have hdot : ExploresAt s advance (delim .dot) := .advance hs hleft (.item hi)
        rw [ExploresAt, hrun] at hdot
        rw [Reaches, hsame]
        exact hdot.first
      · refine .inr ⟨[i, j], rest', hleft, ?_, .inr ⟨hmisnamed, hopening⟩⟩
        rw [hfar, hgoes.items]
  · refine .step hs hleft (hi ▸ nofun) (.item hi) fun s' hs' hj' => ?_
    rw [ExploresAt, name_bind_neg hs' hj' hname]
    exact .inl rfl

omit ha h in
/-- A name behind a dot has been gone past before it is known to be no selector. This is the one
place where reading gets past an opening. -/
theorem explores_selections : ∀ (n : Nat) (x : Expr),
    Explores (selections x n) (many (delim .dot ++ item IsSelector) ++ opt (item IsStep))
  | 0, _ => .fail
  | n + 1, x => by
    refine .token fun s i rest hs hleft => ?_
    split
    next step hi =>
      have hstep : Word (item IsStep) [i] := .item ⟨step, hi⟩
      refine ((ExploresAt.advance hs hleft hstep).of fun w hw => ?_).map
      exact word_append.2 ⟨[], w, rfl, .done, .left hw⟩
    next hi =>
      refine .of (exploresAt_member (e := many (delim .dot ++ item IsSelector) ++ opt (item IsStep))
        hs hleft hi (fun sel => ?_) fun sel hsel => ?_) fun w hw => ?_
      · split
        next => exact explores_selections n _
        next => exact .fail
      · rw [hsel]
      · exact word_many_append (word_assoc.2 hw)
    next => exact .pure

theorem explores_selectionOf : Explores (selectionOf (primaryOf a n) n) (sub .selection) := by
  refine .sub (.assoc (.mark fun m => ?_))
  exact (explores_primaryOf ha h n).bind (production_primaryOf ha n).part fun x =>
    (explores_selections n x).orReset

omit ha h in
/-- Signs, and the operand behind them. -/
theorem explores_unaryOf {p : Parser Expr} (hp : Explores p (sub .selection)) :
    ∀ n, Explores (unaryOf p n) (sub .unary)
  | 0 => .fail
  | n + 1 => by
    refine .current fun s i rest hs hleft => ?_
    split
    next op hi =>
      have hop : Word (item IsUnaryOp) [i] := .item ⟨op, hi⟩
      refine .of (.orReset (.step hs hleft (unaryOp?_ne_eof hi) hop fun s' hs' _ => ?_))
        fun w hw => .sub (.left hw)
      exact (explores_unaryOf hp n s' hs').map
    next => exact (hp s hs).of fun w hw => .sub (.right hw)

theorem explores_unaryWith : Explores (unaryWith a n) (sub .unary) :=
  explores_unaryOf (explores_selectionOf ha h n) n

omit ha h in
/-- Operators of one level and their operands. -/
theorem explores_chain {p : Parser Expr} {symbol : Nonterminal} {level : Nat}
    (hp : Production p (Reads symbol)) (h : Explores p (sub symbol)) : ∀ (n : Nat) (x : Expr),
    Explores (chain level p x n) (many (item (IsBinaryOp level) ++ sub symbol))
  | 0, _ => .fail
  | n + 1, x => by
    refine .token fun s i rest hs hleft => ?_
    split
    next op hi =>
      have hop : Word (item (IsBinaryOp level)) [i] := .item ⟨op, hi⟩
      have hmore : ExploresAt s (do advance; let y ← p; chain level p (.binary op x y) n)
          (item (IsBinaryOp level) ++
            (sub symbol ++ many (item (IsBinaryOp level) ++ sub symbol))) :=
        .step hs hleft (binaryOp?_ne_eof hi) hop fun s' hs' _ =>
          h.bind hp.part (fun y => explores_chain hp h n _) s' hs'
      exact hmore.of fun w hw => word_many_of_append (word_assoc.2 hw)
    next => exact .pure

omit ha h in
theorem explores_binaryOf {p : Parser Expr} (hp : Production p (Reads .unary))
    (h : Explores p (sub .unary)) (n : Nat) : ∀ k, Explores (binaryOf p n k) (sub (.binary k))
  | 0 => h.of fun _ hw => .sub hw
  | k + 1 => by
    have ih := explores_binaryOf hp h n k
    have hoperand := production_binaryOf hp n k
    refine .sub (.mark fun m => ih.bind hoperand.part fun x => .orReset ?_)
    exact explores_chain hoperand ih n x

theorem explores_conditionalOf {p : Parser Expr} (hp : Production p (Reads (.binary topLevel)))
    (hx : Explores p (sub (.binary topLevel))) :
    Explores (conditionalOf p a n) (sub .conditional) := by
  refine .sub (.mark fun m => hx.bind hp.part fun c => .orReset ?_)
  refine .optAssoc (.optAssoc (.acceptOpt nofun ?_))
  refine (explores_expressionOf ha h n).bind (production_expressionOf ha n).part fun x => ?_
  exact .expect nofun h.map

end Expressions

/-- Assignments are tried as they should, by induction on the bound. -/
theorem explores_assignment : ∀ n, Explores (assignment n) (sub .assignment)
  | 0 => .fail
  | n + 1 => by
    have ih := explores_assignment n
    have ha := production_assignment n
    have hbinary := explores_binaryOf (production_unaryWith ha n) (explores_unaryWith ha ih n) n
      topLevel
    have hproduction := production_binaryOf (production_unaryWith ha n) n topLevel
    refine .sub (.mark fun m => (explores_conditionalOf ha ih n hproduction hbinary).bind
      (production_conditionalOf ha n hproduction).part fun x => .orReset ?_)
    refine .token fun s i rest hs hleft => ?_
    split
    next op hi =>
      have hassign : Word (item IsAssign) [i] := .item ⟨op, hi⟩
      refine .of (.step hs hleft (hi ▸ nofun) hassign fun s' hs' _ => (ih s' hs').map) ?_
      exact fun _ => .left
    next => exact .pure

section

variable (n : Nat)

theorem explores_expression : Explores (expression n) (sub .expression) :=
  explores_expressionOf (production_assignment n) (explores_assignment n) n

/-! ## Statements -/

/-- A declaration is tried with and without `const`, and with and without a value. -/
theorem explores_varSpec : Explores (varSpec n) (sub .varSpec) := by
  refine .sub (.assoc (.assoc (.mark fun m => .pos fun pos => .orReset ?_)))
  refine .optional nofun fun isConst => ?_
  refine explores_typeName.bind production_typeName.part fun type => ?_
  refine explores_name.bind production_name.part fun name => ?_
  exact .acceptOpt nofun (explores_assignment n).map

theorem explores_varDecl : Explores (varDecl n) varForm :=
  .mark fun _ => (explores_varSpec n).bind (production_varSpec n).part fun _ =>
    .orReset (.expectLast nofun)

theorem explores_test : Explores (test n) condition := by
  refine .assoc (.expect nofun ?_)
  exact (explores_expression n).bind (production_expression n).part fun c => .expectLast nofun

theorem explores_optional (t : Token) : Explores (optional n t) (opt (sub .expression)) := by
  refine .token fun s i rest hs hleft => ?_
  split
  · exact .pure
  · exact ((explores_expression n).map s hs).of fun _ => .left

theorem explores_exprStmt : Explores (exprStmt n) exprForm :=
  .mark fun _ => (explores_expression n).bind (production_expression n).part fun _ =>
    .orReset (.expectLast nofun)

theorem explores_returnStmt : Explores (returnStmt n) returnForm := by
  refine .assoc (.mark fun m => .pos fun pos => .expect nofun (.orReset ?_))
  refine .of (.acceptOr nofun ?_) fun w hw => word_opt_append.2 (word_or.1 hw).symm
  exact (explores_expression n).bind (production_expression n).part fun x => .expectLast nofun

/-- A declaration is given up for an expression, and both openings count. -/
theorem explores_forInit :
    Explores (forInit n) (opt (sub .varSpec ||| sub .expression)) := by
  refine .token fun s i rest hs hleft => ?_
  split
  · exact .pure
  · refine Explores.orElse (production_varSpec n).mapped ?_ ?_ s hs
    · exact (explores_varSpec n).map.of fun w hw => .left (.left hw)
    · exact (explores_expression n).map.of fun w hw => .left (.right hw)

/-- A declaration is given up for an expression, and both openings count. -/
theorem explores_simpleStmt : Explores (simpleStmt n) (varForm ||| exprForm) := by
  refine .orElse (production_varDecl n).mapped ?_ ?_
  · exact (explores_varDecl n).map.of fun w hw => .left hw
  · exact (explores_exprStmt n).of fun w hw => .right hw

end

/-- The callers have looked at the keyword. -/
theorem exploresAt_branchStmt {s : Parsing} {i : Item} {rest : List Item} {k : Keyword}
    (hs : s.Ready) (hleft : s.left = i :: rest) (hi : i.token = .keyword k)
    (hk : Word (word .break ||| word .continue) [i]) : ExploresAt s branchStmt branchForm := by
  have hrun : branchStmt s = orReset s.stream.cursor (do
      advance
      expect (.delim .semi)
      return Stmt.branch i.pos i.token) s := current_bind hs hleft
  refine .congr hrun (.orReset (.step hs hleft (hi ▸ nofun) hk fun s' hs' _ => ?_))
  exact Explores.expectLast (by nofun) s' hs'

section Statements

variable {p : Parser Stmt} (hp : Production p fun x => Spells (.sub .stmt) x.Placed)
  (h : Explores p (sub .stmt))
include hp h

/-- Statements up to the closing brace. -/
theorem explores_stmtsOf : ∀ n, Explores (stmtsOf p n) (many (sub .stmt) ++ delim .rbrace)
  | 0 => .fail
  | n + 1 => by
    refine .of (.acceptOr nofun (h.bind hp.part fun s => (explores_stmtsOf n).map)) fun w hw => ?_
    rcases word_or.1 hw with hw | hw
    · exact word_append.2 ⟨[], w, rfl, .done, hw⟩
    · exact word_many_append hw

variable (n : Nat)

theorem explores_blockOf : Explores (blockOf p n) (sub .block) := by
  refine .sub (.assoc (.mark fun m => .pos fun pos => .expect nofun (.orReset ?_)))
  exact (explores_stmtsOf hp h n).map

theorem explores_ifStmtOf : Explores (ifStmtOf p n) ifForm := by
  refine .assoc (.assoc (.mark fun m => .pos fun pos => .orReset (.expect nofun ?_)))
  refine (explores_test n).bind (part_test n) fun c => h.bind hp.part fun yes => ?_
  exact .acceptOpt nofun h.map

omit hp in
theorem explores_forStmtOf : Explores (forStmtOf p n) forForm := by
  -- the form hangs to the left, and the parser goes through it from its head
  refine .assoc (.assoc (.assoc (.assoc (.assoc (.assoc (.assoc ?_))))))
  refine .mark fun m => .pos fun pos => .orReset (.expect nofun (.expect nofun ?_))
  refine (explores_forInit n).bind (part_forInit n) fun init => .expect nofun ?_
  refine (explores_optional n _).bind (part_optional n _) fun c => .expect nofun ?_
  refine (explores_optional n _).bind (part_optional n _) fun post => .expect nofun ?_
  exact h.map

omit hp in
theorem explores_whileStmtOf : Explores (whileStmtOf p n) whileForm := by
  refine .assoc (.mark fun m => .pos fun pos => .orReset (.expect nofun ?_))
  exact (explores_test n).bind (part_test n) fun c => h.map

theorem explores_doStmtOf : Explores (doStmtOf p n) doForm := by
  refine .assoc (.assoc (.assoc ?_))
  refine .mark fun m => .pos fun pos => .expect nofun (.orReset ?_)
  refine h.bind hp.part fun body => .expect nofun ?_
  exact (explores_test n).bind (part_test n) fun c => .expectLast nofun

/-- Every form of statements is tried for its first token alone. -/
theorem explores_stmtOf : Explores (stmtOf p n) (sub .stmt) := by
  refine .current fun s i rest hs hleft => ?_
  split
  next =>
    exact ((explores_blockOf hp h n).map s hs).of fun w hw =>
      .sub (.left (.left (.left (.left (.left (.left (.left (.left (.left hw)))))))))
  next hi =>
    have hsemi : ExploresAt s advance (delim .semi) := .advance hs hleft (.item hi)
    exact hsemi.map.of fun w hw =>
      .sub (.left (.left (.left (.left (.left (.left (.left (.left (.right hw)))))))))
  next =>
    exact (explores_ifStmtOf hp h n s hs).of fun w hw =>
      .sub (.left (.left (.left (.left (.left (.left (.left (.right hw))))))))
  next =>
    exact (explores_forStmtOf h n s hs).of fun w hw =>
      .sub (.left (.left (.left (.left (.left (.left (.right hw)))))))
  next =>
    exact (explores_whileStmtOf h n s hs).of fun w hw =>
      .sub (.left (.left (.left (.left (.left (.right hw))))))
  next =>
    exact (explores_doStmtOf hp h n s hs).of fun w hw =>
      .sub (.left (.left (.left (.left (.right hw)))))
  next hi =>
    exact (exploresAt_branchStmt hs hleft hi (.left (.item hi))).of fun w hw =>
      .sub (.left (.left (.left (.right hw))))
  next hi =>
    exact (exploresAt_branchStmt hs hleft hi (.right (.item hi))).of fun w hw =>
      .sub (.left (.left (.left (.right hw))))
  next =>
    exact (explores_returnStmt n s hs).of fun w hw => .sub (.left (.left (.right hw)))
  next =>
    refine (explores_simpleStmt n s hs).of fun w hw => .sub ?_
    exact (word_or.1 hw).elim (fun hw => .left (.right hw)) .right

end Statements

/-- Statements are tried as they should, by induction on the bound. -/
theorem explores_stmt : ∀ n, Explores (stmt n) (sub .stmt)
  | 0 => .fail
  | n + 1 => explores_stmtOf (production_stmt n) (explores_stmt n) n

theorem explores_block (n : Nat) : Explores (block n) (sub .block) :=
  explores_blockOf (production_stmt n) (explores_stmt n) n

/-! ## Definitions -/

theorem explores_intLit : Explores intLit (item IsSmall) := by
  refine .current fun s i rest hs hleft => ?_
  split
  next hi =>
    dsimp only
    split
    next hlt => exact (ExploresAt.advance hs hleft (.item ⟨hi, hlt⟩)).map
    next => exact .inl rfl
  next => exact .inl rfl

theorem explores_layoutEntry : Explores layoutEntry (sub .layoutEntry) := by
  have hrest : ∀ key : Item, Explores (do
      expect (.assign none)
      let value ← intLit
      return (⟨key.text, value⟩ : LayoutEntry)) (tok (.assign none) ++ item IsSmall) :=
    fun key => .expect nofun explores_intLit.map
  have hword : ∀ w, Word ((word .location ||| word .binding) ++
      (tok (.assign none) ++ item IsSmall)) w → Word (sub .layoutEntry) w :=
    fun w hw => .sub (word_assoc.2 hw)
  refine .current fun s i rest hs hleft => ?_
  split
  next hi =>
    refine .of (.step hs hleft (hi ▸ nofun) (.left (.item hi)) fun s' hs' _ => ?_) hword
    exact hrest i s' hs'
  next hi =>
    refine .of (.step hs hleft (hi ▸ nofun) (.right (.item hi)) fun s' hs' _ => ?_) hword
    exact hrest i s' hs'
  next => exact .inl rfl

theorem explores_layout (n : Nat) : Explores (layout n) (sub .layout) := by
  refine .sub (.assoc (.assoc (.mark fun m => .orReset (.expect nofun (.expect nofun ?_)))))
  exact (explores_commaList part_layoutEntry explores_layoutEntry n).bind
    (part_commaList part_layoutEntry n) fun entries => .expectLast nofun

theorem explores_param : Explores param (sub .param) := by
  have hrest : ∀ (pos : Pos) (storage : Storage), Explores (do
      let type ← typeName
      let name ← name
      return ({ pos, storage, type, name } : Param)) (item IsType ++ tok .name) :=
    fun pos storage => explores_typeName.bind production_typeName.part fun type =>
      explores_name.map
  have hword : ∀ w, Word (opt (word .in ||| word .out) ++ (item IsType ++ tok .name)) w →
      Word (sub .param) w := fun w hw => .sub (word_assoc.2 hw)
  refine .mark fun m => .current fun s i rest hs hleft => .orReset ?_
  dsimp only
  split
  next hi =>
    refine .of (.step hs hleft (hi ▸ nofun) (.left (.left (.item hi))) fun s' hs' _ => ?_) hword
    exact hrest i.pos .input s' hs'
  next hi =>
    refine .of (.step hs hleft (hi ▸ nofun) (.left (.right (.item hi))) fun s' hs' _ => ?_) hword
    exact hrest i.pos .output s' hs'
  next =>
    refine .of (hrest i.pos .plain s hs) fun w hw => hword w ?_
    exact word_opt_append.2 (.inr hw)

/-- Parameters are tried behind `void`, too, unless the parenthesis follows at once. -/
theorem explores_paramList (n : Nat) : Explores (paramList n) (sub .params) := by
  have hlist : ∀ m, Explores (orReset m do
      let params ← commaList param n
      expect (.delim .rparen)
      return params) (list (sub .param) ++ delim .rparen) := by
    refine fun m => .orReset ?_
    exact (explores_commaList production_param.part explores_param n).bind
      (part_commaList production_param.part n) fun params => .expectLast nofun
  refine .sub (.orAssoc (.mark fun m => .acceptOr nofun (.token fun s i rest hs hleft => ?_)))
  rcases rest with _ | ⟨j, rest⟩
  · refine .congr (bind_some (peek_one_last hs hleft)) ?_
    rw [if_neg fun h => nomatch h.1.symm.trans h.2]
    exact (hlist m s hs).of fun _ => .right
  · refine .congr (bind_some (peek_one_run hs hleft)) ?_
    split
    next hvoid =>
      refine .of (.step hs hleft (hvoid.1 ▸ nofun) (.item hvoid.1) fun s' hs' hleft' => ?_)
        fun _ => .left
      exact (ExploresAt.advance hs' hleft' (.item hvoid.2)).map
    next => exact (hlist m s hs).of fun _ => .right

theorem explores_funcDecl (n : Nat) : Explores (funcDecl n) funcForm := by
  refine .assoc (.assoc (.assoc (.mark fun m => .pos fun pos => ?_)))
  refine explores_typeName.bind production_typeName.part fun result => .orReset ?_
  refine explores_name.bind production_name.part fun name => .expect nofun ?_
  refine (explores_paramList n).bind (production_paramList n).part fun params => ?_
  exact (explores_block n).map

theorem explores_storage :
    Explores storage (opt (word .uniform ||| word .in ||| word .out)) := by
  refine .token fun s i rest hs hleft => ?_
  have hadvance : Word (word .uniform ||| word .in ||| word .out) [i] →
      ExploresAt s advance (opt (word .uniform ||| word .in ||| word .out)) :=
    fun hi => .advance hs hleft (.left hi)
  split
  next hi => exact (hadvance (.left (.left (.item hi)))).map
  next hi => exact (hadvance (.left (.right (.item hi)))).map
  next hi => exact (hadvance (.right (.item hi))).map
  next => exact .pure

theorem explores_globalVar (n : Nat) : Explores (globalVar n) globalForm := by
  have hrest : ∀ (pos : Pos) (layout : List LayoutEntry), Explores (do
      let storage ← storage
      let var ← varDecl n
      return ({ pos, layout, storage, var } : GlobalVar))
      (opt (word .uniform ||| word .in ||| word .out) ++ varForm) :=
    fun pos layout => explores_storage.bind part_storage fun storage => (explores_varDecl n).map
  refine .of (.mark fun m => .pos fun pos => .orReset (.token fun s i rest hs hleft => ?_))
    fun w hw => word_assoc.2 hw
  dsimp only
  split
  next =>
    refine Explores.of ((explores_layout n).bind (production_layout n).part fun entries =>
      hrest pos entries) (fun w hw => word_opt_append.2 (.inl hw)) s hs
  next => exact (hrest pos [] s hs).of fun w hw => word_opt_append.2 (.inr hw)

/-- A function is given up for a variable, and both openings count. -/
theorem explores_definition (n : Nat) : Explores (definition n) (sub .definition) := by
  refine .sub (.orElse (production_funcDecl n).mapped ?_ ?_)
  · exact (explores_funcDecl n).map.of fun _ => .left
  · exact (explores_globalVar n).map.of fun _ => .right

/-! ## Shaders -/

/-- To report the furthest item is not to move it. -/
theorem explores_orStuck {α : Type} {p : Parser α} (h : Explores p e) :
    Explores (p <|> stuck) e := by
  intro s hs
  have hp := h s hs
  rw [ExploresAt] at hp ⊢
  rw [orElse_run]
  rcases hrun : p s with ⟨_ | x, s'⟩
  · rwa [hrun] at hp
  · rwa [hrun] at hp

/-- Definitions up to the end of the text. -/
theorem explores_definitions (n : Nat) :
    ∀ k, Explores (definitions n k) (many (sub .definition) ++ tok .eof)
  | 0 => .fail
  | k + 1 => by
    refine .token fun s i rest hs hleft => ?_
    split
    · exact .pure
    · refine .of (.bind (explores_orStuck (explores_definition n) s hs) (fun d s' hrun => ?_)
        fun d s' _ hs' => (explores_definitions n k).map s' hs') fun w hw => word_many_append hw
      obtain ⟨hgoes, w, hw, hspells⟩ := orStuck_some (production_definition n) hs hrun
      exact ⟨hgoes, w, hw, hspells.word⟩

/-- A version is tried with its number. -/
theorem explores_version :
    Explores version (opt (tok .version ++ tok (.number .int))) := by
  refine .acceptOpt nofun (.current fun s i rest hs hleft => ?_)
  split
  next hi =>
    have hnumber : ExploresAt s advance (tok (.number .int)) := .advance hs hleft (.item hi)
    exact hnumber.map
  next => exact .inl rfl

/-- Reading a shader gets no further than a shader can be tried. -/
theorem explores_program (n : Nat) : Explores (program n) (sub .program) := by
  refine .sub (.assoc (.pos fun pos s hs => ?_))
  exact (explores_version s hs).bind (succeeds_version hs) fun version s' _ hs' =>
    (explores_definitions n n).map s' hs'

end Grammar

end Shader
