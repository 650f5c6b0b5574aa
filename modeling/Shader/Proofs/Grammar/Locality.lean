import Shader.Proofs.Grammar.Shaders

/-!
# Reading looks no further than it gets

What a production does depends on the items up to the furthest place alone. So on two streams that
begin alike it does the same, as long as it does not get past what they have in common.

`Local` says this of a parser, for streams that have the items up to the place `k` in common and
more behind it. The furthest place never goes back, so a parser that stays within these items has
always done so. Once a parser has failed its cursor may be anywhere, and only the first of two
alternatives has to leave it where it was.
-/

namespace Shader

namespace Parsing

/-- Two streams have the items up to a place in common, and neither ends there. -/
structure Alike (k : Nat) (s t : Parsing) : Prop where
  /-- the cursors are at the same place -/
  cursor : t.stream.cursor = s.stream.cursor
  /-- the furthest places are the same -/
  far : t.stream.far = s.stream.far
  /-- the items up to the place are the same -/
  items : t.stream.items.take (k + 1) = s.stream.items.take (k + 1)
  /-- the first stream goes on behind the place -/
  longer : k + 1 < s.stream.items.length
  /-- the second stream goes on behind the place -/
  longer' : k + 1 < t.stream.items.length
  /-- the first stream ends with the end of the text -/
  closed : ∃ i, s.stream.items.getLast? = some i ∧ i.token = .eof

/-- The cursor is not behind a place. -/
def Within (k : Nat) (s : Parsing) : Prop := ∃ c : Nat, s.stream.cursor = c ∧ c ≤ k

variable {k : Nat} {s t : Parsing}

/-- The common items are the same at each place. -/
theorem Alike.getElem?_eq (h : Alike k s t) {c : Nat} (hc : c ≤ k) :
    t.stream.items[c]? = s.stream.items[c]? := by
  have hget := congrArg (fun l => l[c]?) h.items
  simpa only [List.getElem?_take_of_lt (Nat.lt_succ_of_le hc)] using hget

/-- A stream that goes on behind the place may be parsed from a cursor in front of it. -/
theorem Alike.ready (h : Alike k s t) (hs : Within k s) : s.Ready := by
  obtain ⟨c, hc, hle⟩ := hs
  have := h.longer
  exact ⟨⟨c, hc, by omega⟩, h.closed⟩

/-- Neither stream ends where the cursor is. -/
theorem Alike.exists_cons_cons (h : Alike k s t) (hs : Within k s) :
    ∃ i j rest, s.left = i :: j :: rest := by
  obtain ⟨c, hc, hle⟩ := hs
  have hlonger := h.longer
  have hlen : s.left.length = s.stream.items.length - c := by
    rw [left, hc, Int.toNat_natCast, List.length_drop]
  rcases hleft : s.left with _ | ⟨i, _ | ⟨j, rest⟩⟩
  · rw [hleft, List.length_nil] at hlen
    omega
  · rw [hleft, List.length_singleton] at hlen
    omega
  · exact ⟨i, j, rest, rfl⟩

/-- Cursors may be moved together. -/
theorem Alike.reset (h : Alike k s t) (m : Int) :
    Alike k { s with stream := s.stream.reset m } { t with stream := t.stream.reset m } :=
  ⟨rfl, h.far, h.items, h.longer, h.longer', h.closed⟩

end Parsing

namespace Parser

open Parsing

variable {α β : Type} {k : Nat} {s t : Parsing} {p : Parser α} {f : α → Parser β}

/-! ## The furthest place -/

/-- Going on never takes the furthest place back. -/
theorem far_le_of_next? {stream stream' : Stream} {i : Item}
    (h : stream.next? = some (i, stream')) : stream.far ≤ stream'.far := by
  unfold Stream.next? at h
  split at h
  · cases h
  · obtain ⟨j, -, hj⟩ := Option.map_eq_some_iff.1 h
    obtain ⟨-, rfl⟩ := Prod.mk.inj hj
    split
    · exact Nat.le_max_left _ _
    · exact Nat.le_refl _

/-- Moving past an item that is not the last. -/
theorem advance_eq {c : Nat} (hc : s.stream.cursor = c) (hlt : c + 1 < s.stream.items.length) :
    advance s = (some (), { s with
      stream := { s.stream with cursor := (c + 1 : Nat), far := max s.stream.far (c + 1) }
      moves := (c + 1) :: s.moves }) := by
  have hne : ((c + 1 : Nat) : Int) ≠ s.stream.cursor := by
    rw [hc]
    omega
  have hnext : s.stream.next? = some (s.stream.items[c],
      { s.stream with cursor := (c + 1 : Nat), far := max s.stream.far (c + 1) }) := by
    simp only [Stream.next?, hc, List.getElem?_eq_getElem (Nat.lt_of_succ_lt hlt), Option.map_some,
      if_pos hlt]
  simp only [advance, hnext, if_neg hne]
  rfl

/-- What follows gets at least as far. -/
theorem far_le_bind (hf : ∀ x s, s.stream.far ≤ (f x s).2.stream.far) (s : Parsing) :
    (p s).2.stream.far ≤ ((p >>= f) s).2.stream.far := by
  rw [bind_run]
  rcases p s with ⟨_ | x, s'⟩
  · exact Nat.le_refl _
  · exact hf x s'

/-- Going past an item gets at least as far as the next one. -/
theorem far_lt_advance {c : Nat} (hc : s.stream.cursor = c) (hlt : c + 1 < s.stream.items.length) :
    c < (advance s).2.stream.far := by
  rw [advance_eq hc hlt]
  exact Nat.le_max_right _ _

/-- Taking the cursor back leaves the furthest place. -/
theorem far_orReset (m : Int) (p : Parser α) (s : Parsing) :
    (orReset m p s).2.stream.far = (p s).2.stream.far := by
  rw [orReset_run]
  rcases p s with ⟨_ | x, s'⟩ <;> rfl

/-! ## Parsers -/

/-- A parser that looks at no item behind the furthest place. -/
structure Local (k : Nat) (p : Parser α) : Prop where
  /-- the furthest place does not go back -/
  grows : ∀ s, s.stream.far ≤ (p s).2.stream.far
  /-- within the common items of two streams it does the same to both -/
  agrees : ∀ s t r s', Alike k s t → Within k s → p s = (r, s') → s'.stream.far ≤ k →
    ∃ t', p t = (r, t') ∧ Alike k s' t' ∧ (r.isSome = true → Within k s')

namespace Local

theorem pure {x : α} : Local k (Pure.pure x) where
  grows _ := Nat.le_refl _
  agrees := by
    rintro s t r s' h hs ⟨⟩ -
    exact ⟨t, rfl, h, fun _ => hs⟩

theorem fail : Local k (fail : Parser α) where
  grows _ := Nat.le_refl _
  agrees := by
    rintro s t r s' h - ⟨⟩ -
    exact ⟨t, rfl, h, nofun⟩

/-- One part behind the other: the first has got no further than both. -/
theorem bind (h : Local k p) (hf : ∀ x, Local k (f x)) : Local k (p >>= f) where
  grows s := by
    rw [bind_run]
    have hp := h.grows s
    rcases hrun : p s with ⟨_ | x, s'⟩
    · rwa [hrun] at hp
    · rw [hrun] at hp
      exact hp.trans ((hf x).grows s')
  agrees := by
    intro s t r s'' hst hs hrun hfar
    rcases hp : p s with ⟨_ | x, s'⟩
    · obtain ⟨rfl, rfl⟩ := Prod.mk.inj ((bind_none hp).symm.trans hrun)
      obtain ⟨t', ht, hst', -⟩ := h.agrees s t none s' hst hs hp hfar
      exact ⟨t', bind_none ht, hst', nofun⟩
    · rw [bind_some hp] at hrun
      have hle := (hf x).grows s'
      rw [hrun] at hle
      obtain ⟨t', ht, hst', hs'⟩ := h.agrees s t (some x) s' hst hs hp (hle.trans hfar)
      rw [bind_some ht]
      exact (hf x).agrees s' t' r s'' hst' (hs' rfl) hrun hfar

/-- The result may be changed. -/
theorem map {g : α → β} (h : Local k p) : Local k (p >>= fun x => Pure.pure (g x)) :=
  h.bind fun _ => .pure

/-- The second alternative starts where the first has. -/
theorem orElse {q : Parser α} {P : α → List Item → Prop} (hp : Production p P) (h : Local k p)
    (hq : Local k q) : Local k (p <|> q) where
  grows s := by
    rw [orElse_run]
    have hp := h.grows s
    rcases hrun : p s with ⟨_ | x, s'⟩
    · rw [hrun] at hp
      exact hp.trans (hq.grows s')
    · rwa [hrun] at hp
  agrees := by
    intro s t r s'' hst hs hrun hfar
    rw [orElse_run] at hrun
    rcases hps : p s with ⟨_ | x, s'⟩
    · simp only [hps] at hrun
      have hle := hq.grows s'
      rw [hrun] at hle
      obtain ⟨t', ht, hst', -⟩ := h.agrees s t none s' hst hs hps (hle.trans hfar)
      have hs' : Within k s' := by
        rw [Within, (hp s (hst.ready hs)).2 s' hps]
        exact hs
      obtain ⟨t'', ht', hst''⟩ := hq.agrees s' t' r s'' hst' hs' hrun hfar
      refine ⟨t'', ?_, hst''⟩
      rw [orElse_run, ht]
      exact ht'
    · simp only [hps] at hrun
      obtain ⟨rfl, rfl⟩ := Prod.mk.inj hrun
      obtain ⟨t', ht, hst'⟩ := h.agrees s t (some x) s' hst hs hps hfar
      refine ⟨t', ?_, hst'⟩
      rw [orElse_run, ht]

/-- A failure takes both cursors back to the same place. -/
theorem orReset {m : Int} (h : Local k p) : Local k (orReset m p) where
  grows s := by
    rw [orReset_run]
    have hp := h.grows s
    rcases hrun : p s with ⟨_ | x, s'⟩
    · rwa [hrun] at hp
    · rwa [hrun] at hp
  agrees := by
    intro s t r s'' hst hs hrun hfar
    rw [orReset_run] at hrun
    rcases hps : p s with ⟨_ | x, s'⟩
    · simp only [hps] at hrun
      obtain ⟨rfl, rfl⟩ := Prod.mk.inj hrun
      obtain ⟨t', ht, hst', -⟩ := h.agrees s t none s' hst hs hps hfar
      refine ⟨_, ?_, hst'.reset m, nofun⟩
      rw [orReset_run, ht]
    · simp only [hps] at hrun
      obtain ⟨rfl, rfl⟩ := Prod.mk.inj hrun
      obtain ⟨t', ht, hst'⟩ := h.agrees s t (some x) s' hst hs hps hfar
      refine ⟨t', ?_, hst'⟩
      rw [orReset_run, ht]

theorem mark {f : Int → Parser β} (h : ∀ m, Local k (f m)) : Local k (mark >>= f) where
  grows s := (h _).grows s
  agrees := by
    intro s t r s' hst hs hrun hfar
    obtain ⟨t', ht, hst'⟩ := (h _).agrees s t r s' hst hs hrun hfar
    refine ⟨t', ?_, hst'⟩
    rw [← ht]
    change f t.stream.cursor t = f s.stream.cursor t
    rw [hst.cursor]

/-! ## Items -/

/-- An item that is not behind the place is the same in both streams. -/
theorem peek?_eq {c : Nat} {offset : Int} (hst : Alike k s t)
    (hc : (s.stream.cursor + offset).toNat = c) (hle : c ≤ k) :
    t.stream.peek? offset = s.stream.peek? offset := by
  have hlonger := hst.longer
  have hlonger' := hst.longer'
  have hmin : min c (s.stream.items.length - 1) = c := by omega
  have hmin' : min c (t.stream.items.length - 1) = c := by omega
  simp only [Stream.peek?, hst.cursor, hc, hmin, hmin', hst.getElem?_eq hle]

/-- The item at the cursor is one of the common items. -/
theorem peek?_eq_zero (hst : Alike k s t) (hs : Within k s) :
    t.stream.peek? 0 = s.stream.peek? 0 := by
  obtain ⟨c, hc, hle⟩ := hs
  exact peek?_eq (c := c) hst (by omega) hle

/-- Looking at the item at the cursor. -/
theorem current_item : Local k current where
  grows _ := Nat.le_refl _
  agrees := by
    rintro s t r s' hst hs ⟨⟩ -
    exact ⟨t, congrArg (·, t) (peek?_eq_zero hst hs), hst, fun _ => hs⟩

/-- Going past the item at the cursor. The next item is looked at in this, and the furthest place
says so. -/
theorem advance_item : Local k advance where
  grows s := by
    rw [advance]
    rcases hnext : s.stream.next? with _ | ⟨i, stream⟩
    · exact Nat.le_refl _
    · exact far_le_of_next? hnext
  agrees := by
    rintro s t r s' hst ⟨c, hc, hle⟩ hrun hfar
    have hlonger := hst.longer
    have hlonger' := hst.longer'
    have ht : t.stream.cursor = c := hst.cursor.trans hc
    rw [advance_eq hc (by omega)] at hrun
    obtain ⟨rfl, rfl⟩ := Prod.mk.inj hrun
    refine ⟨_, advance_eq ht (by omega), ⟨rfl, ?_, hst.items, hlonger, hlonger', hst.closed⟩, ?_⟩
    · exact congrArg (max · (c + 1)) hst.far
    · exact fun _ => ⟨c + 1, rfl, (Nat.le_max_right _ _).trans hfar⟩

theorem current {f : Item → Parser β} (h : ∀ i, Local k (f i)) : Local k (current >>= f) :=
  current_item.bind h

theorem token {f : Token → Parser β} (h : ∀ t, Local k (f t)) : Local k (token >>= f) :=
  (current_item.bind fun _ => .pure).bind h

theorem pos {f : Pos → Parser β} (h : ∀ pos, Local k (f pos)) : Local k (pos >>= f) :=
  (current_item.bind fun _ => .pure).bind h

theorem advance {f : Unit → Parser β} (h : Local k (f ())) : Local k (advance >>= f) :=
  advance_item.bind fun _ => h

/-- An optional token is looked at and perhaps read. -/
theorem accepted {u : Token} {f : Bool → Parser β} (h : ∀ b, Local k (f b)) :
    Local k (accept u >>= f) := by
  have haccept : Local k (Parser.accept u) := by
    refine .token fun v => ?_
    split
    · exact .advance .pure
    · exact .pure
  exact haccept.bind h

theorem accept {u : Token} {yes no : Parser β} (hyes : Local k yes) (hno : Local k no) :
    Local k (accept u >>= fun b => if b = true then yes else no) :=
  accepted fun b => by cases b <;> assumption

theorem expect {u : Token} {f : Unit → Parser β} (h : Local k (f ())) :
    Local k (expect u >>= f) :=
  Local.bind (.accept .pure .fail) fun _ => h

theorem name_item : Local k name := by
  refine .current fun i => ?_
  split
  · exact .advance .pure
  · exact .fail

theorem typeName_item : Local k typeName := by
  refine .token fun t => ?_
  split
  · exact .advance .pure
  · exact .fail

/-- A look at the item behind the one at the cursor makes a difference only if the cursor then
moves on. -/
theorem token_peek {f : Token → Item → Parser β} (h : ∀ u i, Local k (f u i))
    (hpast : ∀ u, (∀ i j, f u i = f u j) ∨ ∀ (s : Parsing) (i j : Item) (rest : List Item),
      s.Ready → s.stream.cursor = (k : Int) → k + 1 < s.stream.items.length →
      s.left = i :: rest → i.token = u → k < (f u j s).2.stream.far) :
    Local k (do let u ← Parser.token; let i ← peek 1; f u i) where
  grows s := by
    have hpeek : ∀ u, s.stream.far ≤ ((peek 1 >>= f u) s).2.stream.far := by
      intro u
      rw [bind_run, peek]
      rcases s.stream.peek? 1 with _ | i
      · exact Nat.le_refl _
      · exact (h u i).grows s
    rw [bind_run, Parser.token, bind_run, Parser.current, peek]
    rcases s.stream.peek? 0 with _ | i
    · exact Nat.le_refl _
    · exact hpeek i.token
  agrees := by
    intro s t r s' hst hs hrun hfar
    have hready := hst.ready hs
    obtain ⟨i, j, rest, hleft⟩ := hst.exists_cons_cons hs
    have hitem : s.stream.peek? 0 = some i := congrArg Prod.fst (current_run hready hleft)
    have hnext : s.stream.peek? 1 = some j := congrArg Prod.fst (peek_one_run hready hleft)
    rw [token_bind hready hleft, bind_some (peek_one_run hready hleft)] at hrun
    have ht : ∀ l, t.stream.peek? 1 = some l → f i.token l = f i.token j →
        ∃ t', (do let u ← Parser.token; let i ← peek 1; f u i) t = (r, t') ∧ Alike k s' t' ∧
          (r.isSome = true → Within k s') := by
      intro l hl hf
      have hcurrent : Parser.current t = (some i, t) :=
        congrArg (·, t) ((peek?_eq_zero hst hs).trans hitem)
      have hpeek : peek 1 t = (some l, t) := congrArg (·, t) hl
      have htoken : Parser.token t = (some i.token, t) := bind_some hcurrent
      rw [bind_some htoken, bind_some hpeek, hf]
      exact (h i.token j).agrees s t r s' hst hs hrun hfar
    obtain ⟨c, hc, hle⟩ := hs
    rcases Nat.lt_or_eq_of_le hle with hlt | rfl
    · exact ht j ((peek?_eq hst (c := c + 1) (by omega) hlt).trans hnext) rfl
    · rcases hpast i.token with hsame | hfurther
      · have hlonger := hst.longer'
        have hlt : min (t.stream.cursor + 1).toNat (t.stream.items.length - 1) <
            t.stream.items.length := by omega
        exact ht _ (List.getElem?_eq_getElem hlt) (hsame _ _)
      · have hgot := hfurther s i j (j :: rest) hready hc hst.longer hleft rfl
        rw [hrun] at hgot
        exact absurd hfar (Nat.not_le_of_lt hgot)

/-- A list looks no further than the comma that is missing behind its last element. -/
theorem commaList (h : Local k p) : ∀ n, Local k (commaList p n)
  | 0 => .fail
  | n + 1 => h.bind fun _ => .accept (commaList h n).map .pure

end Local

end Parser

namespace Grammar

open Shader.Parser

variable {k : Nat}

/-! ## Expressions -/

section Expressions

variable {a : Parser Expr} (h : Local k a) (n : Nat)
include h

/-- Expressions between commas, from a parser of one of them. -/
theorem local_expressionOf : Local k (expressionOf a n) :=
  .mark fun _ => h.bind fun _ => .orReset (.accept (h.commaList n).map .pure)

theorem local_argsOf : Local k (argsOf a n) :=
  .mark fun _ => .accept .pure (.orReset ((h.commaList n).bind fun _ => .expect .pure))

/-- Behind a name one token is looked at. -/
theorem local_named : Local k (named a n) := by
  refine Local.name_item.bind fun x => .token fun t => ?_
  split
  · exact .advance (local_argsOf h n).map
  · exact .advance ((local_expressionOf h n).bind fun _ => .expect .pure)
  · exact .pure

theorem local_construction : Local k (construction a n) :=
  .pos fun _ => Local.typeName_item.bind fun _ => .expect (local_argsOf h n).map

theorem local_enclosed : Local k (enclosed a n) :=
  .expect ((local_expressionOf h n).bind fun _ => .expect .pure)

/-- The first token of an operand is looked at, and the form that it leads to is local. -/
theorem local_primaryOf : Local k (primaryOf a n) := by
  refine .mark fun m => .current fun i => ?_
  split
  next => exact (local_named h n).orReset
  next => exact (local_construction h n).orReset
  next => exact .advance .pure
  next => exact .advance .pure
  next => exact .advance .pure
  next => exact (local_enclosed h n).orReset
  next => exact .fail

omit h in
/-- Behind an operand one token is looked at, and behind a dot the selector. -/
theorem local_selections : ∀ (n : Nat) (x : Expr), Local k (selections x n)
  | 0, _ => .fail
  | n + 1, x => by
    refine .token fun t => ?_
    split
    next => exact .advance .pure
    next =>
      refine .advance (Local.name_item.bind fun sel => ?_)
      split
      next => exact local_selections n _
      next => exact .fail
    next => exact .pure

theorem local_selectionOf : Local k (selectionOf a n) :=
  .mark fun _ => h.bind fun x => (local_selections n x).orReset

/-- Signs, and the operand behind them. -/
theorem local_unaryOf : ∀ n, Local k (unaryOf a n)
  | 0 => .fail
  | n + 1 => by
    refine .current fun i => ?_
    split
    next => exact .mark fun _ => .orReset (.advance (local_unaryOf n).map)
    next => exact h

/-- Behind an operand one token is looked at for an operator. -/
theorem local_chain {level : Nat} : ∀ (n : Nat) (x : Expr), Local k (chain level a x n)
  | 0, _ => .fail
  | n + 1, x => by
    refine .token fun t => ?_
    split
    next => exact .advance (h.bind fun y => local_chain n _)
    next => exact .pure

/-- Every level looks one token behind its last operand, which is the same one for all of them. -/
theorem local_binaryOf : ∀ levels, Local k (binaryOf a n levels)
  | 0 => h
  | levels + 1 =>
    .mark fun _ => (local_binaryOf levels).bind fun x =>
      (local_chain (local_binaryOf levels) n x).orReset

theorem local_conditionalOf {p : Parser Expr} (hp : Local k p) : Local k (conditionalOf p a n) :=
  .mark fun _ => hp.bind fun _ => .orReset <| .accept
    ((local_expressionOf h n).bind fun _ => .expect h.map) .pure

end Expressions

/-- All levels of an expression, by induction on the bound. -/
theorem local_assignment : ∀ n, Local k (assignment n)
  | 0 => .fail
  | n + 1 => by
    have ih := local_assignment n
    have hunary := local_unaryOf (local_selectionOf (local_primaryOf ih n) n) n
    have hbinary := local_binaryOf hunary n topLevel
    refine .mark fun _ => (local_conditionalOf ih n hbinary).bind fun x => .orReset ?_
    refine .token fun t => ?_
    split
    next => exact .advance ih.map
    next => exact .pure

section

variable (n : Nat)

theorem local_expression : Local k (expression n) := local_expressionOf (local_assignment n) n

/-! ## Statements -/

theorem local_varSpec : Local k (varSpec n) := by
  refine .mark fun _ => .pos fun _ => .orReset (.accepted fun _ => ?_)
  refine Local.typeName_item.bind fun _ => Local.name_item.bind fun _ => ?_
  exact .accept (local_assignment n).map .pure

theorem local_varDecl : Local k (varDecl n) :=
  .mark fun _ => (local_varSpec n).bind fun _ => .orReset (.expect .pure)

theorem local_test : Local k (test n) :=
  .expect ((local_expression n).bind fun _ => .expect .pure)

theorem local_optional (t : Token) : Local k (optional n t) := by
  refine .token fun u => ?_
  split
  · exact .pure
  · exact (local_expression n).map

theorem local_exprStmt : Local k (exprStmt n) :=
  .mark fun _ => (local_expression n).bind fun _ => .orReset (.expect .pure)

theorem local_branchStmt : Local k branchStmt :=
  .mark fun _ => .current fun _ => .orReset (.advance (.expect .pure))

theorem local_returnStmt : Local k (returnStmt n) :=
  .mark fun _ => .pos fun _ => .expect <| .orReset <| .accept .pure
    ((local_expression n).bind fun _ => .expect .pure)

/-- A declaration that fails has left the cursor where it was, and the expression is read from
there. -/
theorem local_forInit : Local k (forInit n) := by
  refine .token fun t => ?_
  split
  · exact .pure
  · exact .orElse (production_varSpec n).mapped (local_varSpec n).map (local_expression n).map

/-- A declaration that fails has left the cursor where it was, and the statement is read from there.
-/
theorem local_simpleStmt : Local k (simpleStmt n) :=
  .orElse (production_varDecl n).mapped (local_varDecl n).map (local_exprStmt n)

end

section Statements

variable {p : Parser Stmt} (h : Local k p)
include h

/-- Statements up to the closing brace. -/
theorem local_stmtsOf : ∀ n, Local k (stmtsOf p n)
  | 0 => .fail
  | n + 1 => .accept .pure (h.bind fun _ => (local_stmtsOf n).map)

variable (n : Nat)

theorem local_blockOf : Local k (blockOf p n) :=
  .mark fun _ => .pos fun _ => .expect (.orReset (local_stmtsOf h n).map)

theorem local_ifStmtOf : Local k (ifStmtOf p n) :=
  .mark fun _ => .pos fun _ => .orReset <| .expect <| (local_test n).bind fun _ =>
    h.bind fun _ => .accept h.map .pure

theorem local_forStmtOf : Local k (forStmtOf p n) :=
  .mark fun _ => .pos fun _ => .orReset <| .expect <| .expect <| (local_forInit n).bind fun _ =>
    .expect <| (local_optional n _).bind fun _ => .expect <| (local_optional n _).bind fun _ =>
    .expect h.map

theorem local_whileStmtOf : Local k (whileStmtOf p n) :=
  .mark fun _ => .pos fun _ => .orReset <| .expect <| (local_test n).bind fun _ => h.map

theorem local_doStmtOf : Local k (doStmtOf p n) :=
  .mark fun _ => .pos fun _ => .expect <| .orReset <| h.bind fun _ => .expect <|
    (local_test n).bind fun _ => .expect .pure

/-- The first token of a statement is looked at, and the form that it leads to is local. -/
theorem local_stmtOf : Local k (stmtOf p n) := by
  refine .current fun i => ?_
  split
  next => exact (local_blockOf h n).map
  next => exact .advance .pure
  next => exact local_ifStmtOf h n
  next => exact local_forStmtOf h n
  next => exact local_whileStmtOf h n
  next => exact local_doStmtOf h n
  next => exact local_branchStmt
  next => exact local_branchStmt
  next => exact local_returnStmt n
  next => exact local_simpleStmt n

end Statements

/-- All statements, by induction on the bound. -/
theorem local_stmt : ∀ n, Local k (stmt n)
  | 0 => .fail
  | n + 1 => local_stmtOf (local_stmt n) n

/-! ## Definitions -/

theorem local_intLit : Local k intLit := by
  refine .current fun i => ?_
  split
  · dsimp only
    split
    · exact .advance .pure
    · exact .fail
  · exact .fail

theorem local_layoutEntry : Local k layoutEntry := by
  refine .current fun key => ?_
  split
  · exact .advance (.expect local_intLit.map)
  · exact .advance (.expect local_intLit.map)
  · exact .fail

theorem local_layout (n : Nat) : Local k (layout n) :=
  .mark fun _ => .orReset <| .expect <| .expect <|
    (local_layoutEntry.commaList n).bind fun _ => .expect .pure

/-- A storage may stand in front of the type. -/
theorem local_param : Local k param := by
  have hrest : ∀ (pos : Pos) (storage : Storage), Local k (do
      let type ← typeName
      let name ← name
      return ({ pos, storage, type, name } : Param)) :=
    fun _ _ => Local.typeName_item.bind fun _ => Local.name_item.map
  refine .mark fun _ => .current fun i => .orReset ?_
  dsimp only
  split
  · exact .advance (hrest _ _)
  · exact .advance (hrest _ _)
  · exact hrest _ _

/-- A parameter gets past the name of a type. -/
theorem far_lt_param {s : Parsing} {c : Nat} {i : Item} {rest : List Item} {t : DataType}
    (hs : s.Ready) (hc : s.stream.cursor = c) (hlt : c + 1 < s.stream.items.length)
    (hleft : s.left = i :: rest) (hi : i.token = .typeName t) : c < (param s).2.stream.far := by
  have hparam : param s = orReset s.stream.cursor (do
      let type ← typeName
      let name ← name
      return ({ pos := i.pos, storage := .plain, type, name } : Param)) s := by
    refine (current_bind hs hleft).trans ?_
    rw [hi]
    rfl
  have htype : typeName s = (advance >>= fun _ => pure t) s := by
    rw [typeName, token_bind hs hleft, hi]
  have hadvance : c < (typeName s).2.stream.far := by
    rw [htype]
    exact (far_lt_advance hc hlt).trans_le (far_le_bind (fun _ _ => Nat.le_refl _) s)
  rw [hparam, far_orReset]
  refine hadvance.trans_le (far_le_bind (fun type => ?_) s)
  exact (Local.map (k := c) Local.name_item).grows

/-- A look behind `void` makes no difference to a list of parameters that stays there. -/
theorem local_paramList (n : Nat) : Local k (paramList (n + 1)) := by
  have hclose : ∀ params : List Param, Local k (do
      expect (.delim .rparen)
      return params) := fun params => .expect .pure
  have hlist : ∀ m, Local k (orReset m do
      let params ← commaList param (n + 1)
      expect (.delim .rparen)
      return params) :=
    fun m => .orReset ((local_param.commaList _).bind hclose)
  refine .mark fun m => .accept .pure (.token_peek (fun u i => ?_) fun u => ?_)
  · split
    · exact .advance (.advance .pure)
    · exact hlist m
  · by_cases hu : u = .typeName .void
    · refine .inr fun s i j rest hs hc hlt hleft hi => ?_
      split
      · refine (far_lt_advance hc hlt).trans_le (far_le_bind (fun _ => ?_) s)
        exact (Local.map (k := k) Local.advance_item).grows
      · rw [far_orReset]
        have hparam := far_lt_param hs hc hlt hleft (hi.trans hu)
        have hlast : ∀ x : Param, Local k (do
            if ← accept (.delim .comma) then
              let xs ← commaList param n
              return x :: xs
            else return [x]) := fun x => .accept (local_param.commaList n).map .pure
        have hparams : k < (commaList param (n + 1) s).2.stream.far :=
          hparam.trans_le (far_le_bind (fun x => (hlast x).grows) s)
        exact hparams.trans_le (far_le_bind (fun params => (hclose params).grows) s)
    · refine .inl fun i j => ?_
      rw [if_neg fun h => hu h.1, if_neg fun h => hu h.1]

theorem local_funcDecl (n : Nat) : Local k (funcDecl (n + 1)) :=
  .mark fun _ => .pos fun _ => Local.typeName_item.bind fun _ => .orReset <|
    Local.name_item.bind fun _ => .expect <| (local_paramList n).bind fun _ =>
    (local_blockOf (local_stmt _) _).bind fun _ => .pure

theorem local_storage : Local k storage := by
  refine .token fun t => ?_
  split
  · exact .advance .pure
  · exact .advance .pure
  · exact .advance .pure
  · exact .pure

theorem local_globalVar (n : Nat) : Local k (globalVar n) := by
  refine .mark fun _ => .pos fun _ => .orReset (.token fun t => ?_)
  dsimp only
  split
  · exact (local_layout n).bind fun _ => local_storage.bind fun _ => (local_varDecl n).map
  · exact local_storage.bind fun _ => (local_varDecl n).map

/-- A function that fails has left the cursor where it was, and the variable is read from there. -/
theorem local_definition (n : Nat) : Local k (definition (n + 1)) :=
  .orElse (production_funcDecl (n + 1)).mapped (local_funcDecl n).map (local_globalVar (n + 1)).map

/-! ## Shaders -/

/-- Being stuck leaves the stream as it is. -/
theorem local_stuck {α : Type} : Local k (stuck : Parser α) where
  grows _ := Nat.le_refl _
  agrees := by
    rintro s t r s' hst - ⟨⟩ -
    exact ⟨_, rfl, ⟨hst.cursor, hst.far, hst.items, hst.longer, hst.longer', hst.closed⟩, nofun⟩

/-- Definitions up to the end, which is behind the common items. -/
theorem local_definitions (n : Nat) : ∀ l, Local k (definitions (n + 1) l)
  | 0 => .fail
  | l + 1 => by
    refine .token fun t => ?_
    split
    · exact .pure
    · have hdefinition : Local k (definition (n + 1) <|> stuck) :=
        .orElse (production_definition (n + 1)) (local_definition n) local_stuck
      exact hdefinition.bind fun _ => (local_definitions n l).map

theorem local_version : Local k version := by
  refine .accept (.current fun i => ?_) .pure
  split
  · exact .advance .pure
  · exact local_stuck

/-- The parser of a whole shader is local. -/
theorem local_program (n : Nat) : Local k (program (n + 1)) :=
  .pos fun _ => local_version.bind fun _ => (local_definitions n _).map

end Grammar

end Shader
