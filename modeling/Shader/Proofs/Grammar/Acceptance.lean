import Shader.Proofs.Grammar.Ambiguity
import Shader.Proofs.Grammar.Shaders

/-!
# Every expression is accepted

The productions of expressions read every word of their symbols, in front of everything that does
not hold on to it.

`Takes` says that a parser gets from one sequence of items to another without failing, and `Gets`
also what it yields. Where an alternative is tried first, it is shown to refuse from what it would
have read.
-/

namespace Shader

namespace Parser

variable {α β : Type} {L M N : List Item}

/-- Where the items `L` are left, the parser yields something with a property and leaves `M`. -/
def Gets (p : Parser α) (L M : List Item) (Q : α → Prop) : Prop :=
  ∀ s, s.Ready → s.left = L → ∃ x s', p s = (some x, s') ∧ s'.Ready ∧ s'.left = M ∧ Q x

/-- Where the items `L` are left, the parser yields something and leaves `M`. -/
def Takes (p : Parser α) (L M : List Item) : Prop := Gets p L M fun _ => True

namespace Gets

variable {Q : β → Prop}

section

variable {p : Parser α} {f : α → Parser β} {P : α → Prop}

theorem pure_of {x : α} (hx : P x) : Gets (Pure.pure x : Parser α) L L P :=
  fun s hs hL => ⟨x, s, rfl, hs, hL, hx⟩

theorem pure {x : α} : Gets (Pure.pure x : Parser α) L L fun _ => True := pure_of trivial

/-- The second parser goes on with the items that the first one leaves. -/
theorem bind (hp : Gets p L M P) (hf : ∀ x, P x → Gets (f x) M N Q) : Gets (p >>= f) L N Q := by
  intro s hs hL
  obtain ⟨x, s', hrun, hs', hM, hx⟩ := hp s hs hL
  obtain ⟨y, s'', hrun', hs'', hN, hy⟩ := hf x hx s' hs' hM
  exact ⟨y, s'', (bind_some hrun).trans hrun', hs'', hN, hy⟩

/-- Less may be said of what is yielded. -/
theorem weaken {P' : α → Prop} (h : Gets p L M P) (hP : ∀ x, P x → P' x) : Gets p L M P' := by
  intro s hs hL
  obtain ⟨x, s', hrun, hs', hM, hx⟩ := h s hs hL
  exact ⟨x, s', hrun, hs', hM, hP x hx⟩

theorem mark {f : Int → Parser β} (h : ∀ m, Gets (f m) L M Q) : Gets (mark >>= f) L M Q :=
  fun s hs hL => h _ s hs hL

/-- What succeeds is not taken back. -/
theorem orReset {m : Int} (h : Gets p L M P) : Gets (orReset m p) L M P := by
  intro s hs hL
  obtain ⟨x, s', hrun, hs', hM, hx⟩ := h s hs hL
  refine ⟨x, s', ?_, hs', hM, hx⟩
  rw [orReset_run, hrun]

/-- An alternative is not tried if the first one gets through. -/
theorem orElse_left {q : Parser α} (h : Gets p L M P) : Gets (p <|> q) L M P := by
  intro s hs hL
  obtain ⟨x, s', hrun, hs', hM, hx⟩ := h s hs hL
  refine ⟨x, s', ?_, hs', hM, hx⟩
  rw [orElse_run, hrun]

/-- The first alternative does not read any of what is left. -/
theorem orElse_right {q : Parser α} {R : α → List Item → Prop} (hp : Production p R)
    (hrefuses : ∀ x u v, L = u ++ v → ¬ R x u) (hq : Gets q L M P) : Gets (p <|> q) L M P := by
  intro s hs hL
  rcases hrun : p s with ⟨_ | x, t⟩
  · have hgoes := ((hp s hs).1 _ _ hrun).1
    have hleft := hgoes.left_eq ((hp s hs).2 _ hrun)
    obtain ⟨y, s', hrun', hs', hM, hy⟩ := hq t hgoes.ready (hleft.trans hL)
    refine ⟨y, s', ?_, hs', hM, hy⟩
    rw [orElse_run, hrun]
    exact hrun'
  · obtain ⟨u, hu, hRu⟩ := ((hp s hs).1 _ _ hrun).2 x rfl
    exact absurd hRu (hrefuses x u _ (hL.symm.trans hu))

end

/-! ## Items -/

theorem current {f : Item → Parser β} (h : ∀ i L', L = i :: L' → Gets (f i) L M Q) :
    Gets (current >>= f) L M Q := by
  intro s hs hL
  obtain ⟨i, rest, hleft, -⟩ := hs.exists_cons
  obtain ⟨x, s', hrun, hs', hM⟩ := h i rest (hL.symm.trans hleft) s hs hL
  exact ⟨x, s', (current_bind hs hleft).trans hrun, hs', hM⟩

theorem token {f : Token → Parser β} (h : ∀ i L', L = i :: L' → Gets (f i.token) L M Q) :
    Gets (token >>= f) L M Q := by
  intro s hs hL
  obtain ⟨i, rest, hleft, -⟩ := hs.exists_cons
  obtain ⟨x, s', hrun, hs', hM⟩ := h i rest (hL.symm.trans hleft) s hs hL
  exact ⟨x, s', (token_bind hs hleft).trans hrun, hs', hM⟩

/-- The item at the cursor is the first of those that are left. -/
theorem current_cons {i : Item} {f : Item → Parser β} (h : Gets (f i) (i :: L) M Q) :
    Gets (Parser.current >>= f) (i :: L) M Q :=
  current fun _ _ hL => (List.cons.inj hL).1 ▸ h

theorem token_cons {i : Item} {f : Token → Parser β} (h : Gets (f i.token) (i :: L) M Q) :
    Gets (Parser.token >>= f) (i :: L) M Q :=
  token fun _ _ hL => (List.cons.inj hL).1 ▸ h

theorem pos {f : Pos → Parser β} (h : ∀ pos, Gets (f pos) L M Q) : Gets (pos >>= f) L M Q := by
  intro s hs hL
  obtain ⟨i, rest, hleft, -⟩ := hs.exists_cons
  obtain ⟨x, s', hrun, hs', hM⟩ := h i.pos s hs hL
  exact ⟨x, s', (pos_bind hs hleft).trans hrun, hs', hM⟩

section

variable {i : Item}

theorem advance {f : Unit → Parser β} (hne : i.token ≠ .eof) (h : Gets (f ()) L M Q) :
    Gets (advance >>= f) (i :: L) M Q := by
  intro s hs hL
  obtain ⟨t, hrun, hgoes, hleft⟩ := exists_advance hs hL hne
  obtain ⟨x, s', hrun', hs', hM⟩ := h t hgoes.ready hleft
  exact ⟨x, s', (bind_some hrun).trans hrun', hs', hM⟩

variable {t : Token} (hi : i.token = t)
include hi

/-- An optional token that is there. -/
theorem accepted {f : Bool → Parser β} (h : Gets (f true) L M Q) (ht : t ≠ .eof) :
    Gets (accept t >>= f) (i :: L) M Q := by
  intro s hs hL
  obtain ⟨x, s', hrun, hs', hM⟩ := Gets.advance (f := fun _ => f true) (hi ▸ ht) h s hs hL
  exact ⟨x, s', (accept_bind_pos hs hL hi).trans hrun, hs', hM⟩

theorem accept {yes no : Parser β} (h : Gets yes L M Q) (ht : t ≠ .eof) :
    Gets (accept t >>= fun b => if b = true then yes else no) (i :: L) M Q :=
  accepted hi h ht

/-- A token that has to be there, and is. -/
theorem expect {f : Unit → Parser β} (h : Gets (f ()) L M Q) (ht : t ≠ .eof) :
    Gets (expect t >>= f) (i :: L) M Q :=
  bind (L := i :: L) (M := L) (P := fun _ => True) (accept hi pure ht) fun _ _ => h

end

/-- An optional token that is not there is not read, and nothing else is. -/
theorem refused {t : Token} {f : Bool → Parser β} (hL : ∀ i ∈ L.head?, i.token ≠ t)
    (h : Gets (f false) L M Q) : Gets (Parser.accept t >>= f) L M Q := by
  intro s hs hleft
  obtain ⟨i, rest, hcons, -⟩ := hs.exists_cons
  have hi : i.token ≠ t := hL i (by rw [← hleft, hcons]; rfl)
  obtain ⟨x, s', hrun, hs', hM⟩ := h s hs hleft
  exact ⟨x, s', (accept_bind_neg hs hcons hi).trans hrun, hs', hM⟩

theorem refuse {t : Token} {yes no : Parser β} (hL : ∀ i ∈ L.head?, i.token ≠ t)
    (h : Gets no L M Q) : Gets (Parser.accept t >>= fun b => if b = true then yes else no) L M Q :=
  refused hL h

/-- The item behind the one at the cursor. -/
theorem peek_one {i j : Item} {f : Item → Parser β} (h : Gets (f j) (i :: j :: L) M Q) :
    Gets (Parser.peek 1 >>= f) (i :: j :: L) M Q := by
  intro s hs hL
  obtain ⟨x, s', hrun, hs', hM⟩ := h s hs hL
  exact ⟨x, s', (bind_some (peek_one_run hs hL)).trans hrun, hs', hM⟩

/-- A name yields its text and its place. -/
theorem name {i : Item} {f : Name → Parser β} (hi : i.token = .name)
    (h : Gets (f ⟨i.text, i.pos⟩) L M Q) : Gets (name >>= f) (i :: L) M Q := by
  intro s hs hL
  obtain ⟨t, hrun, hgoes, hleft⟩ := exists_advance hs hL (hi ▸ by decide)
  obtain ⟨x, s', hrun', hs', hM⟩ := h t hgoes.ready hleft
  refine ⟨x, s', (bind_some ?_).trans hrun', hs', hM⟩
  rw [Parser.name, current_bind hs hL, hi]
  exact bind_some hrun

theorem typeName {i : Item} {d : DataType} {f : DataType → Parser β} (hi : i.token = .typeName d)
    (h : Gets (f d) L M Q) : Gets (typeName >>= f) (i :: L) M Q := by
  intro s hs hL
  obtain ⟨t, hrun, hgoes, hleft⟩ := exists_advance hs hL (hi ▸ by simp)
  obtain ⟨x, s', hrun', hs', hM⟩ := h t hgoes.ready hleft
  refine ⟨x, s', (bind_some ?_).trans hrun', hs', hM⟩
  rw [Parser.typeName, token_bind hs hL, hi]
  exact bind_some hrun

end Gets

theorem Takes.bind {p : Parser α} {f : α → Parser β} (hp : Takes p L M)
    (hf : ∀ x, Takes (f x) M N) : Takes (p >>= f) L N := Gets.bind hp fun x _ => hf x

end Parser

namespace Grammar

open Shader.Parser Ebnf

variable {k n : Nat} {w rest : List Item}

/-- A list takes all of its words in front of what does not go on with a comma, since the elements
stop in front of commas. -/
theorem takes_commaList {α : Type} {e : Ebnf Nonterminal} {p : Parser α}
    (follow : List Item → Prop) (he : e.isSolid = true)
    (hcomma : ∀ i L, i.token = .delim .comma → follow (i :: L))
    (hp : ∀ w rest, Word e w → w.length ≤ k → follow rest → Takes p (w ++ rest) rest) :
    ∀ {n : Nat} {w rest : List Item}, Word (list e) w → w.length ≤ k → w.length ≤ n →
      follow rest → (∀ i ∈ rest.head?, i.token ≠ .delim .comma) →
      Takes (commaList p n) (w ++ rest) rest
  | 0, w, _, hw, _, hlen, _, _ => by
    have hne : w ≠ [] := word_ne_nil hw (Bool.or_eq_true_iff.2 (.inl he))
    exact absurd (List.length_eq_zero_iff.1 (Nat.le_zero.1 hlen)) hne
  | n + 1, w, rest, hw, hk, hn, hfollow, hrest => by
    rcases word_list.1 hw with hw | ⟨u, i, v, rfl, hu, hi, hv⟩
    · exact (hp w rest hw hk hfollow).bind fun x => .refuse hrest .pure
    · rw [List.length_append, List.length_cons] at hk hn
      rw [List.append_assoc]
      refine (hp u _ hu (by omega) (hcomma i _ hi)).bind fun x => .accept hi ?_ (by decide)
      have hmore := takes_commaList (n := n) follow he hcomma hp hv (by omega) (by omega) hfollow
        hrest
      exact hmore.bind fun _ => .pure

/-! ## Expressions -/

/-- The parser reads all words of a symbol up to a length, in front of what holds on with less than
the given strength. -/
def Complete (symbol : Nonterminal) (grip : Nat) (p : Parser Expr) (k : Nat) : Prop :=
  ∀ w rest, Word (.sub symbol) w → w.length ≤ k → Behind grip rest → Takes p (w ++ rest) rest

section Expressions

variable {a : Parser Expr} (ha : Complete .assignment 2 a k) (hk : k ≤ n)
include ha hk

theorem takes_assignments (hw : Word (list (.sub .assignment)) w) (hlen : w.length ≤ k)
    (hrest : Behind 1 rest) : Takes (commaList a n) (w ++ rest) rest :=
  takes_commaList (Behind 2) rfl (fun i L hi => behind_cons hi (by decide)) ha hw hlen
    (hlen.trans hk) (hrest.mono (by decide)) (hrest.ne (by decide))

/-- An expression stops in front of what does not hold on to it; a comma would go on with it. -/
theorem complete_expressionOf : Complete .expression 1 (expressionOf a n) k := by
  intro w rest hw hlen hrest
  refine .mark fun _ => ?_
  rcases word_list.1 (word_sub.1 hw) with hw | ⟨u, i, v, rfl, hu, hi, hv⟩
  · refine (ha w rest hw hlen (hrest.mono (by decide))).bind fun x => .orReset ?_
    exact .refuse (hrest.ne (by decide)) .pure
  · rw [List.length_append, List.length_cons] at hlen
    rw [List.append_assoc]
    refine (ha u _ hu (by omega) (behind_cons hi (by decide))).bind fun x => .orReset ?_
    refine .accept hi ?_ (by decide)
    exact (takes_assignments ha hk hv (by omega) hrest).bind fun _ => .pure

/-- Arguments end with their parenthesis, so it does not matter what follows. -/
theorem takes_argsOf (hw : Word (.sub .args) w) (hlen : w.length ≤ k) :
    Takes (argsOf a n) (w ++ rest) rest := by
  refine .mark fun _ => ?_
  rcases word_or.1 (word_sub.1 hw) with hw | hw
  · obtain ⟨i, rfl, hi⟩ := word_delim.1 hw
    exact .accept hi .pure (by decide)
  · obtain ⟨u, v, rfl, hu, hv⟩ := word_append.1 hw
    obtain ⟨i, rfl, hi⟩ := word_delim.1 hv
    rw [List.length_append] at hlen
    rw [List.append_assoc]
    refine .refuse ((opens_expression (.sub hu)).ne rfl) (.orReset ?_)
    refine (takes_assignments ha hk hu (by omega) (behind_cons hi (by decide))).bind fun _ => ?_
    exact .expect hi .pure (by decide)

/-- A name is not followed by what could be its arguments or its index. -/
theorem takes_named (hw : Word (tok .name ++ opt application) w) (hlen : w.length ≤ k + 1)
    (hrest : Behind 16 rest) : Takes (named a n) (w ++ rest) rest := by
  obtain ⟨i, v, rfl, hi, hv⟩ := word_tok_append.1 hw
  rw [List.length_cons] at hlen
  rw [List.cons_append]
  refine .name hi ?_
  rcases word_opt.1 hv with hv | rfl
  · rcases word_or.1 hv with hv | hv
    · obtain ⟨j, v, rfl, hj, hv⟩ := word_delim_append.1 hv
      rw [List.length_cons] at hlen
      refine .token_cons ?_
      rw [hj]
      exact .advance (hj ▸ by decide) ((takes_argsOf ha hk hv (by omega)).bind fun _ => .pure)
    · rw [word_assoc] at hv
      obtain ⟨j, v, rfl, hj, hv⟩ := word_delim_append.1 hv
      obtain ⟨e, v, rfl, he, hv⟩ := word_append.1 hv
      obtain ⟨l, rfl, hl⟩ := word_delim.1 hv
      rw [List.length_cons, List.length_append] at hlen
      rw [List.cons_append, List.append_assoc]
      refine .token_cons ?_
      rw [hj]
      refine .advance (hj ▸ by decide) ?_
      have hrest : Behind 1 (l :: rest) := behind_cons hl (by decide)
      refine (complete_expressionOf ha hk e _ he (by omega) hrest).bind fun _ => ?_
      exact .expect hl .pure (by decide)
  · refine .token fun j L' hL => ?_
    have hgrip := hrest.grip_lt hL
    split
    next hj => exact absurd hgrip (by rw [hj]; decide)
    next hj => exact absurd hgrip (by rw [hj]; decide)
    next => exact .pure

/-- All forms of primary expressions, which their first tokens tell from each other. -/
theorem complete_primaryOf : Complete .primary 16 (primaryOf a n) (k + 1) := by
  intro w rest hw hlen hrest
  have hword := word_sub.1 hw
  simp only [rule, word_or, word_assoc, or_assoc] at hword
  refine .mark fun _ => ?_
  rcases hword with h | h | h | h | h | h
  · have htakes := takes_named ha hk h hlen hrest
    obtain ⟨i, v, rfl, hi, -⟩ := word_tok_append.1 h
    refine .current_cons ?_
    rw [hi]
    exact .orReset htakes
  · obtain ⟨i, v, rfl, ⟨d, hi⟩, hv⟩ := word_item_append.1 h
    obtain ⟨j, v, rfl, hj, hv⟩ := word_delim_append.1 hv
    rw [List.length_cons, List.length_cons] at hlen
    refine .current_cons ?_
    rw [hi]
    refine .orReset (.pos fun _ => .typeName hi (.expect hj ?_ (by decide)))
    exact (takes_argsOf ha hk hv (by omega)).bind fun _ => .pure
  · obtain ⟨i, rfl, d, hi⟩ := word_item.1 h
    refine .current_cons ?_
    rw [hi]
    exact .advance (hi ▸ by simp) .pure
  · obtain ⟨i, rfl, hi⟩ := word_word.1 h
    refine .current_cons ?_
    rw [hi]
    exact .advance (hi ▸ by decide) .pure
  · obtain ⟨i, rfl, hi⟩ := word_word.1 h
    refine .current_cons ?_
    rw [hi]
    exact .advance (hi ▸ by decide) .pure
  · obtain ⟨i, v, rfl, hi, hv⟩ := word_delim_append.1 h
    obtain ⟨e, v, rfl, he, hv⟩ := word_append.1 hv
    obtain ⟨j, rfl, hj⟩ := word_delim.1 hv
    rw [List.length_cons, List.length_append] at hlen
    rw [List.cons_append, List.append_assoc]
    refine .current_cons ?_
    rw [hi]
    refine .orReset (.expect hi ?_ (by decide))
    have hrest : Behind 1 (j :: rest) := behind_cons hj (by decide)
    refine (complete_expressionOf ha hk e _ he (by omega) hrest).bind fun _ => ?_
    exact .expect hj .pure (by decide)

end Expressions

/-- Selections stop in front of what is neither a dot nor a step. -/
theorem takes_selections : ∀ {n : Nat} {w rest : List Item} (x : Expr),
    Word (many (delim .dot ++ item IsSelector) ++ opt (item IsStep)) w → w.length < n →
    Behind 15 rest → Takes (selections x n) (w ++ rest) rest
  | n + 1, w, rest, x, hw, hlen, hrest => by
    obtain ⟨u, v, rfl, hu, hv⟩ := word_append.1 hw
    rcases word_many.1 hu with rfl | ⟨y, z, rfl, hy, hz⟩
    · rcases word_opt.1 hv with hv | rfl
      · obtain ⟨i, rfl, s, hi⟩ := word_item.1 hv
        refine .token_cons ?_
        rw [hi]
        exact .advance (hi ▸ by simp) .pure
      · refine .token fun j L' hL => ?_
        have hgrip := hrest.grip_lt hL
        split
        next hj =>
          rw [hj] at hgrip
          exact absurd hgrip (Nat.lt_irrefl _)
        next hj => exact absurd hgrip (by rw [hj]; decide)
        next => exact .pure
    · obtain ⟨i, y, rfl, hi, hy⟩ := word_delim_append.1 hy
      obtain ⟨j, rfl, hj, s, hs⟩ := word_item.1 hy
      simp only [List.length_append, List.length_cons] at hlen
      simp only [List.cons_append, List.nil_append]
      refine .token_cons ?_
      rw [hi]
      refine .advance (hi ▸ by decide) (.name hj ?_)
      simp only [hs]
      refine takes_selections _ (.seq hz hv) ?_ hrest
      rw [List.length_append]
      omega

/-- A primary expression does not take its selections, since it stops in front of a dot. -/
theorem complete_selectionOf {p : Parser Expr} (hp : Complete .primary 16 p (k + 1)) (hk : k < n) :
    Complete .selection 15 (selectionOf p n) (k + 1) := by
  intro w rest hw hlen hrest
  have hword := word_sub.1 hw
  rw [rule, word_assoc] at hword
  obtain ⟨u, v, rfl, hu, hv⟩ := word_append.1 hword
  have hpos := List.length_pos_iff.2 (word_ne_nil hu rfl)
  rw [List.length_append] at hlen
  rw [List.append_assoc]
  refine .mark fun _ => (hp u _ hu (by omega) ?_).bind fun x => .orReset ?_
  · -- what belongs to the selection holds on less than an application would
    obtain ⟨y, z, rfl, hy, hz⟩ := word_append.1 hv
    rcases word_many.1 hy with rfl | ⟨a, b, rfl, ha, -⟩
    · rcases word_opt.1 hz with hz | rfl
      · obtain ⟨i, rfl, s, hi⟩ := word_item.1 hz
        exact behind_cons hi (Nat.lt_succ_self 15)
      · exact hrest.mono (by decide)
    · obtain ⟨i, a, rfl, hi, -⟩ := word_delim_append.1 ha
      exact behind_cons hi (by decide)
  · exact takes_selections x hv (by omega) hrest

/-- No sign is the first token of a selection, so all signs are read first. -/
theorem complete_unaryOf {p : Parser Expr} (hp : Complete .selection 15 p k) :
    ∀ {n : Nat} {w rest : List Item}, Word (.sub .unary) w → w.length ≤ k → w.length ≤ n →
      Behind 15 rest → Takes (unaryOf p n) (w ++ rest) rest
  | 0, w, _, hw, _, hlen, _ => by
    have hne : w ≠ [] := word_ne_nil hw rfl
    exact absurd (List.length_eq_zero_iff.1 (Nat.le_zero.1 hlen)) hne
  | n + 1, w, rest, hw, hk, hn, hrest => by
    rcases word_or.1 (word_sub.1 hw) with hw | hw
    · obtain ⟨i, v, rfl, ⟨op, hi⟩, hv⟩ := word_item_append.1 hw
      rw [List.length_cons] at hk hn
      refine .current_cons ?_
      simp only [hi]
      refine .mark fun _ => .orReset (.advance (unaryOp?_ne_eof hi) ?_)
      exact (complete_unaryOf hp hv (by omega) (by omega) hrest).bind fun _ => .pure
    · have htakes := hp w rest hw hk hrest
      obtain ⟨i, v, rfl, hi, -⟩ := opens_selection hw
      refine .current_cons ?_
      simp only [Token.unaryOp?_eq_none hi]
      exact htakes

/-- Behind operands of the tightest levels there are operators of the next one, up to what follows
the word. -/
theorem takes_chain {p : Parser Expr} {levels : Nat} (hlevels : levels < topLevel)
    (hp : Complete (.binary levels) (15 - levels) p k) :
    ∀ {n : Nat} {w rest : List Item} (x : Expr),
    Word (many (item (IsBinaryOp (topLevel - levels)) ++ sub (.binary levels))) w → w.length ≤ k →
    w.length < n → Behind (14 - levels) rest →
    Takes (chain (topLevel - levels) p x n) (w ++ rest) rest
  | n + 1, w, rest, x, hw, hk, hn, hrest => by
    rcases word_many.1 hw with rfl | ⟨u, v, rfl, hu, hv⟩
    · refine .token fun i L' hL => ?_
      have hgrip := hrest.grip_lt hL
      split
      next op hi =>
        rw [grip_of_binaryOp? hi] at hgrip
        unfold topLevel at *
        omega
      next => exact .pure
    · obtain ⟨i, u, rfl, ⟨op, hi⟩, hu⟩ := word_item_append.1 hu
      rw [List.length_append, List.length_cons] at hk hn
      rw [List.append_assoc]
      refine .token_cons ?_
      simp only [hi]
      refine .advance (binaryOp?_ne_eof hi) ?_
      refine (hp u _ hu (by omega) (behind_chain hlevels hv hrest)).bind fun y => ?_
      exact takes_chain hlevels hp _ hv (by omega) (by omega) hrest

/-- A chain of one level stops in front of the operators of the levels above. -/
theorem complete_binaryOf {p : Parser Expr} (hp : Complete .unary 15 p (k + 1)) (hk : k < n) :
    ∀ levels, levels ≤ topLevel →
      Complete (.binary levels) (15 - levels) (binaryOf p n levels) (k + 1)
  | 0, _ => fun w rest hw => hp w rest (word_sub.1 hw)
  | levels + 1, hlevels => by
    have ih := complete_binaryOf hp hk levels (by omega)
    intro w rest hw hlen hrest
    obtain ⟨u, v, rfl, hu, hv⟩ := word_append.1 (word_sub.1 hw)
    have hpos := List.length_pos_iff.2 (word_ne_nil hu rfl)
    rw [List.length_append] at hlen
    rw [List.append_assoc]
    have hrest : Behind (14 - levels) rest := hrest.mono (by omega)
    refine .mark fun _ => (ih u _ hu (by omega) (behind_chain hlevels hv hrest)).bind fun x => ?_
    exact .orReset (takes_chain hlevels ih x hv (by omega) (by omega) hrest)

/-- Unary expressions over any complete parser of assignments. -/
theorem complete_unaryWith {a : Parser Expr} (ha : Complete .assignment 2 a k) (hk : k < n) :
    Complete .unary 15 (unaryWith a n) (k + 1) := by
  intro w rest hw hlen hrest
  refine complete_unaryOf (complete_selectionOf (complete_primaryOf ha hk.le) hk) hw hlen ?_ hrest
  omega

/-- An assignment is read as the operand, the choice or the assignment to an operand that it is. -/
theorem complete_assignment : ∀ {k n : Nat}, k < n → Complete .assignment 2 (assignment n) k
  | 0, _, _ => fun w _ hw hlen =>
    absurd (List.length_eq_zero_iff.1 (Nat.le_zero.1 hlen)) (word_ne_nil hw rfl)
  | k + 1, n + 1, hn => by
    have hk : k < n := by omega
    have ih : Complete .assignment 2 (assignment n) k := complete_assignment hk
    have hbinary := complete_binaryOf (complete_unaryWith ih hk) hk topLevel (Nat.le_refl _)
    have hexpression := complete_expressionOf ih hk.le
    intro w rest hw hlen hrest
    -- no sign of an assignment follows the word
    have hoperand : Takes (conditionalOf (binaryOf (unaryWith (assignment n) n) n topLevel)
        (assignment n) n) (w ++ rest) rest → Takes (assignment (n + 1)) (w ++ rest) rest := by
      refine fun h => .mark fun _ => h.bind fun x => .orReset (.token fun i L' hL => ?_)
      have hgrip := hrest.grip_lt hL
      split
      next hi =>
        rw [hi] at hgrip
        exact absurd hgrip (Nat.lt_irrefl _)
      next => exact .pure
    rcases word_assignment hw with hw | ⟨b, i, e, j, a, rfl, hb, hi, he, hj, ha⟩ |
        ⟨b, i, a, rfl, hb, ⟨op, hi⟩, ha⟩
    · refine hoperand (.mark fun _ => ?_)
      refine (hbinary w rest hw hlen (hrest.mono (by decide))).bind fun c => .orReset ?_
      exact .refuse (hrest.ne (by decide)) .pure
    · refine hoperand (.mark fun _ => ?_)
      simp only [List.length_append, List.length_cons] at hlen
      simp only [List.append_assoc, List.cons_append]
      refine (hbinary b _ hb (by omega) (behind_cons hi (by decide))).bind fun c => .orReset ?_
      refine .accept hi ?_ (by decide)
      refine (hexpression e _ he (by omega) (behind_cons hj (by decide))).bind fun x => ?_
      exact .expect hj ((ih a rest ha (by omega) hrest).bind fun _ => .pure) (by decide)
    · rw [List.length_append, List.length_cons] at hlen
      rw [List.append_assoc, List.cons_append]
      have hgrip : (Token.assign op).grip < 4 := Nat.lt_add_of_pos_right Nat.zero_lt_two
      refine .mark fun _ => Takes.bind (M := i :: (a ++ rest)) (.mark fun _ => ?_) fun x =>
        .orReset ?_
      · refine (hbinary b _ hb (by omega) (behind_cons hi hgrip)).bind fun c => .orReset ?_
        refine .refuse ?_ .pure
        rintro _ ⟨⟩ hquestion
        cases hi.symm.trans hquestion
      · refine .token_cons ?_
        rw [hi]
        exact .advance (hi ▸ by simp) ((ih a rest ha (by omega) hrest).bind fun _ => .pure)

/-- An assignment takes all of its words that are shorter than the bound. -/
theorem takes_assignment (hw : Word (.sub .assignment) w) (hlen : w.length < n)
    (hrest : Behind 2 rest) : Takes (assignment n) (w ++ rest) rest :=
  complete_assignment hlen w rest hw (Nat.le_refl _) hrest

/-- An expression takes all of its words that are shorter than the bound. -/
theorem takes_expression (hw : Word (.sub .expression) w) (hlen : w.length < n)
    (hrest : Behind 1 rest) : Takes (expression n) (w ++ rest) rest :=
  complete_expressionOf (complete_assignment hlen) hlen.le w rest hw (Nat.le_refl _) hrest

end Grammar

end Shader
