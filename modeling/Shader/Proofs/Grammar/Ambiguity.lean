import Shader.Proofs.Grammar.Words

/-!
# How words start and go on

What a reader that decides by the next item has to know of the grammar. An operand starts with
other items than a declaration, and where both start with the name of a type, the item behind it
tells them apart. Every token holds on to an operand in front of it with some strength; a word goes
on exactly as long as the tokens are strong enough for its symbol.

The grammar derives some words in two ways. A choice in front of the sign of an assignment may be
assigned to or end with the assignment, which a reader takes for the latter; `word_assignment` says
that nothing is lost by that.
-/

namespace Shader

open Shader.Grammar

namespace Token

/-- Tokens that start an operand without operators. -/
def opensPrimary : Token → Bool
  | name | typeName _ | number _ | keyword .true | keyword .false | delim .lparen => true
  | _ => false

/-- Tokens that start an operand. -/
def opensOperand (t : Token) : Bool := (unaryOp? t).isSome || t.opensPrimary

/-- Tokens that start a statement. -/
def opensStmt : Token → Bool
  | delim .lbrace | delim .semi | keyword .if | keyword .for | keyword .while | keyword .do
  | keyword .break | keyword .continue | keyword .return | keyword .const => true
  | t => t.opensOperand

/-- Tokens that start the declaration of a variable. -/
def opensVar : Token → Bool
  | keyword .const | typeName _ => true
  | _ => false

/-- Tokens that start the declaration of a variable with its storage. -/
def opensStored (t : Token) : Bool :=
  t == keyword .uniform || t == keyword .in || t == keyword .out || t.opensVar

/-- Tokens that start a definition. -/
def opensDefinition (t : Token) : Bool := t == keyword .layout || t.opensStored

theorem not_isEof_of_opensDefinition {t : Token} (h : t.opensDefinition = true) :
    ¬ t.isEof = true := by
  intro heof
  exact absurd (isEof_iff.1 heof ▸ h) (by decide)

theorem opensStmt_of_opensOperand {t : Token} (h : t.opensOperand = true) : t.opensStmt = true := by
  unfold opensStmt
  split <;> first | rfl | exact h

theorem unaryOp?_eq_none {t : Token} (h : t.opensPrimary = true) : unaryOp? t = none := by
  unfold opensPrimary at h
  split at h <;> first | rfl | cases h

/-- How strongly a token holds on to an operand in front of it. Operators between operands are
stronger the tighter they bind. -/
def grip : Token → Nat
  | delim .lparen | delim .lbrack => 16
  | delim .dot | step _ => 15
  | binary op => 3 + op.precedence
  | question => 3
  | assign _ => 2
  | delim .comma => 1
  | _ => 0

end Token

namespace Grammar

open Ebnf

variable {w u v rest : List Item}

/-! ## Operands -/

/-- Items that start with one of a kind; behind the name of a type there is a parenthesis. -/
def Opens (kind : Token → Bool) (w : List Item) : Prop :=
  ∃ i v, w = i :: v ∧ kind i.token = true ∧
    (IsType i → ∃ j v', v = j :: v' ∧ j.token = .delim .lparen)

theorem Opens.append {kind : Token → Bool} (h : Opens kind u) : Opens kind (u ++ v) := by
  obtain ⟨i, u', rfl, hi, hbehind⟩ := h
  refine ⟨i, u' ++ v, rfl, hi, fun htype => ?_⟩
  obtain ⟨j, v', rfl, hj⟩ := hbehind htype
  exact ⟨j, v' ++ v, rfl, hj⟩

theorem Opens.ne {kind : Token → Bool} (h : Opens kind w) {t : Token} (ht : kind t = false) :
    ∀ i ∈ (w ++ v).head?, i.token ≠ t := by
  obtain ⟨i, w, rfl, hi, -⟩ := h
  rintro _ ⟨⟩ rfl
  exact Bool.false_ne_true (ht.symm.trans hi)

/-- An item that is no name of a type starts what it is the first of. -/
theorem opens_cons {kind : Token → Bool} {i : Item} {t : Token} (hi : i.token = t)
    (ht : kind t = true) (hne : ∀ d, t ≠ .typeName d) : Opens kind (i :: v) :=
  ⟨i, v, rfl, hi ▸ ht, fun ⟨d, hd⟩ => absurd (hi.symm.trans hd) (hne d)⟩

theorem opens_primary (h : Word (.sub .primary) w) : Opens Token.opensPrimary w := by
  have hword := word_sub.1 h
  simp only [rule, word_or, word_assoc, or_assoc] at hword
  rcases hword with h | h | h | h | h | h
  · obtain ⟨i, v, rfl, hi, -⟩ := word_tok_append.1 h
    exact opens_cons hi rfl (by simp)
  · obtain ⟨i, v, rfl, ⟨d, hi⟩, hv⟩ := word_item_append.1 h
    obtain ⟨j, v, rfl, hj, -⟩ := word_delim_append.1 hv
    exact ⟨i, j :: v, rfl, by rw [hi]; rfl, fun _ => ⟨j, v, rfl, hj⟩⟩
  · obtain ⟨i, rfl, k, hi⟩ := word_item.1 h
    exact opens_cons hi rfl (by simp)
  · obtain ⟨i, rfl, hi⟩ := word_word.1 h
    exact opens_cons hi rfl (by simp)
  · obtain ⟨i, rfl, hi⟩ := word_word.1 h
    exact opens_cons hi rfl (by simp)
  · obtain ⟨i, v, rfl, hi, -⟩ := word_delim_append.1 h
    exact opens_cons hi rfl (by simp)

theorem opens_selection (h : Word (.sub .selection) w) : Opens Token.opensPrimary w := by
  have hword := word_sub.1 h
  rw [rule, word_assoc] at hword
  obtain ⟨u, v, rfl, hu, -⟩ := word_append.1 hword
  exact (opens_primary hu).append

theorem opens_unary (h : Word (.sub .unary) w) : Opens Token.opensOperand w := by
  rcases word_or.1 (word_sub.1 h) with h | h
  · obtain ⟨i, v, rfl, ⟨op, hop⟩, -⟩ := word_item_append.1 h
    refine ⟨i, v, rfl, by rw [Token.opensOperand, hop]; rfl, fun ⟨d, hd⟩ => ?_⟩
    rw [hd] at hop
    cases hop
  · obtain ⟨i, v, rfl, hi, hbehind⟩ := opens_selection h
    exact ⟨i, v, rfl, by rw [Token.opensOperand, hi, Bool.or_true], hbehind⟩

theorem opens_binary : ∀ {levels : Nat} {w : List Item}, Word (.sub (.binary levels)) w →
    Opens Token.opensOperand w
  | 0, _, h => opens_unary (word_sub.1 h)
  | levels + 1, w, h => by
    obtain ⟨u, v, rfl, hu, -⟩ := word_append.1 (word_sub.1 h)
    exact (opens_binary hu).append

theorem opens_assignment (h : Word (.sub .assignment) w) : Opens Token.opensOperand w := by
  obtain ⟨u, v, rfl, hu, -⟩ := word_append.1 (word_sub.1 h)
  obtain ⟨x, y, rfl, hx, -⟩ := word_append.1 (word_sub.1 hu)
  exact (opens_binary hx).append.append

theorem opens_expression (h : Word (.sub .expression) w) : Opens Token.opensOperand w := by
  obtain ⟨u, v, rfl, hu, -⟩ := word_append.1 (word_sub.1 h)
  exact (opens_assignment hu).append

/-! ## Declarations -/

/-- A declaration starts with a qualifier, or with the name of a type and a name. -/
theorem varSpec_head (h : Word (.sub .varSpec) w) :
    (∃ i v, w = i :: v ∧ i.token = .keyword .const) ∨
      ∃ i j v, w = i :: j :: v ∧ IsType i ∧ j.token = .name := by
  have hword := word_sub.1 h
  simp only [rule, word_assoc] at hword
  obtain ⟨u, v, rfl, hu, hv⟩ := word_append.1 hword
  rcases word_opt.1 hu with hu | rfl
  · obtain ⟨i, rfl, hi⟩ := word_word.1 hu
    exact .inl ⟨i, v, rfl, hi⟩
  · obtain ⟨i, v, rfl, hi, hv⟩ := word_item_append.1 hv
    obtain ⟨j, v, rfl, hj, -⟩ := word_tok_append.1 hv
    exact .inr ⟨i, j, v, rfl, hi, hj⟩

/-- Nothing starts both with a declaration and with an operand. -/
theorem varSpec_not_opens {rest' : List Item} (h : Word (.sub .varSpec) u)
    (hw : Opens Token.opensOperand w) (heq : w ++ rest = u ++ rest') : False := by
  obtain ⟨i, v, rfl, hi, hbehind⟩ := hw
  rcases varSpec_head h with ⟨j, u', rfl, hj⟩ | ⟨j, k, u', rfl, hj, hk⟩
  · obtain ⟨rfl, -⟩ := List.cons.inj heq
    exact absurd (hj ▸ hi) (by decide)
  · obtain ⟨rfl, heq'⟩ := List.cons.inj heq
    obtain ⟨l, v', rfl, hl⟩ := hbehind hj
    obtain ⟨rfl, -⟩ := List.cons.inj heq'
    cases hl.symm.trans hk

/-! ## Statements -/

theorem stmt_head (h : Word (.sub .stmt) w) : ∃ i v, w = i :: v ∧ i.token.opensStmt = true := by
  have hword := word_sub.1 h
  simp only [rule, word_or, or_assoc] at hword
  rcases hword with h | h | h | h | h | h | h | h | h | h
  · obtain ⟨i, v, rfl, hi, -⟩ := word_delim_append.1 (word_assoc.1 (word_sub.1 h))
    exact ⟨i, v, rfl, by rw [hi]; rfl⟩
  · obtain ⟨i, rfl, hi⟩ := word_delim.1 h
    exact ⟨i, [], rfl, by rw [hi]; rfl⟩
  · simp only [ifForm, word_assoc] at h
    obtain ⟨i, v, rfl, hi, -⟩ := word_word_append.1 h
    exact ⟨i, v, rfl, by rw [hi]; rfl⟩
  · simp only [forForm, word_assoc] at h
    obtain ⟨i, v, rfl, hi, -⟩ := word_word_append.1 h
    exact ⟨i, v, rfl, by rw [hi]; rfl⟩
  · simp only [whileForm, word_assoc] at h
    obtain ⟨i, v, rfl, hi, -⟩ := word_word_append.1 h
    exact ⟨i, v, rfl, by rw [hi]; rfl⟩
  · simp only [doForm, word_assoc] at h
    obtain ⟨i, v, rfl, hi, -⟩ := word_word_append.1 h
    exact ⟨i, v, rfl, by rw [hi]; rfl⟩
  · obtain ⟨u, v, rfl, hu, -⟩ := word_append.1 h
    rcases word_or.1 hu with hu | hu
    · obtain ⟨i, rfl, hi⟩ := word_word.1 hu
      exact ⟨i, v, rfl, by rw [hi]; rfl⟩
    · obtain ⟨i, rfl, hi⟩ := word_word.1 hu
      exact ⟨i, v, rfl, by rw [hi]; rfl⟩
  · obtain ⟨i, v, rfl, hi, -⟩ := word_word_append.1 (word_assoc.1 h)
    exact ⟨i, v, rfl, by rw [hi]; rfl⟩
  · obtain ⟨u, v, rfl, hu, -⟩ := word_append.1 h
    rcases varSpec_head hu with ⟨i, u, rfl, hi⟩ | ⟨i, j, u, rfl, ⟨d, hi⟩, -⟩
    · exact ⟨i, u ++ v, rfl, by rw [hi]; rfl⟩
    · exact ⟨i, j :: u ++ v, rfl, by rw [hi]; rfl⟩
  · obtain ⟨u, v, rfl, hu, -⟩ := word_append.1 h
    obtain ⟨i, u, rfl, hi, -⟩ := opens_expression hu
    exact ⟨i, u ++ v, rfl, Token.opensStmt_of_opensOperand hi⟩

/-! ## Definitions -/

theorem param_head (h : Word (.sub .param) w) : ∃ i j v, w = i :: j :: v ∧
    i.token ≠ .delim .rparen ∧ j.token ≠ .delim .rparen := by
  obtain ⟨u, v, rfl, hu, hv⟩ := word_append.1 (word_assoc.1 (word_sub.1 h))
  obtain ⟨i, v, rfl, ⟨d, hi⟩, hv⟩ := word_item_append.1 hv
  obtain ⟨j, rfl, hj⟩ := word_tok.1 hv
  rcases word_opt.1 hu with hu | rfl
  · rcases word_or.1 hu with hu | hu
    · obtain ⟨l, rfl, hl⟩ := word_word.1 hu
      exact ⟨l, i, [j], rfl, hl ▸ nofun, hi ▸ nofun⟩
    · obtain ⟨l, rfl, hl⟩ := word_word.1 hu
      exact ⟨l, i, [j], rfl, hl ▸ nofun, hi ▸ nofun⟩
  · exact ⟨i, j, [], rfl, hi ▸ nofun, hj ▸ nofun⟩

/-- A declaration starts with a qualifier, or with the name of a type and a name; then there is no
parenthesis behind them. -/
theorem varForm_head (h : Word varForm w) :
    (∃ i v, w = i :: v ∧ i.token = .keyword .const) ∨
      ∃ i j k v, w = i :: j :: k :: v ∧ IsType i ∧ k.token ≠ .delim .lparen := by
  obtain ⟨u, z, rfl, hu, hz⟩ := word_append.1 h
  simp only [word_sub, rule, word_assoc] at hu
  obtain ⟨q, u, rfl, hq, hu⟩ := word_append.1 hu
  obtain ⟨i, u, rfl, hi, hu⟩ := word_item_append.1 hu
  obtain ⟨j, o, rfl, -, ho⟩ := word_tok_append.1 hu
  obtain ⟨k, rfl, hk⟩ := word_delim.1 hz
  rcases word_opt.1 hq with hq | rfl
  · obtain ⟨c, rfl, hc⟩ := word_word.1 hq
    exact .inl ⟨c, _, rfl, hc⟩
  · rcases word_opt.1 ho with ho | rfl
    · obtain ⟨a, o, rfl, ha, -⟩ := word_tok_append.1 ho
      exact .inr ⟨i, j, a, o ++ [k], rfl, hi, ha ▸ nofun⟩
    · exact .inr ⟨i, j, k, [], rfl, hi, hk ▸ nofun⟩

theorem opensVar_of_varForm (h : Word varForm w) :
    ∃ i v, w = i :: v ∧ i.token.opensVar = true := by
  rcases varForm_head h with ⟨i, v, rfl, hi⟩ | ⟨i, j, k, v, rfl, ⟨d, hi⟩, -⟩
  · exact ⟨i, v, rfl, by rw [hi]; rfl⟩
  · exact ⟨i, j :: k :: v, rfl, by rw [hi]; rfl⟩

/-- The storage of a variable, if it is given, and its declaration. -/
theorem stored_head (h : Word (opt (word .uniform ||| word .in ||| word .out) ++ varForm) w) :
    ∃ i v, w = i :: v ∧ i.token.opensStored = true := by
  obtain ⟨u, v, rfl, hu, hv⟩ := word_append.1 h
  simp only [word_opt, word_or, word_word, or_assoc] at hu
  rcases hu with ⟨i, rfl, hi⟩ | ⟨i, rfl, hi⟩ | ⟨i, rfl, hi⟩ | rfl
  · exact ⟨i, v, rfl, by rw [hi]; rfl⟩
  · exact ⟨i, v, rfl, by rw [hi]; rfl⟩
  · exact ⟨i, v, rfl, by rw [hi]; rfl⟩
  · obtain ⟨i, v, rfl, hi⟩ := opensVar_of_varForm hv
    exact ⟨i, v, rfl, by rw [Token.opensStored, hi, Bool.or_true]⟩

theorem global_head (h : Word globalForm w) :
    (∃ i v, w = i :: v ∧ i.token = .keyword .layout) ∨
      Word (opt (word .uniform ||| word .in ||| word .out) ++ varForm) w := by
  obtain ⟨u, v, rfl, hu, hv⟩ := word_append.1 (word_assoc.1 h)
  rcases word_opt.1 hu with hu | rfl
  · simp only [word_sub, rule, word_assoc] at hu
    obtain ⟨i, u, rfl, hi, -⟩ := word_word_append.1 hu
    exact .inl ⟨i, u ++ v, rfl, hi⟩
  · exact .inr hv

theorem definition_head (h : Word (.sub .definition) w) :
    ∃ i v, w = i :: v ∧ i.token.opensDefinition = true := by
  rcases word_or.1 (word_sub.1 h) with h | h
  · simp only [funcForm, word_assoc] at h
    obtain ⟨i, v, rfl, ⟨d, hi⟩, -⟩ := word_item_append.1 h
    exact ⟨i, v, rfl, by rw [hi]; rfl⟩
  · rcases global_head h with ⟨i, v, rfl, hi⟩ | h
    · exact ⟨i, v, rfl, by rw [hi]; rfl⟩
    · obtain ⟨i, v, rfl, hi⟩ := stored_head h
      exact ⟨i, v, rfl, by rw [Token.opensDefinition, hi, Bool.or_true]⟩

/-- Nothing starts both with a variable and with a function. -/
theorem global_not_func {rest' : List Item} (h : Word funcForm u) (hw : Word globalForm w)
    (heq : w ++ rest = u ++ rest') : False := by
  simp only [funcForm, word_assoc] at h
  obtain ⟨i, u, rfl, ⟨d, hi⟩, h⟩ := word_item_append.1 h
  obtain ⟨j, u, rfl, -, h⟩ := word_tok_append.1 h
  obtain ⟨k, u, rfl, hk, -⟩ := word_delim_append.1 h
  rcases global_head hw with ⟨l, v, rfl, hl⟩ | hw
  · obtain ⟨rfl, -⟩ := List.cons.inj heq
    cases hi.symm.trans hl
  obtain ⟨q, v, rfl, hq, hv⟩ := word_append.1 hw
  simp only [word_opt, word_or, word_word, or_assoc] at hq
  rcases hq with ⟨l, rfl, hl⟩ | ⟨l, rfl, hl⟩ | ⟨l, rfl, hl⟩ | rfl
  · cases hi.symm.trans ((List.cons.inj heq).1 ▸ hl)
  · cases hi.symm.trans ((List.cons.inj heq).1 ▸ hl)
  · cases hi.symm.trans ((List.cons.inj heq).1 ▸ hl)
  · rcases varForm_head hv with ⟨l, v, rfl, hl⟩ | ⟨l, m, o, v, rfl, -, ho⟩
    · cases hi.symm.trans ((List.cons.inj heq).1 ▸ hl)
    · obtain ⟨-, heq⟩ := List.cons.inj heq
      obtain ⟨-, heq⟩ := List.cons.inj heq
      obtain ⟨rfl, -⟩ := List.cons.inj heq
      exact ho hk

/-! ## Assignments -/

/-- What an assignment yields may not be assigned to, but the words are the same. -/
theorem word_assignment_assign {i : Item} (hi : IsAssign i) (hv : Word (.sub .assignment) v) :
    ∀ {u : List Item}, Word (.sub .assignment) u → Word (.sub .assignment) (u ++ i :: v) := by
  intro u
  induction hlen : u.length using Nat.strongRecOn generalizing u with
  | ind k ih =>
    intro hu
    obtain ⟨x, y, rfl, hx, hy⟩ := word_append.1 (word_sub.1 hu)
    rcases word_opt.1 hy with hy | rfl
    · -- the second assignment becomes part of the one on the right
      obtain ⟨j, b, rfl, hj, hb⟩ := word_item_append.1 hy
      have hshort : b.length < k := by
        rw [← hlen, List.length_append, List.length_cons]
        omega
      rw [List.append_assoc]
      exact .sub (.seq hx (.left (word_item_append.2 ⟨j, _, rfl, hj, ih _ hshort rfl hb⟩)))
    · rw [List.append_nil]
      exact .sub (.seq hx (.left (word_item_append.2 ⟨i, v, rfl, hi, hv⟩)))

/-- An assignment has a sign behind an operand, or is a choice that an assignment ends, or is an
operand. -/
theorem word_assignment (h : Word (.sub .assignment) w) :
    Word (.sub (.binary topLevel)) w ∨
      (∃ b i e j a, w = b ++ i :: (e ++ j :: a) ∧ Word (.sub (.binary topLevel)) b ∧
        i.token = .question ∧ Word (.sub .expression) e ∧ j.token = .colon ∧
        Word (.sub .assignment) a) ∨
      ∃ b i a, w = b ++ i :: a ∧ Word (.sub (.binary topLevel)) b ∧ IsAssign i ∧
        Word (.sub .assignment) a := by
  obtain ⟨u, v, rfl, hu, hv⟩ := word_append.1 (word_sub.1 h)
  obtain ⟨b, c, rfl, hb, hc⟩ := word_append.1 (word_sub.1 hu)
  rcases word_opt.1 hc with hc | rfl
  · simp only [word_assoc] at hc
    obtain ⟨i, c, rfl, hi, hc⟩ := word_tok_append.1 hc
    obtain ⟨e, c, rfl, he, hc⟩ := word_append.1 hc
    obtain ⟨j, a, rfl, hj, ha⟩ := word_tok_append.1 hc
    rcases word_opt.1 hv with hv | rfl
    · obtain ⟨k, a', rfl, hk, ha'⟩ := word_item_append.1 hv
      exact .inr (.inl ⟨b, i, e, j, a ++ k :: a', by simp, hb, hi, he, hj,
        word_assignment_assign hk ha' ha⟩)
    · exact .inr (.inl ⟨b, i, e, j, a, by simp, hb, hi, he, hj, ha⟩)
  · rw [List.append_nil]
    rcases word_opt.1 hv with hv | rfl
    · obtain ⟨i, a, rfl, hi, ha⟩ := word_item_append.1 hv
      exact .inr (.inr ⟨b, i, a, rfl, hb, hi, ha⟩)
    · rw [List.append_nil]
      exact .inl hb

/-! ## Where a word ends -/

/-- What follows holds on with less than the given strength. -/
def Behind (k : Nat) (rest : List Item) : Prop := ∀ i ∈ rest.head?, i.token.grip < k

theorem behind_cons {k : Nat} {i : Item} {t : Token} (hi : i.token = t) (ht : t.grip < k) :
    Behind k (i :: rest) := by
  rintro _ ⟨⟩
  rwa [hi]

theorem Behind.grip_lt {k : Nat} {i : Item} {L : List Item} (h : Behind k rest)
    (hL : rest = i :: L) : i.token.grip < k := h i (by rw [hL]; rfl)

theorem Behind.mono {k l : Nat} (h : Behind k rest) (hkl : k ≤ l) : Behind l rest :=
  fun i hi => Nat.lt_of_lt_of_le (h i hi) hkl

theorem Behind.ne {k : Nat} (h : Behind k rest) {t : Token} (ht : k ≤ t.grip) :
    ∀ i ∈ rest.head?, i.token ≠ t := by
  rintro i hi rfl
  exact absurd (h i hi) (Nat.not_lt.2 ht)

theorem grip_of_binaryOp? {level : Nat} {t : Token} {op : BinaryOp}
    (h : binaryOp? level t = some op) : t.grip = 3 + level := by
  unfold binaryOp? at h
  split at h
  next op' =>
    split at h
    next hlevel => rw [Token.grip, hlevel]
    next => cases h
  next => cases h

/-- What follows an operand of the tightest levels within operands of one level more. -/
theorem behind_chain {levels : Nat} {e : Ebnf Nonterminal} (hlevels : levels < topLevel)
    (hw : Word (many (item (IsBinaryOp (topLevel - levels)) ++ e)) w)
    (hrest : Behind (14 - levels) rest) : Behind (15 - levels) (w ++ rest) := by
  rcases word_many.1 hw with rfl | ⟨u, v, rfl, hu, -⟩
  · exact hrest.mono (by omega)
  · obtain ⟨i, u, rfl, ⟨op, hi⟩, -⟩ := word_item_append.1 hu
    refine behind_cons rfl ?_
    rw [grip_of_binaryOp? hi]
    unfold topLevel at *
    omega

end Grammar

end Shader
