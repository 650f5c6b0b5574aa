import Shader.Grammar.Program

/-!
# The words of the grammar

The grammar of shaders in extended Backus–Naur form, and the words that it derives. Nothing here
depends on how a text is read: `Ebnf` gives the right sides of the rules, `rule` the rules, and
`Word` says which items a right side derives. Lists and options may be derived in several ways;
only what is derived counts.

Each form has a lemma that says what its words are, so that a word is taken apart by rewriting with
the rule of its symbol.
-/

namespace Shader.Grammar

/-- The right sides of rules. -/
inductive Ebnf (σ : Type) where
  /-- an item of a kind -/
  | item (kind : Item → Prop)
  /-- what a symbol derives -/
  | sub (symbol : σ)
  /-- nothing -/
  | empty
  /-- one after the other -/
  | seq (first second : Ebnf σ)
  /-- one or the other -/
  | alt (first second : Ebnf σ)
  /-- any number of times -/
  | many (each : Ebnf σ)

namespace Ebnf

variable {σ : Type}

instance : Append (Ebnf σ) := ⟨seq⟩

instance : OrOp (Ebnf σ) := ⟨alt⟩

/-- The given token. -/
def tok (t : Token) : Ebnf σ := item fun i => i.token = t

/-- A delimiter. -/
def delim (d : Delimiter) : Ebnf σ := tok (.delim d)

/-- A reserved word. -/
def word (k : Keyword) : Ebnf σ := tok (.keyword k)

/-- At most once. -/
def opt (e : Ebnf σ) : Ebnf σ := e ||| empty

/-- Once or more, with commas in between. -/
def list (e : Ebnf σ) : Ebnf σ := e ++ many (delim .comma ++ e)

end Ebnf

open Ebnf

/-- The symbols of the grammar. -/
inductive Nonterminal where
  | program | definition | params | param | layout | layoutEntry | varSpec
  | block | stmt
  | expression | assignment | conditional
  /-- operands with operators of a number of the tightest levels between them -/
  | binary (levels : Nat)
  | unary | selection | primary | args

/-! ## Kinds of items -/

/-- The name of a type. -/
def IsType (i : Item) : Prop := ∃ t, i.token = .typeName t

/-- A number, of any kind. -/
def IsNumber (i : Item) : Prop := ∃ k, i.token = .number k

/-- The name of a component. -/
def IsSelector (i : Item) : Prop := i.token = .name ∧ ∃ s, Swizzle.ofText? i.text = some s

/-- An integer that fits into a word of 64 bits. -/
def IsSmall (i : Item) : Prop :=
  i.token = .number .int ∧ Numeral.ofDigits i.text.toList < numberBound

/-- An operator in front of an operand. -/
def IsUnaryOp (i : Item) : Prop := ∃ op, unaryOp? i.token = some op

/-- An operator of a level between operands. -/
def IsBinaryOp (level : Nat) (i : Item) : Prop := ∃ op, binaryOp? level i.token = some op

/-- The sign of an assignment. -/
def IsAssign (i : Item) : Prop := ∃ op, i.token = .assign op

/-- A step. -/
def IsStep (i : Item) : Prop := ∃ s, i.token = .step s

theorem isEof_iff {t : Token} : t.isEof = true ↔ t = .eof := by
  cases t <;> simp [Token.isEof]

/-- The end is no sign. -/
theorem unaryOp?_ne_eof {i : Item} {op : UnaryOp} (h : unaryOp? i.token = some op) :
    i.token ≠ .eof := by
  intro heof
  rw [heof] at h
  cases h

/-- The end is no operator. -/
theorem binaryOp?_ne_eof {level : Nat} {i : Item} {op : BinaryOp}
    (h : binaryOp? level i.token = some op) : i.token ≠ .eof := by
  intro heof
  rw [heof] at h
  cases h

/-! ## Rules -/

/-- The condition of a choice or of a loop. -/
def condition : Ebnf Nonterminal := delim .lparen ++ sub Nonterminal.expression ++ delim .rparen

/-- A choice. -/
def ifForm : Ebnf Nonterminal :=
  word .if ++ condition ++ sub Nonterminal.stmt ++ opt (word .else ++ sub Nonterminal.stmt)

/-- A counting loop. -/
def forForm : Ebnf Nonterminal :=
  word .for ++ delim .lparen ++ opt (sub Nonterminal.varSpec ||| sub Nonterminal.expression) ++
    delim .semi ++ opt (sub Nonterminal.expression) ++ delim .semi ++
    opt (sub Nonterminal.expression) ++ delim .rparen ++ sub Nonterminal.stmt

/-- A loop that tests first. -/
def whileForm : Ebnf Nonterminal := word .while ++ condition ++ sub Nonterminal.stmt

/-- A loop that tests last. -/
def doForm : Ebnf Nonterminal :=
  word .do ++ sub Nonterminal.stmt ++ word .while ++ condition ++ delim .semi

/-- The end of a loop or of one of its rounds. -/
def branchForm : Ebnf Nonterminal := (word .break ||| word .continue) ++ delim .semi

/-- The return from a function. -/
def returnForm : Ebnf Nonterminal := word .return ++ opt (sub Nonterminal.expression) ++ delim .semi

/-- The declaration of a variable. -/
def varForm : Ebnf Nonterminal := sub Nonterminal.varSpec ++ delim .semi

/-- An expression that is a statement. -/
def exprForm : Ebnf Nonterminal := sub Nonterminal.expression ++ delim .semi

/-- The definition of a function. -/
def funcForm : Ebnf Nonterminal :=
  item IsType ++ tok .name ++ delim .lparen ++ sub Nonterminal.params ++ sub Nonterminal.block

/-- The definition of a global variable. -/
def globalForm : Ebnf Nonterminal :=
  opt (sub Nonterminal.layout) ++ opt (word .uniform ||| word .in ||| word .out) ++ varForm

/-- What may stand behind a name: arguments or an index. -/
def application : Ebnf Nonterminal :=
  (delim .lparen ++ sub Nonterminal.args) |||
    (delim .lbrack ++ sub Nonterminal.expression ++ delim .rbrack)

/-- The right side for each symbol. -/
def rule : Nonterminal → Ebnf Nonterminal
  | .program =>
    opt (tok .version ++ tok (.number .int)) ++ many (sub Nonterminal.definition) ++ tok .eof
  | .definition => funcForm ||| globalForm
  | .params =>
    delim .rparen ||| (tok (.typeName .void) ++ delim .rparen) |||
      (list (sub Nonterminal.param) ++ delim .rparen)
  | .param => opt (word .in ||| word .out) ++ item IsType ++ tok .name
  | .layout => word .layout ++ delim .lparen ++ list (sub Nonterminal.layoutEntry) ++ delim .rparen
  | .layoutEntry => (word .location ||| word .binding) ++ tok (.assign none) ++ item IsSmall
  | .varSpec =>
    opt (word .const) ++ item IsType ++ tok .name ++
      opt (tok (.assign none) ++ sub Nonterminal.assignment)
  | .block => delim .lbrace ++ many (sub Nonterminal.stmt) ++ delim .rbrace
  | .stmt =>
    sub Nonterminal.block ||| delim .semi ||| ifForm ||| forForm ||| whileForm ||| doForm |||
      branchForm ||| returnForm ||| varForm ||| exprForm
  | .expression => list (sub Nonterminal.assignment)
  | .assignment => sub Nonterminal.conditional ++ opt (item IsAssign ++ sub Nonterminal.assignment)
  | .conditional =>
    sub (Nonterminal.binary topLevel) ++
      opt (tok .question ++ sub Nonterminal.expression ++ tok .colon ++ sub Nonterminal.assignment)
  | .binary 0 => sub Nonterminal.unary
  | .binary (k + 1) =>
    sub (Nonterminal.binary k) ++
      many (item (IsBinaryOp (topLevel - k)) ++ sub (Nonterminal.binary k))
  | .unary => (item IsUnaryOp ++ sub Nonterminal.unary) ||| sub Nonterminal.selection
  | .selection =>
    sub Nonterminal.primary ++ many (delim .dot ++ item IsSelector) ++ opt (item IsStep)
  | .primary =>
    (tok .name ++ opt application) ||| (item IsType ++ delim .lparen ++ sub Nonterminal.args) |||
      item IsNumber ||| word .true ||| word .false |||
      (delim .lparen ++ sub Nonterminal.expression ++ delim .rparen)
  | .args => delim .rparen ||| (list (sub Nonterminal.assignment) ++ delim .rparen)

/-! ## Words -/

/-- The items that a right side derives. -/
inductive Word : Ebnf Nonterminal → List Item → Prop
  /-- an item is of its kind -/
  | item {kind : Item → Prop} {i : Item} (h : kind i) : Word (.item kind) [i]
  /-- a symbol derives what its right side does -/
  | sub {symbol : Nonterminal} {w : List Item} (h : Word (rule symbol) w) : Word (.sub symbol) w
  /-- nothing -/
  | empty : Word .empty []
  /-- one after the other -/
  | seq {e e' : Ebnf Nonterminal} {u v : List Item} (h : Word e u) (h' : Word e' v) :
      Word (.seq e e') (u ++ v)
  /-- the first alternative -/
  | left {e e' : Ebnf Nonterminal} {w : List Item} (h : Word e w) : Word (.alt e e') w
  /-- the second alternative -/
  | right {e e' : Ebnf Nonterminal} {w : List Item} (h : Word e' w) : Word (.alt e e') w
  /-- not once -/
  | done {e : Ebnf Nonterminal} : Word (.many e) []
  /-- once, and then any number of times -/
  | more {e : Ebnf Nonterminal} {u v : List Item} (h : Word e u) (h' : Word (.many e) v) :
      Word (.many e) (u ++ v)

variable {e e' : Ebnf Nonterminal} {w : List Item}

/-- The words of a kind of items are the single items of this kind. -/
@[simp] theorem word_item {kind : Item → Prop} :
    Word (.item kind) w ↔ ∃ i, w = [i] ∧ kind i := by
  constructor
  · rintro ⟨h⟩
    exact ⟨_, rfl, h⟩
  · rintro ⟨i, rfl, h⟩
    exact .item h

@[simp] theorem word_tok {t : Token} : Word (tok t) w ↔ ∃ i, w = [i] ∧ i.token = t := word_item

@[simp] theorem word_delim {d : Delimiter} :
    Word (delim d) w ↔ ∃ i, w = [i] ∧ i.token = .delim d := word_item

@[simp] theorem word_word {k : Keyword} :
    Word (word k) w ↔ ∃ i, w = [i] ∧ i.token = .keyword k := word_item

/-- The words of a symbol are those of its rule. -/
theorem word_sub {symbol : Nonterminal} : Word (.sub symbol) w ↔ Word (rule symbol) w := by
  constructor
  · rintro ⟨⟩
    assumption
  · exact .sub

@[simp] theorem word_empty : Word .empty w ↔ w = [] := by
  constructor
  · rintro ⟨⟩
    rfl
  · rintro rfl
    exact .empty

/-- A word of two right sides in a row is cut somewhere. -/
@[simp] theorem word_append : Word (e ++ e') w ↔ ∃ u v, w = u ++ v ∧ Word e u ∧ Word e' v := by
  constructor
  · intro h
    cases h with
    | seq h h' => exact ⟨_, _, rfl, h, h'⟩
  · rintro ⟨u, v, rfl, h, h'⟩
    exact .seq h h'

@[simp] theorem word_or : Word (e ||| e') w ↔ Word e w ∨ Word e' w := by
  constructor
  · intro h
    cases h with
    | left h => exact .inl h
    | right h => exact .inr h
  · rintro (h | h)
    · exact .left h
    · exact .right h

@[simp] theorem word_opt : Word (opt e) w ↔ Word e w ∨ w = [] := by
  rw [opt, word_or, word_empty]

/-- A word of a repetition is empty or starts with one of what is repeated. -/
theorem word_many : Word (many e) w ↔ w = [] ∨ ∃ u v, w = u ++ v ∧ Word e u ∧ Word (many e) v := by
  constructor
  · intro h
    cases h with
    | done => exact .inl rfl
    | more h h' => exact .inr ⟨_, _, rfl, h, h'⟩
  · rintro (rfl | ⟨u, v, rfl, h, h'⟩)
    · exact .done
    · exact .more h h'

/-- An item in front. -/
theorem word_item_append {kind : Item → Prop} :
    Word (.item kind ++ e) w ↔ ∃ i v, w = i :: v ∧ kind i ∧ Word e v := by
  rw [word_append]
  constructor
  · rintro ⟨u, v, rfl, hu, hv⟩
    obtain ⟨i, rfl, hi⟩ := word_item.1 hu
    exact ⟨i, v, rfl, hi, hv⟩
  · rintro ⟨i, v, rfl, hi, hv⟩
    exact ⟨[i], v, rfl, .item hi, hv⟩

/-- A word that starts with a token. -/
theorem word_tok_append {t : Token} :
    Word (tok t ++ e) w ↔ ∃ i v, w = i :: v ∧ i.token = t ∧ Word e v := word_item_append

theorem word_delim_append {d : Delimiter} :
    Word (delim d ++ e) w ↔ ∃ i v, w = i :: v ∧ i.token = .delim d ∧ Word e v := word_item_append

theorem word_word_append {k : Keyword} :
    Word (word k ++ e) w ↔ ∃ i v, w = i :: v ∧ i.token = .keyword k ∧ Word e v := word_item_append

/-- It does not matter how right sides in a row are grouped. -/
theorem word_assoc {e₁ e₂ e₃ : Ebnf Nonterminal} :
    Word (e₁ ++ e₂ ++ e₃) w ↔ Word (e₁ ++ (e₂ ++ e₃)) w := by
  constructor
  · intro h
    obtain ⟨_, v, rfl, hu, hv⟩ := word_append.1 h
    obtain ⟨x, y, rfl, hx, hy⟩ := word_append.1 hu
    rw [List.append_assoc]
    exact .seq hx (.seq hy hv)
  · intro h
    obtain ⟨u, _, rfl, hu, hv⟩ := word_append.1 h
    obtain ⟨x, y, rfl, hx, hy⟩ := word_append.1 hv
    rw [← List.append_assoc]
    exact .seq (.seq hu hx) hy

/-- A list is an element, or an element, a comma and a list. -/
theorem word_list : Word (list e) w ↔ Word e w ∨
    ∃ u i v, w = u ++ i :: v ∧ Word e u ∧ i.token = .delim .comma ∧ Word (list e) v := by
  constructor
  · intro h
    obtain ⟨u, v, rfl, hu, hv⟩ := word_append.1 h
    rcases word_many.1 hv with rfl | ⟨x, y, rfl, hx, hy⟩
    · exact .inl (by rwa [List.append_nil])
    · obtain ⟨a, b, rfl, ha, hb⟩ := word_append.1 hx
      obtain ⟨i, rfl, hi⟩ := word_delim.1 ha
      exact .inr ⟨u, i, b ++ y, by simp, hu, hi, .seq hb hy⟩
  · rintro (h | ⟨u, i, v, rfl, hu, hi, hv⟩)
    · rw [← List.append_nil w]
      exact .seq h .done
    · obtain ⟨x, y, rfl, hx, hy⟩ := word_append.1 hv
      have hcomma : Word (delim .comma ++ e) (i :: x) :=
        .seq (u := [i]) (word_delim.2 ⟨i, rfl, hi⟩) hx
      exact .seq hu (.more hcomma hy)

/-! ## Symbols derive no empty word -/

/-- Right sides that derive no empty word if no symbol does. -/
def Ebnf.isSolid {σ : Type} : Ebnf σ → Bool
  | .item _ => true
  | .sub _ => true
  | .empty => false
  | .seq e e' => e.isSolid || e'.isSolid
  | .alt e e' => e.isSolid && e'.isSolid
  | .many _ => false

/-- No symbol has the empty word. -/
theorem isSolid_rule : ∀ symbol : Nonterminal, (rule symbol).isSolid = true
  | .binary 0 | .binary (_ + 1) => rfl
  | .program | .definition | .params | .param | .layout | .layoutEntry | .varSpec | .block | .stmt
  | .expression | .assignment | .conditional | .unary | .selection | .primary | .args => rfl

/-- Solid right sides have no empty word. -/
theorem word_ne_nil (h : Word e w) (he : e.isSolid = true) : w ≠ [] := by
  induction h with
  | item => exact List.cons_ne_nil _ _
  | sub _ ih => exact ih (isSolid_rule _)
  | empty => cases he
  | seq _ _ ih ih' =>
    rcases Bool.or_eq_true_iff.1 he with he | he
    · exact List.append_ne_nil_of_left_ne_nil (ih he) _
    · exact List.append_ne_nil_of_right_ne_nil _ (ih' he)
  | left _ ih => exact ih (Bool.and_eq_true_iff.1 he).1
  | right _ ih => exact ih (Bool.and_eq_true_iff.1 he).2
  | done => cases he
  | more => cases he

end Shader.Grammar
