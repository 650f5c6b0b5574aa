import Shader.Proofs.Grammar.Productions

/-!
# The bound of the productions

The number that a production takes bounds its depth and the length of its loops. It makes no
difference as long as it is above the number of items left: every way back into a production and
every round of a loop leads past an item. So each production does the same with all such numbers,
and the bound hides no run that would go on without it.

`Agree` compares two parsers where at most a number of items is left. The productions are compared
along their definitions, with a smaller number behind every item that has been read.
-/

namespace Shader

namespace Parser

variable {α β : Type} {k : Nat} {s : Parsing}

/-- Two parsers do the same. -/
def AgreeAt (s : Parsing) (p q : Parser α) : Prop := p s = q s

/-- Two parsers do the same where at most `k` items are left. -/
def Agree (k : Nat) (p q : Parser α) : Prop := ∀ s, s.Ready → s.left.length ≤ k → AgreeAt s p q

theorem Agree.refl (p : Parser α) : Agree k p p := fun _ _ _ => rfl

/-- Where fewer items are left, all the more. -/
theorem Agree.mono {p q : Parser α} {l : Nat} (h : Agree k p q) (hl : l ≤ k) : Agree l p q :=
  fun s hs hle => h s hs (hle.trans hl)

/-- At least one item is left. -/
theorem Agree.zero {p q : Parser α} : Agree 0 p q := by
  intro s hs hle
  obtain ⟨i, rest, hleft, -⟩ := hs.exists_cons
  rw [hleft] at hle
  exact absurd hle (Nat.not_succ_le_zero _)

section

variable {p q : Parser α} {f g : α → Parser β} {P : α → List Item → Prop}

/-- In front of one parser. -/
theorem Agree.bind_right (h : Agree k p q) : Agree k (p >>= f) (q >>= f) := by
  intro s hs hle
  rw [AgreeAt, bind_run, bind_run, h s hs hle]

/-- Behind a part that may read nothing. -/
theorem Agree.bind (hp : Part p P) (h : Agree k p q) (hf : ∀ x, Agree k (f x) (g x)) :
    Agree k (p >>= f) (q >>= g) := by
  intro s hs hle
  have hq : p s = q s := h s hs hle
  rw [AgreeAt]
  rcases hrun : p s with ⟨_ | x, s'⟩
  · rw [bind_none hrun, bind_none (hq ▸ hrun)]
  · rw [bind_some hrun, bind_some (hq ▸ hrun)]
    obtain ⟨hgoes, hyield⟩ := hp s hs _ _ hrun
    obtain ⟨w, hw, -⟩ := hyield x rfl
    refine hf x s' hgoes.ready ?_
    have := congrArg List.length hw
    rw [List.length_append] at this
    omega

/-- Behind a part that reads something. -/
theorem Agree.behind (hp : Part p P) (hP : ∀ x w, P x w → w ≠ []) (h : Agree (k + 1) p q)
    (hf : ∀ x, Agree k (f x) (g x)) : Agree (k + 1) (p >>= f) (q >>= g) := by
  intro s hs hle
  have hq : p s = q s := h s hs hle
  rw [AgreeAt]
  rcases hrun : p s with ⟨_ | x, s'⟩
  · rw [bind_none hrun, bind_none (hq ▸ hrun)]
  · rw [bind_some hrun, bind_some (hq ▸ hrun)]
    obtain ⟨hgoes, hyield⟩ := hp s hs _ _ hrun
    obtain ⟨w, hw, hPw⟩ := hyield x rfl
    refine hf x s' hgoes.ready ?_
    have := congrArg List.length hw
    have hpos := List.length_pos_iff.2 (hP x w hPw)
    rw [List.length_append] at this
    omega

/-- What is taken back on failure is the same. -/
theorem AgreeAt.orReset {m : Int} (h : AgreeAt s p q) : AgreeAt s (orReset m p) (orReset m q) := by
  rw [AgreeAt, orReset_run, orReset_run, h]

theorem Agree.orReset {m : Int} (h : Agree k p q) : Agree k (orReset m p) (orReset m q) :=
  fun s hs hle => (h s hs hle).orReset

/-- Alternatives that agree one by one. The second one starts where the first one did, since a
production that fails leaves the cursor where it was. -/
theorem Agree.orElse {p' q' : Parser α} (hp : Production p P) (h : Agree k p q)
    (h' : Agree k p' q') : Agree k (p <|> p') (q <|> q') := by
  intro s hs hle
  rw [AgreeAt, orElse_run, orElse_run, ← h s hs hle]
  rcases hrun : p s with ⟨_ | x, s'⟩
  · have hgoes := ((hp s hs).1 _ _ hrun).1
    refine h' s' hgoes.ready ?_
    rwa [hgoes.left_eq ((hp s hs).2 _ hrun)]
  · rfl

theorem AgreeAt.mark {f g : Int → Parser β}
    (h : AgreeAt s (f s.stream.cursor) (g s.stream.cursor)) :
    AgreeAt s (mark >>= f) (mark >>= g) := h

/-- Marks are the same in the same state. -/
theorem Agree.mark {f g : Int → Parser β} (h : ∀ m, Agree k (f m) (g m)) :
    Agree k (mark >>= f) (mark >>= g) := fun s hs hle => h _ s hs hle

end

/-! ## Items -/

section

variable {f g : Item → Parser β} {u v : Token → Parser β}

/-- A parser that depends on the item at the cursor, of which it may be used that it is there. -/
theorem Agree.current
    (h : ∀ s i rest, s.Ready → s.left = i :: rest → s.left.length ≤ k → AgreeAt s (f i) (g i)) :
    Agree k (current >>= f) (current >>= g) := by
  intro s hs hle
  obtain ⟨i, rest, hleft, -⟩ := hs.exists_cons
  rw [AgreeAt, current_bind hs hleft, current_bind hs hleft]
  exact h s i rest hs hleft hle

theorem Agree.token
    (h : ∀ s i rest, s.Ready → s.left = i :: rest → s.left.length ≤ k →
      AgreeAt s (u i.token) (v i.token)) :
    Agree k (token >>= u) (token >>= v) := by
  intro s hs hle
  obtain ⟨i, rest, hleft, -⟩ := hs.exists_cons
  rw [AgreeAt, token_bind hs hleft, token_bind hs hleft]
  exact h s i rest hs hleft hle

theorem Agree.pos {f g : Pos → Parser β} (h : ∀ pos, Agree k (f pos) (g pos)) :
    Agree k (pos >>= f) (pos >>= g) := by
  intro s hs hle
  obtain ⟨i, rest, hleft, -⟩ := hs.exists_cons
  rw [AgreeAt, pos_bind hs hleft, pos_bind hs hleft]
  exact h _ s hs hle

end

/-- Behind an item that is not the end of the text. -/
theorem Agree.advance {f g : Unit → Parser β} (h : Agree k (f ()) (g ())) {i : Item}
    {rest : List Item} (hs : s.Ready) (hleft : s.left = i :: rest) (hne : i.token ≠ .eof)
    (hle : s.left.length ≤ k + 1) : AgreeAt s (advance >>= f) (advance >>= g) := by
  obtain ⟨s', hrun, hgoes, hleft'⟩ := exists_advance hs hleft hne
  rw [AgreeAt, bind_some hrun, bind_some hrun]
  refine h s' hgoes.ready ?_
  rw [hleft, List.length_cons] at hle
  rw [hleft']
  omega

/-- What follows an optional token, with and without it. -/
theorem Agree.accepted {t : Token} {f g : Bool → Parser β} (hyes : Agree k (f true) (g true))
    (hno : Agree k (f false) (g false)) : Agree k (accept t >>= f) (accept t >>= g) := by
  intro s hs hle
  obtain ⟨i, rest, hleft, -⟩ := hs.exists_cons
  by_cases hi : i.token = t
  · rw [AgreeAt, accept_bind_pos hs hleft hi, accept_bind_pos hs hleft hi]
    exact Agree.bind part_advance (.refl _) (fun _ => hyes) s hs hle
  · rw [AgreeAt, accept_bind_neg hs hleft hi, accept_bind_neg hs hleft hi]
    exact hno s hs hle

theorem Agree.accept {t : Token} {yes yes' no no' : Parser β} (hyes : Agree k yes yes')
    (hno : Agree k no no') : Agree k (accept t >>= fun b => if b = true then yes else no)
      (accept t >>= fun b => if b = true then yes' else no') :=
  .accepted hyes hno

theorem Agree.expect {t : Token} {f g : Unit → Parser β} (h : Agree k (f ()) (g ())) :
    Agree k (expect t >>= f) (expect t >>= g) := by
  have hrun : ∀ (f : Unit → Parser β) (s : Parsing), (Parser.expect t >>= f) s =
      (Parser.accept t >>= fun b => if b = true then f () else fail) s := by
    intro f s
    rw [bind_run, bind_run, Parser.expect, bind_run]
    rcases Parser.accept t s with ⟨_ | _ | _, s'⟩ <;> rfl
  intro s hs hle
  rw [AgreeAt, hrun, hrun]
  exact Agree.accept h (.refl _) s hs hle

/-- Behind a token that has to be there. -/
theorem Agree.behind_expect {t : Token} {f g : Unit → Parser β} (ht : t ≠ .eof)
    (h : Agree k (f ()) (g ())) :
    Agree (k + 1) (Parser.expect t >>= f) (Parser.expect t >>= g) := by
  refine .behind (Production.expect ht).part (fun _ w hw => ?_) (.refl _) fun _ => h
  obtain ⟨i, rfl, -⟩ := hw
  exact List.cons_ne_nil _ _

end Parser

namespace Grammar

open Shader.Parser Ebnf

variable {k n m : Nat}

/-- Behind a production there is at least one item less, so what follows may be compared for a
smaller number. -/
theorem agree_behind {α β : Type} {p q : Parser α} {f g : α → Parser β} {e : Ebnf Nonterminal}
    {good : α → Prop} (hp : Production p fun x => Spells e (good x)) (he : e.isSolid = true)
    (h : Agree (k + 1) p q) (hf : ∀ x, Agree k (f x) (g x)) : Agree (k + 1) (p >>= f) (q >>= g) :=
  .behind hp.part (fun _ _ hw => word_ne_nil hw.word he) h hf

/-- Every round of a list reads an element, so the bound is not reached. -/
theorem agree_commaList {α : Type} {p q : Parser α} {P : α → List Item → Prop} (hp : Part p P)
    (hP : ∀ x w, P x w → w ≠ []) : ∀ {k n m : Nat}, Agree k p q → k ≤ n → k ≤ m →
    Agree k (commaList p n) (commaList q m)
  | 0, _, _, _, _, _ => .zero
  | k + 1, n + 1, m + 1, h, hn, hm => by
    refine .behind hp hP h fun x => .accept (.bind_right ?_) (.refl _)
    exact agree_commaList hp hP (h.mono (Nat.le_succ k)) (by omega) (by omega)

/-! ## Expressions -/

section Expressions

variable {a b : Parser Expr} (ha : Production a (Reads .assignment)) (h : Agree k a b) (hn : k ≤ n)
  (hm : k ≤ m)
include ha h hn hm

theorem agree_assignments : Agree k (commaList a n) (commaList b m) :=
  agree_commaList ha.part (fun _ _ hw => word_ne_nil hw.word rfl) h hn hm

/-- Lists of assignments, the first of which has to be there. -/
theorem agree_expressionOf : Agree k (expressionOf a n) (expressionOf b m) :=
  .mark fun _ => .bind ha.part h fun _ =>
    .orReset (.accept (.bind_right (agree_assignments ha h hn hm)) (.refl _))

theorem agree_argsOf : Agree k (argsOf a n) (argsOf b m) :=
  .mark fun _ => .accept (.refl _) (.orReset (.bind_right (agree_assignments ha h hn hm)))

/-- Arguments and indices stand behind a name, so they are compared for a smaller number. -/
theorem agree_named : Agree (k + 1) (named a n) (named b m) := by
  refine agree_behind production_name rfl (.refl _) fun x => .token fun s i rest hs hleft hle => ?_
  have hle := Nat.le_succ_of_le hle
  split
  next hi =>
    exact Agree.advance (.bind_right (agree_argsOf ha h hn hm)) hs hleft (hi ▸ nofun) hle
  next hi =>
    exact Agree.advance (.bind_right (agree_expressionOf ha h hn hm)) hs hleft (hi ▸ nofun) hle
  next => rfl

theorem agree_construction : Agree (k + 1) (construction a n) (construction b m) :=
  .pos fun _ => agree_behind production_typeName rfl (.refl _) fun _ =>
    .expect (.bind_right (agree_argsOf ha h hn hm))

theorem agree_enclosed : Agree (k + 1) (enclosed a n) (enclosed b m) :=
  .behind_expect (by nofun) (.bind_right (agree_expressionOf ha h hn hm))

/-- All forms of primary expressions lead back into assignments behind an item only. -/
theorem agree_primaryOf : Agree (k + 1) (primaryOf a n) (primaryOf b m) := by
  refine .mark fun _ => .current fun s i rest hs hleft hle => ?_
  split
  next => exact (agree_named ha h hn hm).orReset s hs hle
  next => exact (agree_construction ha h hn hm).orReset s hs hle
  next => rfl
  next => rfl
  next => rfl
  next => exact (agree_enclosed ha h hn hm).orReset s hs hle
  next => rfl

end Expressions

/-- Every selection reads a dot and a selector. -/
theorem agree_selections : ∀ {k n m : Nat} (x : Expr), k ≤ n → k ≤ m →
    Agree k (selections x n) (selections x m)
  | 0, _, _, _, _, _ => .zero
  | k + 1, n + 1, m + 1, x, hn, hm => by
    refine .token fun s i rest hs hleft hle => ?_
    split
    next => rfl
    next hi =>
      refine Agree.advance (.bind production_name.part (.refl _) fun sel => ?_) hs hleft
        (hi ▸ nofun) hle
      split
      next => exact agree_selections _ (by omega) (by omega)
      next => exact .refl _
    next => rfl

theorem agree_selectionOf {p q : Parser Expr} (hp : Production p (Reads .primary))
    (h : Agree (k + 1) p q) (hn : k ≤ n) (hm : k ≤ m) :
    Agree (k + 1) (selectionOf p n) (selectionOf q m) :=
  .mark fun _ => agree_behind hp rfl h fun x => (agree_selections x hn hm).orReset

/-- Every sign is an item. -/
theorem agree_unaryOf {p q : Parser Expr} : ∀ {k n m : Nat}, Agree k p q → k ≤ n → k ≤ m →
    Agree k (unaryOf p n) (unaryOf q m)
  | 0, _, _, _, _, _ => .zero
  | k + 1, n + 1, m + 1, h, hn, hm => by
    refine .current fun s i rest hs hleft hle => ?_
    split
    next op hi =>
      refine .mark (.orReset (Agree.advance (.bind_right ?_) hs hleft (unaryOp?_ne_eof hi) hle))
      exact agree_unaryOf (h.mono (Nat.le_succ k)) (by omega) (by omega)
    next => exact h s hs hle

/-- Every round of a chain reads an operator and its operand. -/
theorem agree_chain {p q : Parser Expr} {symbol : Nonterminal} {level : Nat}
    (hp : Production p (Reads symbol)) : ∀ {k n m : Nat} (x : Expr), Agree k p q → k ≤ n →
    k ≤ m → Agree k (chain level p x n) (chain level q x m)
  | 0, _, _, _, _, _, _ => .zero
  | k + 1, n + 1, m + 1, x, h, hn, hm => by
    refine .token fun s i rest hs hleft hle => ?_
    split
    next op hi =>
      refine Agree.advance ?_ hs hleft (binaryOp?_ne_eof hi) hle
      have h : Agree k p q := h.mono (Nat.le_succ k)
      refine .bind hp.part h fun y => ?_
      exact agree_chain hp _ h (by omega) (by omega)
    next => rfl

/-- The number of the levels is the same for both, as it is no bound. -/
theorem agree_binaryOf {p q : Parser Expr} (hp : Production p (Reads .unary))
    (h : Agree (k + 1) p q) (hn : k ≤ n) (hm : k ≤ m) :
    ∀ levels, Agree (k + 1) (binaryOf p n levels) (binaryOf q m levels)
  | 0 => h
  | levels + 1 => by
    have ih := agree_binaryOf hp h hn hm levels
    have hoperand := production_binaryOf hp n levels
    refine .mark fun _ => agree_behind hoperand rfl ih fun x => .orReset ?_
    exact agree_chain hoperand x (ih.mono (Nat.le_succ k)) hn hm

/-- The branches stand behind the condition. -/
theorem agree_conditionalOf {p q a b : Parser Expr} (hp : Production p (Reads (.binary topLevel)))
    (ha : Production a (Reads .assignment)) (hpq : Agree (k + 1) p q) (h : Agree k a b)
    (hn : k ≤ n) (hm : k ≤ m) : Agree (k + 1) (conditionalOf p a n) (conditionalOf q b m) := by
  refine .mark fun _ => agree_behind hp rfl hpq fun c => .orReset (.accept ?_ (.refl _))
  refine .bind (production_expressionOf ha n).part (agree_expressionOf ha h hn hm) fun x => ?_
  exact .expect (.bind_right h)

/-- The bound of assignments makes no difference above the number of items left. The induction is on
that number, for both bounds at once. -/
theorem agree_assignment : ∀ {k n m : Nat}, k < n → k < m → Agree k (assignment n) (assignment m)
  | 0, _, _, _, _ => .zero
  | k + 1, n + 1, m + 1, hn, hm => by
    have ih : Agree k (assignment n) (assignment m) := agree_assignment (by omega) (by omega)
    have ha := production_assignment n
    have hk : k ≤ n ∧ k ≤ m := by omega
    have hunary : Agree (k + 1) (unaryWith (assignment n) n) (unaryWith (assignment m) m) :=
      agree_unaryOf (agree_selectionOf (production_primaryOf ha n)
        (agree_primaryOf ha ih hk.1 hk.2) hk.1 hk.2) (by omega) (by omega)
    have hbinary := agree_binaryOf (production_unaryWith ha n) hunary hk.1 hk.2 topLevel
    have hproduction := production_binaryOf (production_unaryWith ha n) n topLevel
    refine .mark fun _ => agree_behind (production_conditionalOf ha n hproduction) rfl
      (agree_conditionalOf hproduction ha hbinary ih hk.1 hk.2) fun x => .orReset ?_
    refine .token fun s i rest hs hleft hle => ?_
    split
    next hi => exact Agree.advance (.bind_right ih) hs hleft (hi ▸ nofun) (Nat.le_succ_of_le hle)
    next => rfl

section

variable (hn : k < n) (hm : k < m)
include hn hm

theorem agree_expression : Agree k (expression n) (expression m) :=
  agree_expressionOf (production_assignment n) (agree_assignment hn hm) hn.le hm.le

theorem agree_args : Agree k (args n) (args m) :=
  agree_argsOf (production_assignment n) (agree_assignment hn hm) hn.le hm.le

theorem agree_primary : Agree k (primary n) (primary m) :=
  (agree_primaryOf (production_assignment n) (agree_assignment hn hm) hn.le hm.le).mono
    (Nat.le_succ k)

theorem agree_selection : Agree k (selection n) (selection m) :=
  (agree_selectionOf (production_primary n) (agree_primaryOf (production_assignment n)
    (agree_assignment hn hm) hn.le hm.le) hn.le hm.le).mono (Nat.le_succ k)

theorem agree_unary : Agree k (unary n) (unary m) :=
  agree_unaryOf (agree_selection hn hm) hn.le hm.le

theorem agree_binary (levels : Nat) : Agree k (binary n levels) (binary m levels) := by
  rcases k with _ | k
  · exact .zero
  · exact agree_binaryOf (production_unary n) (agree_unary hn hm) (by omega) (by omega) levels

theorem agree_conditional : Agree k (conditional n) (conditional m) := by
  rcases k with _ | k
  · exact .zero
  · exact agree_conditionalOf (production_binary n topLevel) (production_assignment n)
      (agree_binary hn hm topLevel) ((agree_assignment hn hm).mono (Nat.le_succ k)) (by omega)
      (by omega)

/-! ## Statements -/

/-- The value of a declaration is compared like any assignment, wherever it stands. -/
theorem agree_varSpec : Agree k (varSpec n) (varSpec m) := by
  have hinit := agree_assignment hn hm
  refine .mark fun _ => .pos fun _ => .orReset (.accepted ?_ ?_)
  all_goals
    refine .bind production_typeName.part (.refl _) fun _ => ?_
    refine .bind production_name.part (.refl _) fun _ => ?_
    exact .accept (.bind_right hinit) (.refl _)

theorem agree_varDecl : Agree k (varDecl n) (varDecl m) :=
  .mark fun _ => .bind_right (agree_varSpec hn hm)

theorem agree_test : Agree k (test n) (test m) :=
  .expect (.bind_right (agree_expression hn hm))

/-- A clause of a loop is an expression or nothing. -/
theorem agree_optional (t : Token) : Agree k (optional n t) (optional m t) := by
  refine .token fun s i rest hs hleft hle => ?_
  split
  · rfl
  · exact (agree_expression hn hm).bind_right s hs hle

theorem agree_exprStmt : Agree k (exprStmt n) (exprStmt m) :=
  .mark fun _ => .bind_right (agree_expression hn hm)

theorem agree_returnStmt : Agree k (returnStmt n) (returnStmt m) :=
  .mark fun _ => .pos fun _ => .expect
    (.orReset (.accept (.refl _) (.bind_right (agree_expression hn hm))))

theorem agree_forInit : Agree k (forInit n) (forInit m) := by
  refine .token fun s i rest hs hleft hle => ?_
  split
  · rfl
  · exact Agree.orElse (production_varSpec n).mapped (agree_varSpec hn hm).bind_right
      (agree_expression hn hm).bind_right s hs hle

theorem agree_simpleStmt : Agree k (simpleStmt n) (simpleStmt m) :=
  .orElse (production_varDecl n).mapped (agree_varDecl hn hm).bind_right (agree_exprStmt hn hm)

end

/-- Every statement reads an item. -/
theorem agree_stmtsOf {p q : Parser Stmt}
    (hp : Production p fun x => Spells (.sub .stmt) x.Placed) :
    ∀ {k n m : Nat}, Agree k p q → k ≤ n → k ≤ m → Agree k (stmtsOf p n) (stmtsOf q m)
  | 0, _, _, _, _, _ => .zero
  | k + 1, n + 1, m + 1, h, hn, hm => by
    refine .accept (.refl _) (agree_behind hp rfl h fun _ => .bind_right ?_)
    exact agree_stmtsOf hp (h.mono (Nat.le_succ k)) (by omega) (by omega)

section Statements

variable {p q : Parser Stmt} (hp : Production p fun x => Spells (.sub .stmt) x.Placed)
  (h : Agree k p q) (hn : k < n) (hm : k < m)
include hp h hn hm

/-- The statements of a block stand behind its brace. -/
theorem agree_blockOf : Agree (k + 1) (blockOf p n) (blockOf q m) :=
  .mark fun _ => .pos fun _ => .behind_expect (by nofun)
    (.orReset (.bind_right (agree_stmtsOf hp h hn.le hm.le)))

/-- Both branches stand behind the condition. -/
theorem agree_ifStmtOf : Agree (k + 1) (ifStmtOf p n) (ifStmtOf q m) :=
  .mark fun _ => .pos fun _ => .orReset <| .behind_expect (by nofun) <|
    .bind (part_test n) (agree_test hn hm) fun _ => .bind hp.part h fun _ =>
      .accept (.bind_right h) (.refl _)

omit hp in
/-- The body of a loop stands behind its header. -/
theorem agree_forStmtOf : Agree (k + 1) (forStmtOf p n) (forStmtOf q m) :=
  .mark fun _ => .pos fun _ => .orReset <| .behind_expect (by nofun) <| .expect <|
    .bind (part_forInit n) (agree_forInit hn hm) fun _ => .expect <|
    .bind (part_optional n _) (agree_optional hn hm _) fun _ => .expect <|
    .bind (part_optional n _) (agree_optional hn hm _) fun _ => .expect (.bind_right h)

omit hp in
theorem agree_whileStmtOf : Agree (k + 1) (whileStmtOf p n) (whileStmtOf q m) :=
  .mark fun _ => .pos fun _ => .orReset <| .behind_expect (by nofun) <|
    .bind (part_test n) (agree_test hn hm) fun _ => .bind_right h

/-- The body of a loop stands behind its keyword. -/
theorem agree_doStmtOf : Agree (k + 1) (doStmtOf p n) (doStmtOf q m) :=
  .mark fun _ => .pos fun _ => .behind_expect (by nofun) <| .orReset <| .bind hp.part h fun _ =>
    .expect (.bind_right (agree_test hn hm))

end Statements

/-- The expressions of a statement have the bound of its parts, so a statement needs one more. -/
theorem agree_stmt : ∀ {k n m : Nat}, k + 1 < n → k + 1 < m → Agree k (stmt n) (stmt m)
  | 0, _, _, _, _ => .zero
  | k + 1, n + 1, m + 1, hn, hm => by
    have ih : Agree k (stmt n) (stmt m) := agree_stmt (by omega) (by omega)
    have hp := production_stmt n
    have hk : k < n ∧ k < m := by omega
    refine .current fun s i rest hs hleft hle => ?_
    split
    next => exact (agree_blockOf hp ih hk.1 hk.2).bind_right s hs hle
    next => rfl
    next => exact agree_ifStmtOf hp ih hk.1 hk.2 s hs hle
    next => exact agree_forStmtOf ih hk.1 hk.2 s hs hle
    next => exact agree_whileStmtOf ih hk.1 hk.2 s hs hle
    next => exact agree_doStmtOf hp ih hk.1 hk.2 s hs hle
    next => rfl
    next => rfl
    next => exact agree_returnStmt (by omega) (by omega) s hs hle
    next => exact agree_simpleStmt (by omega) (by omega) s hs hle

section

variable (hn : k + 1 < n) (hm : k + 1 < m)
include hn hm

theorem agree_block : Agree k (block n) (block m) :=
  (agree_blockOf (production_stmt n) (agree_stmt hn hm) (by omega) (by omega)).mono (Nat.le_succ k)

theorem agree_ifStmt : Agree k (ifStmt n) (ifStmt m) :=
  (agree_ifStmtOf (production_stmt n) (agree_stmt hn hm) (by omega) (by omega)).mono (Nat.le_succ k)

theorem agree_forStmt : Agree k (forStmt n) (forStmt m) :=
  (agree_forStmtOf (agree_stmt hn hm) (by omega) (by omega)).mono
    (Nat.le_succ k)

theorem agree_whileStmt : Agree k (whileStmt n) (whileStmt m) :=
  (agree_whileStmtOf (agree_stmt hn hm) (by omega) (by omega)).mono
    (Nat.le_succ k)

theorem agree_doStmt : Agree k (doStmt n) (doStmt m) :=
  (agree_doStmtOf (production_stmt n) (agree_stmt hn hm) (by omega) (by omega)).mono (Nat.le_succ k)

/-! ## Definitions -/

/-- Identifiers take no bound, so only their list is compared. -/
theorem agree_layout : Agree k (layout n) (layout m) := by
  refine .mark fun _ => .orReset (.expect (.expect (.bind_right ?_)))
  exact agree_commaList part_layoutEntry (fun _ _ hw => word_ne_nil hw.word rfl) (.refl _)
    (by omega) (by omega)

/-- Parameters take no bound, so only their list is compared. -/
theorem agree_paramList : Agree k (paramList n) (paramList m) := by
  have hlist : Agree k (commaList param n) (commaList param m) :=
    agree_commaList production_param.part (fun _ _ hw => word_ne_nil hw.word rfl) (.refl _)
      (by omega) (by omega)
  refine .mark fun _ => .accept (.refl _) (.token fun s i rest hs hleft hle => ?_)
  obtain ⟨j, hpeek⟩ : ∃ j, peek 1 s = (some j, s) := by
    rcases rest with _ | ⟨j, rest⟩
    · exact ⟨i, peek_one_last hs hleft⟩
    · exact ⟨j, peek_one_run hs hleft⟩
  rw [AgreeAt, bind_some hpeek, bind_some hpeek]
  by_cases hvoid : i.token = .typeName .void ∧ j.token = .delim .rparen
  · rw [if_pos hvoid, if_pos hvoid]
  · rw [if_neg hvoid, if_neg hvoid]
    exact hlist.bind_right.orReset s hs hle

theorem agree_funcDecl : Agree k (funcDecl n) (funcDecl m) :=
  .mark fun _ => .pos fun _ => .bind production_typeName.part (.refl _) fun _ => .orReset <|
    .bind production_name.part (.refl _) fun _ => .expect <|
    .bind (production_paramList n).part (agree_paramList hn hm) fun _ =>
      .bind_right (agree_block hn hm)

theorem agree_globalVar : Agree k (globalVar n) (globalVar m) := by
  have hvar : Agree k (varDecl n) (varDecl m) := agree_varDecl (by omega) (by omega)
  refine .mark fun _ => .pos fun _ => .orReset (.token fun s i rest hs hleft hle => ?_)
  dsimp only
  split
  · refine Agree.bind (production_layout n).part (agree_layout hn hm) (fun _ => ?_) s hs hle
    exact .bind part_storage (.refl _) fun _ => .bind_right hvar
  · exact Agree.bind part_storage (.refl _) (fun _ => .bind_right hvar) s hs hle

/-- The bound of definitions makes no difference above the number of items left. -/
theorem agree_definition : Agree k (definition n) (definition m) :=
  .orElse (production_funcDecl n).mapped (agree_funcDecl hn hm).bind_right
    (agree_globalVar hn hm).bind_right

end

end Grammar

end Shader
