import Shader.Proofs.Grammar.Acceptance

/-!
# Parsing accepts exactly the words of the grammar

The productions of statements and definitions read all their words, as those of expressions do, and
so a parse succeeds on every word of the grammar. That it succeeds on nothing else is known from
what the productions read.

Of the two ways to read a choice behind a choice, the one with the alternative inside is taken.
`Settles` says this of the statements in a word: a statement that can go on with an alternative
leaves none to the one around it, and the word that it goes on to is one as well.
-/

namespace Shader

namespace Grammar

open Shader.Parser Ebnf

variable {k n : Nat} {w rest : List Item}

/-! ## Statements -/

/-- A declaration takes all of its words in front of what does not go on with its value. -/
theorem takes_varSpec (hw : Word (.sub .varSpec) w) (hlen : w.length < n) (hrest : Behind 2 rest) :
    Takes (varSpec n) (w ++ rest) rest := by
  have hword := word_sub.1 hw
  simp only [rule, word_assoc] at hword
  obtain ⟨q, v, rfl, hq, hv⟩ := word_append.1 hword
  obtain ⟨i, v, rfl, hi, hv⟩ := word_item_append.1 hv
  obtain ⟨j, v, rfl, hj, hv⟩ := word_tok_append.1 hv
  simp only [List.length_append, List.length_cons] at hlen
  -- what follows the qualifier, which may not be there
  have hinit : ∀ (pos : Pos) (isConst : Bool), Takes (do
      let type ← typeName
      let name ← name
      if ← accept (.assign none) then
        let init ← assignment n
        return ({ pos, isConst, type, name, init := some init } : VarDecl)
      else return { pos, isConst, type, name, init := none }) (i :: j :: (v ++ rest)) rest := by
    obtain ⟨d, hd⟩ := hi
    refine fun pos isConst => .typeName hd (.name hj ?_)
    rcases word_opt.1 hv with hv | rfl
    · obtain ⟨l, v, rfl, hl, hv⟩ := word_tok_append.1 hv
      rw [List.length_cons] at hlen
      exact .accept hl ((takes_assignment hv (by omega) hrest).bind fun _ => .pure) (by decide)
    · exact .refuse (hrest.ne (by decide)) .pure
  refine .mark fun _ => .pos fun pos => .orReset ?_
  rcases word_opt.1 hq with hq | rfl
  · obtain ⟨c, rfl, hc⟩ := word_word.1 hq
    exact .accepted hc (hinit pos true) (by decide)
  · refine .refused ?_ (hinit pos false)
    rintro _ ⟨⟩ hconst
    obtain ⟨d, hd⟩ := hi
    cases hd.symm.trans hconst

/-- The semicolon ends a declaration, so it does not matter what follows. -/
theorem takes_varDecl (hw : Word varForm w) (hlen : w.length ≤ n) :
    Takes (varDecl n) (w ++ rest) rest := by
  obtain ⟨u, v, rfl, hu, hv⟩ := word_append.1 hw
  obtain ⟨i, rfl, hi⟩ := word_delim.1 hv
  rw [List.length_append, List.length_singleton] at hlen
  rw [List.append_assoc]
  refine .mark fun _ => ?_
  refine (takes_varSpec hu (by omega) (behind_cons hi (by decide))).bind fun d => ?_
  exact .orReset (.expect hi .pure (by decide))

theorem takes_test (hw : Word condition w) (hlen : w.length < n) :
    Takes (test n) (w ++ rest) rest := by
  obtain ⟨i, v, rfl, hi, hv⟩ := word_delim_append.1 (word_assoc.1 hw)
  obtain ⟨e, v, rfl, he, hv⟩ := word_append.1 hv
  obtain ⟨j, rfl, hj⟩ := word_delim.1 hv
  rw [List.length_cons, List.length_append] at hlen
  rw [List.cons_append, List.append_assoc]
  refine .expect hi ?_ (by decide)
  refine (takes_expression he (by omega) (behind_cons hj (by decide))).bind fun c => ?_
  exact .expect hj .pure (by decide)

/-- An optional expression in front of the token that ends it. -/
theorem takes_optional {i : Item} {d : Delimiter} (hi : i.token = .delim d)
    (hd : (Token.delim d).opensOperand = false) (hgrip : (Token.delim d).grip < 1)
    (hw : Word (opt (.sub .expression)) w) (hlen : w.length < n) :
    Takes (optional n (.delim d)) (w ++ i :: rest) (i :: rest) := by
  rcases word_opt.1 hw with hw | rfl
  · have hne := Opens.ne (v := i :: rest) (opens_expression hw) hd
    refine .token fun j L' hL => ?_
    rw [if_neg (hne j (by rw [hL]; rfl))]
    exact (takes_expression hw hlen (behind_cons hi hgrip)).bind fun _ => .pure
  · refine .token_cons ?_
    rw [if_pos hi]
    exact .pure

theorem takes_exprStmt (hw : Word exprForm w) (hlen : w.length ≤ n) :
    Takes (exprStmt n) (w ++ rest) rest := by
  obtain ⟨u, v, rfl, hu, hv⟩ := word_append.1 hw
  obtain ⟨i, rfl, hi⟩ := word_delim.1 hv
  rw [List.length_append, List.length_singleton] at hlen
  rw [List.append_assoc]
  refine .mark fun _ => ?_
  refine (takes_expression hu (by omega) (behind_cons hi (by decide))).bind fun d => ?_
  exact .orReset (.expect hi .pure (by decide))

theorem takes_returnStmt (hw : Word returnForm w) (hlen : w.length ≤ n) :
    Takes (returnStmt n) (w ++ rest) rest := by
  obtain ⟨i, v, rfl, hi, hv⟩ := word_word_append.1 (word_assoc.1 hw)
  obtain ⟨e, v, rfl, he, hv⟩ := word_append.1 hv
  obtain ⟨j, rfl, hj⟩ := word_delim.1 hv
  rw [List.length_cons, List.length_append] at hlen
  rw [List.cons_append, List.append_assoc]
  refine .mark fun _ => .pos fun _ => .expect hi (.orReset ?_) (by decide)
  rcases word_opt.1 he with he | rfl
  · refine .refuse ((opens_expression he).ne rfl) ?_
    refine (takes_expression he (by omega) (behind_cons hj (by decide))).bind fun x => ?_
    exact .expect hj .pure (by decide)
  · exact .accept hj .pure (by decide)

/-- A branch is an item and a semicolon. -/
theorem takes_branchStmt {i j : Item} (hi : i.token ≠ .eof) (hj : j.token = .delim .semi) :
    Takes branchStmt (i :: j :: rest) rest :=
  .mark fun _ => .current_cons (.orReset (.advance hi (.expect hj .pure (by decide))))

/-- A declaration is tried first, and refuses what starts like an operand. -/
theorem takes_forInit {i : Item} (hi : i.token = .delim .semi)
    (hw : Word (opt (.sub .varSpec ||| .sub .expression)) w) (hlen : w.length < n) :
    Takes (forInit n) (w ++ i :: rest) (i :: rest) := by
  have hvar : Production (do let d ← varSpec n; return ForInit.var d) fun _ u =>
      Word (.sub .varSpec) u := fun s hs => (production_varSpec n s hs).map fun _ _ h => h.word
  rcases word_opt.1 hw with hw | rfl
  · rcases word_or.1 hw with hw | hw
    · refine .token fun j L' hL => ?_
      have hne : j.token ≠ .delim .semi := by
        rcases varSpec_head hw with ⟨l, v, rfl, hl⟩ | ⟨l, m, v, rfl, ⟨d, hl⟩, -⟩
        · obtain ⟨rfl, -⟩ := List.cons.inj hL
          exact hl ▸ by decide
        · obtain ⟨rfl, -⟩ := List.cons.inj hL
          exact hl ▸ by simp
      rw [if_neg hne]
      refine .orElse_left ((takes_varSpec hw hlen (behind_cons hi (by decide))).bind fun _ => .pure)
    · refine .token fun j L' hL => ?_
      rw [if_neg (Opens.ne (v := i :: rest) (opens_expression hw) rfl j (by rw [hL]; rfl))]
      refine .orElse_right hvar (fun _ u v heq hu => ?_) ?_
      · exact varSpec_not_opens hu (opens_expression hw) heq
      · exact (takes_expression hw hlen (behind_cons hi (by decide))).bind fun _ => .pure
  · refine .token_cons ?_
    rw [if_pos hi]
    exact .pure

/-! Forms of statements that end with a statement. -/

/-- A statement with two branches, put together from its parts. -/
theorem word_stmt_ifElse {i j : Item} {c x y : List Item} (hi : i.token = .keyword .if)
    (hc : Word condition c) (hx : Word (.sub .stmt) x) (hj : j.token = .keyword .else)
    (hy : Word (.sub .stmt) y) : Word (.sub .stmt) (i :: (c ++ (x ++ j :: y))) := by
  have helse : Word (opt (word .else ++ sub .stmt)) (j :: y) :=
    .left (word_word_append.2 ⟨j, y, rfl, hj, hy⟩)
  have hform : Word ifForm (i :: (c ++ (x ++ j :: y))) := by
    simp only [ifForm, word_assoc]
    exact word_word_append.2 ⟨i, _, rfl, hi, .seq hc (.seq hx helse)⟩
  exact .sub (.left (.left (.left (.left (.left (.left (.left (.right hform))))))))

theorem word_stmt_for (h : Word forForm w) : Word (.sub .stmt) w :=
  .sub (.left (.left (.left (.left (.left (.left (.right h)))))))

theorem word_stmt_while (h : Word whileForm w) : Word (.sub .stmt) w :=
  .sub (.left (.left (.left (.left (.left (.right h))))))

/-- No alternative follows. -/
def NoElse (rest : List Item) : Prop := ∀ i ∈ rest.head?, i.token ≠ .keyword .else

theorem noElse_cons {i : Item} {t : Token} (hi : i.token = t) (ht : t ≠ .keyword .else) :
    NoElse (i :: rest) := by
  rintro _ ⟨⟩
  rwa [hi]

/-- No statement starts with `else`. -/
theorem noElse_stmt {v : List Item} (h : Word (.sub .stmt) v) : NoElse (v ++ rest) := by
  obtain ⟨i, v, rfl, hi⟩ := stmt_head h
  rintro _ ⟨⟩ helse
  exact absurd (helse ▸ hi) (by decide)

/-- How a statement is read: whole, unless an alternative follows; and then either the alternative
is none of its business, or the statement goes on with it. -/
structure Settles (p : Parser Stmt) (w : List Item) : Prop where
  /-- it is read where no alternative follows -/
  takes : ∀ rest, NoElse rest → Takes p (w ++ rest) rest
  /-- it is read where one follows, or the alternative is its own -/
  alternative : (∀ rest, Takes p (w ++ rest) rest) ∨
    ∀ i v, i.token = .keyword .else → Word (.sub .stmt) v → Word (.sub .stmt) (w ++ i :: v)

/-- What takes a word in front of anything takes it in front of what is no `else`. -/
theorem Settles.of_takes {p : Parser Stmt} (h : ∀ rest, Takes p (w ++ rest) rest) : Settles p w :=
  ⟨fun rest _ => h rest, .inl h⟩

/-- A statement whose last part is a statement settles as that part does. -/
theorem Settles.behind {p q : Parser Stmt} {u x : List Item}
    (hq : ∀ rest, Takes p (x ++ rest) rest → Takes q (u ++ (x ++ rest)) rest)
    (hword : ∀ v, Word (.sub .stmt) v → Word (.sub .stmt) (u ++ v)) (hx : Settles p x) :
    Settles q (u ++ x) where
  takes rest hrest := by
    rw [List.append_assoc]
    exact hq rest (hx.takes rest hrest)
  alternative := by
    refine hx.alternative.imp (fun h rest => ?_) fun h i v hi hv => ?_
    · rw [List.append_assoc]
      exact hq rest (h rest)
    · rw [List.append_assoc]
      exact hword _ (h i v hi hv)

/-- A statement that its first item selects. -/
theorem Settles.current {q : Parser Stmt} {f : Item → Parser Stmt} {i : Item} {v : List Item}
    (h : Settles q (i :: v)) (hf : f i = q) : Settles (Parser.current >>= f) (i :: v) where
  takes rest hrest := .current_cons (hf ▸ h.takes rest hrest)
  alternative := h.alternative.imp_left fun h rest => .current_cons (hf ▸ h rest)

section Statements

variable {p : Parser Stmt} (hp : ∀ w, Word (.sub .stmt) w → w.length < n → Settles p w)
include hp

/-- Statements are settled one by one, since none of them is followed by `else`. -/
theorem takes_stmtsOf : ∀ {m : Nat} {w rest : List Item},
    Word (many (.sub .stmt) ++ delim .rbrace) w → w.length ≤ n → w.length ≤ m →
    Takes (stmtsOf p m) (w ++ rest) rest
  | 0, w, _, hw, _, hm => by
    have hne : w ≠ [] := word_ne_nil hw rfl
    exact absurd (List.length_eq_zero_iff.1 (Nat.le_zero.1 hm)) hne
  | m + 1, w, rest, hw, hn, hm => by
    obtain ⟨u, v, rfl, hu, hv⟩ := word_append.1 hw
    obtain ⟨i, rfl, hi⟩ := word_delim.1 hv
    rcases word_many.1 hu with rfl | ⟨x, y, rfl, hx, hy⟩
    · exact .accept hi .pure (by decide)
    · have hpos := List.length_pos_iff.2 (word_ne_nil hx rfl)
      simp only [List.length_append, List.length_singleton] at hn hm
      have hrest : Word (many (.sub .stmt) ++ delim .rbrace) (y ++ [i]) := .seq hy (.item hi)
      have hnoElse : NoElse (y ++ [i] ++ rest) := by
        rcases word_many.1 hy with rfl | ⟨a, b, rfl, ha, -⟩
        · exact noElse_cons hi (by decide)
        · rw [List.append_assoc, List.append_assoc]
          exact noElse_stmt ha
      rw [List.append_assoc, List.append_assoc, ← List.append_assoc y]
      refine .refuse ?_ (((hp x hx (by omega)).takes _ hnoElse).bind fun _ => ?_)
      · obtain ⟨j, x, rfl, hj⟩ := stmt_head hx
        rintro _ ⟨⟩ hbrace
        exact absurd (hbrace ▸ hj) (by decide)
      · refine (takes_stmtsOf hrest ?_ ?_).bind fun _ => .pure
        · rw [List.length_append, List.length_singleton]
          omega
        · rw [List.length_append, List.length_singleton]
          omega

theorem takes_blockOf (hw : Word (.sub .block) w) (hlen : w.length ≤ n) :
    Takes (blockOf p n) (w ++ rest) rest := by
  obtain ⟨i, v, rfl, hi, hv⟩ := word_delim_append.1 (word_assoc.1 (word_sub.1 hw))
  rw [List.length_cons] at hlen
  refine .mark fun _ => .pos fun _ => .expect hi (.orReset ?_) (by decide)
  exact (takes_stmtsOf hp hv (by omega) (by omega)).bind fun _ => .pure


/-- A statement without a second branch takes its word where no `else` follows, which it would take
as its own. -/
theorem settles_ifThen {i : Item} {c x : List Item} (hi : i.token = .keyword .if)
    (hc : Word condition c) (hx : Word (.sub .stmt) x) (hlen : (i :: (c ++ x)).length ≤ n) :
    Settles (ifStmtOf p n) (i :: (c ++ x)) := by
  rw [List.length_cons, List.length_append] at hlen
  refine ⟨fun rest hrest => ?_, .inr fun j v hj hv => ?_⟩
  · rw [List.cons_append, List.append_assoc]
    refine .mark fun _ => .pos fun _ => .orReset (.expect hi ?_ (by decide))
    refine (takes_test hc (by omega)).bind fun _ => ?_
    exact ((hp x hx (by omega)).takes rest hrest).bind fun _ => .refuse hrest .pure
  · rw [List.cons_append, List.append_assoc]
    exact word_stmt_ifElse hi hc hx hj hv

/-- A choice with an alternative is a choice whose first part ends with it, if the first part can
go on. -/
theorem settles_if (hw : Word ifForm w) (hlen : w.length ≤ n) : Settles (ifStmtOf p n) w := by
  simp only [ifForm, word_assoc] at hw
  obtain ⟨i, w, rfl, hi, hw⟩ := word_word_append.1 hw
  obtain ⟨c, w, rfl, hc, hw⟩ := word_append.1 hw
  obtain ⟨x, w, rfl, hx, hw⟩ := word_append.1 hw
  rcases word_opt.1 hw with hw | rfl
  · obtain ⟨j, y, rfl, hj, hy⟩ := word_word_append.1 hw
    simp only [List.length_cons, List.length_append] at hlen
    rcases (hp x hx (by omega)).alternative with hclosed | hopen
    · have hhead : i :: (c ++ (x ++ j :: y)) = i :: (c ++ x ++ [j]) ++ y := by simp
      rw [hhead]
      refine .behind (fun rest hrest => ?_) (fun v hv => ?_) (hp y hy (by omega))
      · simp only [List.cons_append, List.append_assoc, List.nil_append]
        refine .mark fun _ => .pos fun _ => .orReset (.expect hi ?_ (by decide))
        refine (takes_test hc (by omega)).bind fun _ => (hclosed _).bind fun _ => ?_
        exact .accept hj (hrest.bind fun _ => .pure) (by decide)
      · simp only [List.cons_append, List.append_assoc, List.nil_append]
        exact word_stmt_ifElse hi hc hx hj hv
    · refine settles_ifThen hp hi hc (hopen j y hj hy) ?_
      simp only [List.length_cons, List.length_append]
      omega
  · rw [List.append_nil] at hlen ⊢
    exact settles_ifThen hp hi hc hx hlen

theorem settles_while (hw : Word whileForm w) (hlen : w.length ≤ n) :
    Settles (whileStmtOf p n) w := by
  simp only [whileForm, word_assoc] at hw
  obtain ⟨i, w, rfl, hi, hw⟩ := word_word_append.1 hw
  obtain ⟨c, x, rfl, hc, hx⟩ := word_append.1 hw
  rw [List.length_cons, List.length_append] at hlen
  refine .behind (u := i :: c) (fun rest hrest => ?_) (fun v hv => ?_) (hp x hx (by omega))
  · refine .mark fun _ => .pos fun _ => .orReset (.expect hi ?_ (by decide))
    exact (takes_test hc (by omega)).bind fun _ => hrest.bind fun _ => .pure
  · refine word_stmt_while ?_
    simp only [whileForm, word_assoc]
    exact word_word_append.2 ⟨i, _, rfl, hi, .seq hc hv⟩

theorem settles_for (hw : Word forForm w) (hlen : w.length ≤ n) : Settles (forStmtOf p n) w := by
  simp only [forForm, word_assoc] at hw
  obtain ⟨i₁, w, rfl, h₁, hw⟩ := word_word_append.1 hw
  obtain ⟨i₂, w, rfl, h₂, hw⟩ := word_delim_append.1 hw
  obtain ⟨a, w, rfl, ha, hw⟩ := word_append.1 hw
  obtain ⟨i₃, w, rfl, h₃, hw⟩ := word_delim_append.1 hw
  obtain ⟨b, w, rfl, hb, hw⟩ := word_append.1 hw
  obtain ⟨i₄, w, rfl, h₄, hw⟩ := word_delim_append.1 hw
  obtain ⟨c, w, rfl, hc, hw⟩ := word_append.1 hw
  obtain ⟨i₅, x, rfl, h₅, hx⟩ := word_delim_append.1 hw
  simp only [List.length_cons, List.length_append] at hlen
  have hhead : i₁ :: i₂ :: (a ++ i₃ :: (b ++ i₄ :: (c ++ i₅ :: x))) =
      i₁ :: i₂ :: (a ++ i₃ :: (b ++ i₄ :: (c ++ [i₅]))) ++ x := by simp
  rw [hhead]
  refine .behind (fun rest hrest => ?_) (fun v hv => ?_) (hp x hx (by omega))
  · simp only [List.append_assoc, List.cons_append, List.nil_append]
    refine .mark fun _ => .pos fun _ => .orReset (.expect h₁ ?_ (by decide))
    refine .expect h₂ ?_ (by decide)
    refine (takes_forInit h₃ ha (by omega)).bind fun _ => .expect h₃ ?_ (by decide)
    refine (takes_optional h₄ rfl (by decide) hb (by omega)).bind fun _ => .expect h₄ ?_ (by decide)
    refine (takes_optional h₅ rfl (by decide) hc (by omega)).bind fun _ => .expect h₅ ?_ (by decide)
    exact hrest.bind fun _ => .pure
  · refine word_stmt_for ?_
    simp only [forForm, word_assoc, List.append_assoc, List.cons_append, List.nil_append]
    refine word_word_append.2 ⟨i₁, _, rfl, h₁, word_delim_append.2 ⟨i₂, _, rfl, h₂, .seq ha ?_⟩⟩
    refine word_delim_append.2 ⟨i₃, _, rfl, h₃, .seq hb ?_⟩
    refine word_delim_append.2 ⟨i₄, _, rfl, h₄, .seq hc ?_⟩
    exact word_delim_append.2 ⟨i₅, v, rfl, h₅, hv⟩

/-- The semicolon ends the loop, so it does not matter what follows. -/
theorem takes_doStmtOf (hw : Word doForm w) (hlen : w.length ≤ n) :
    Takes (doStmtOf p n) (w ++ rest) rest := by
  simp only [doForm, word_assoc] at hw
  obtain ⟨i, w, rfl, hi, hw⟩ := word_word_append.1 hw
  obtain ⟨x, w, rfl, hx, hw⟩ := word_append.1 hw
  obtain ⟨j, w, rfl, hj, hw⟩ := word_word_append.1 hw
  obtain ⟨c, w, rfl, hc, hw⟩ := word_append.1 hw
  obtain ⟨l, rfl, hl⟩ := word_delim.1 hw
  simp only [List.length_cons, List.length_append] at hlen
  simp only [List.append_assoc, List.cons_append, List.nil_append]
  refine .mark fun _ => .pos fun _ => .expect hi (.orReset ?_) (by decide)
  refine ((hp x hx (by omega)).takes _ (noElse_cons hj (by decide))).bind fun _ => ?_
  refine .expect hj ?_ (by decide)
  exact (takes_test hc (by omega)).bind fun _ => .expect hl .pure (by decide)

/-- All forms of statements, of which the first token tells which to take. -/
theorem settles_stmtOf (hw : Word (.sub .stmt) w) (hlen : w.length ≤ n) :
    Settles (stmtOf p n) w := by
  have hword := word_sub.1 hw
  simp only [rule, word_or, or_assoc] at hword
  rcases hword with h | h | h | h | h | h | h | h | h | h
  · have htakes : ∀ rest, Takes (blockOf p n) (w ++ rest) rest := fun _ => takes_blockOf hp h hlen
    obtain ⟨i, v, rfl, hi, -⟩ := word_delim_append.1 (word_assoc.1 (word_sub.1 h))
    refine .current (.of_takes fun rest => ?_) (by rw [hi])
    exact (htakes rest).bind fun _ => .pure
  · obtain ⟨i, rfl, hi⟩ := word_delim.1 h
    refine .current (.of_takes fun rest => ?_) (by rw [hi])
    exact .advance (hi ▸ by decide) .pure
  · have hsettles := settles_if hp h hlen
    simp only [ifForm, word_assoc] at h
    obtain ⟨i, v, rfl, hi, -⟩ := word_word_append.1 h
    exact .current hsettles (by rw [hi])
  · have hsettles := settles_for hp h hlen
    simp only [forForm, word_assoc] at h
    obtain ⟨i, v, rfl, hi, -⟩ := word_word_append.1 h
    exact .current hsettles (by rw [hi])
  · have hsettles := settles_while hp h hlen
    simp only [whileForm, word_assoc] at h
    obtain ⟨i, v, rfl, hi, -⟩ := word_word_append.1 h
    exact .current hsettles (by rw [hi])
  · have htakes : ∀ rest, Takes (doStmtOf p n) (w ++ rest) rest := fun _ => takes_doStmtOf hp h hlen
    simp only [doForm, word_assoc] at h
    obtain ⟨i, v, rfl, hi, -⟩ := word_word_append.1 h
    exact .current (.of_takes htakes) (by rw [hi])
  · obtain ⟨u, v, rfl, hu, hv⟩ := word_append.1 h
    obtain ⟨j, rfl, hj⟩ := word_delim.1 hv
    rcases word_or.1 hu with hu | hu
    · obtain ⟨i, rfl, hi⟩ := word_word.1 hu
      exact .current (.of_takes fun rest => takes_branchStmt (hi ▸ by decide) hj) (by rw [hi])
    · obtain ⟨i, rfl, hi⟩ := word_word.1 hu
      exact .current (.of_takes fun rest => takes_branchStmt (hi ▸ by decide) hj) (by rw [hi])
  · have htakes : ∀ rest, Takes (returnStmt n) (w ++ rest) rest := fun _ => takes_returnStmt h hlen
    obtain ⟨i, v, rfl, hi, -⟩ := word_word_append.1 (word_assoc.1 h)
    exact .current (.of_takes htakes) (by rw [hi])
  · have htakes : ∀ rest, Takes (simpleStmt n) (w ++ rest) rest := fun rest =>
      .orElse_left ((takes_varDecl h hlen).bind fun _ => .pure)
    rcases varForm_head h with ⟨i, v, rfl, hi⟩ | ⟨i, j, l, v, rfl, ⟨d, hi⟩, -⟩
    · exact .current (.of_takes htakes) (by rw [hi])
    · exact .current (.of_takes htakes) (by rw [hi])
  · have hvar : Production (do let d ← varDecl n; return Stmt.var d) fun _ u => Word varForm u :=
      fun s hs => (production_varDecl n s hs).map fun _ _ h => h.word
    obtain ⟨e, v, rfl, he, hv⟩ := word_append.1 h
    have htakes : ∀ rest, Takes (simpleStmt n) (e ++ v ++ rest) rest := by
      refine fun rest => .orElse_right hvar (fun _ x y heq hx => ?_) (takes_exprStmt h hlen)
      obtain ⟨x, z, rfl, hx, -⟩ := word_append.1 hx
      rw [List.append_assoc] at heq
      exact varSpec_not_opens hx (opens_expression he) (heq.trans (List.append_assoc _ _ _))
    obtain ⟨i, e, rfl, hi, -⟩ := opens_expression he
    refine .current (.of_takes htakes) ?_
    -- no operand starts with a token that introduces a statement
    split <;> first
      | rfl
      | next ht => exact absurd (ht ▸ hi) (by decide)

end Statements

/-- Statements take all of their words that are shorter than the bound. -/
theorem settles_stmt : ∀ {n : Nat} {w : List Item}, Word (.sub .stmt) w → w.length < n →
    Settles (stmt n) w
  | _ + 1, _, hw, hlen => settles_stmtOf (fun _ => settles_stmt) hw (Nat.le_of_lt_succ hlen)

theorem takes_block (hw : Word (.sub .block) w) (hlen : w.length ≤ n) :
    Takes (block n) (w ++ rest) rest :=
  takes_blockOf (fun _ => settles_stmt) hw hlen

/-! ## Definitions -/

/-- A whole number that fits is taken. -/
theorem takes_intLit {i : Item} (hi : IsSmall i) : Takes intLit (i :: rest) rest := by
  refine .current_cons ?_
  rw [hi.1]
  dsimp only
  rw [if_pos hi.2]
  exact .advance (hi.1 ▸ by decide) .pure

theorem takes_layoutEntry (hw : Word (.sub .layoutEntry) w) :
    Takes layoutEntry (w ++ rest) rest := by
  obtain ⟨u, w, rfl, hu, hw⟩ := word_append.1 (word_assoc.1 (word_sub.1 hw))
  obtain ⟨j, w, rfl, hj, hw⟩ := word_tok_append.1 hw
  obtain ⟨l, rfl, hl⟩ := word_item.1 hw
  have hvalue : ∀ text : String, Takes (do
      expect (.assign none)
      let value ← intLit
      return (⟨text, value⟩ : LayoutEntry)) (j :: l :: rest) rest :=
    fun _ => .expect hj ((takes_intLit hl).bind fun _ => .pure) (by decide)
  rcases word_or.1 hu with hu | hu
  · obtain ⟨i, rfl, hi⟩ := word_word.1 hu
    refine .current_cons ?_
    rw [hi]
    exact .advance (hi ▸ by decide) (hvalue _)
  · obtain ⟨i, rfl, hi⟩ := word_word.1 hu
    refine .current_cons ?_
    rw [hi]
    exact .advance (hi ▸ by decide) (hvalue _)

theorem takes_layout (hw : Word (.sub .layout) w) (hlen : w.length ≤ n) :
    Takes (layout n) (w ++ rest) rest := by
  simp only [word_sub, rule, word_assoc] at hw
  obtain ⟨i, w, rfl, hi, hw⟩ := word_word_append.1 hw
  obtain ⟨j, w, rfl, hj, hw⟩ := word_delim_append.1 hw
  obtain ⟨u, w, rfl, hu, hw⟩ := word_append.1 hw
  obtain ⟨l, rfl, hl⟩ := word_delim.1 hw
  simp only [List.length_cons, List.length_append] at hlen
  simp only [List.append_assoc, List.cons_append, List.nil_append]
  refine .mark fun _ => .orReset (.expect hi (.expect hj ?_ (by decide)) (by decide))
  refine (takes_commaList (k := n) (fun _ => True) rfl (fun _ _ _ => trivial)
    (fun w rest hw _ _ => takes_layoutEntry hw) hu (by omega) (by omega) trivial ?_).bind
    fun _ => ?_
  · rintro _ ⟨⟩
    exact hl ▸ by decide
  · exact .expect hl .pure (by decide)

theorem takes_param (hw : Word (.sub .param) w) : Takes param (w ++ rest) rest := by
  obtain ⟨u, w, rfl, hu, hw⟩ := word_append.1 (word_assoc.1 (word_sub.1 hw))
  obtain ⟨i, w, rfl, hi, hw⟩ := word_item_append.1 hw
  obtain ⟨j, rfl, hj⟩ := word_tok.1 hw
  have hnamed : ∀ (pos : Pos) (storage : Storage), Takes (do
      let type ← typeName
      let name ← name
      return ({ pos, storage, type, name } : Param)) (i :: j :: rest) rest := by
    obtain ⟨d, hd⟩ := hi
    exact fun _ _ => .typeName hd (.name hj .pure)
  refine .mark fun _ => ?_
  rcases word_opt.1 hu with hu | rfl
  · rcases word_or.1 hu with hu | hu
    · obtain ⟨l, rfl, hl⟩ := word_word.1 hu
      refine .current_cons (.orReset ?_)
      rw [hl]
      exact .advance (hl ▸ by decide) (hnamed _ _)
    · obtain ⟨l, rfl, hl⟩ := word_word.1 hu
      refine .current_cons (.orReset ?_)
      rw [hl]
      exact .advance (hl ▸ by decide) (hnamed _ _)
  · refine .current_cons (.orReset ?_)
    obtain ⟨d, hd⟩ := hi
    rw [hd]
    exact hnamed _ _

/-- `void` in front of the parenthesis is tried first, and refused for the words of parameters. -/
theorem takes_paramList (hw : Word (.sub .params) w) (hlen : w.length ≤ n) :
    Takes (paramList n) (w ++ rest) rest := by
  have hword := word_sub.1 hw
  simp only [rule, word_or, or_assoc] at hword
  refine .mark fun _ => ?_
  rcases hword with h | h | h
  · obtain ⟨i, rfl, hi⟩ := word_delim.1 h
    exact .accept hi .pure (by decide)
  · obtain ⟨i, w, rfl, hi, h⟩ := word_tok_append.1 h
    obtain ⟨j, rfl, hj⟩ := word_delim.1 h
    refine .refuse ?_ (.token_cons (.peek_one ?_))
    · rintro _ ⟨⟩
      exact hi ▸ by decide
    · rw [if_pos ⟨hi, hj⟩]
      exact .advance (hi ▸ by decide) (.advance (hj ▸ by decide) .pure)
  · obtain ⟨u, w, rfl, hu, h⟩ := word_append.1 h
    obtain ⟨l, rfl, hl⟩ := word_delim.1 h
    rw [List.length_append, List.length_singleton] at hlen
    have hlist : Takes (do
        let params ← commaList param n
        expect (.delim .rparen)
        return params) (u ++ [l] ++ rest) rest := by
      rw [List.append_assoc]
      refine (takes_commaList (k := n) (fun _ => True) rfl (fun _ _ _ => trivial)
        (fun w rest hw _ _ => takes_param hw) hu (by omega) (by omega) trivial ?_).bind fun _ => ?_
      · rintro _ ⟨⟩
        exact hl ▸ by decide
      · exact .expect hl .pure (by decide)
    obtain ⟨x, y, rfl, hx, -⟩ := word_append.1 hu
    obtain ⟨i, j, x, rfl, hi, hj⟩ := param_head hx
    refine .refuse ?_ (.token_cons (.peek_one ?_))
    · rintro _ ⟨⟩
      exact hi
    · rw [if_neg fun h => hj h.2]
      exact .orReset hlist

/-- A function takes all of its words, whatever follows its body. -/
theorem takes_funcDecl (hw : Word funcForm w) (hlen : w.length ≤ n) :
    Takes (funcDecl n) (w ++ rest) rest := by
  simp only [funcForm, word_assoc] at hw
  obtain ⟨i, w, rfl, ⟨d, hi⟩, hw⟩ := word_item_append.1 hw
  obtain ⟨j, w, rfl, hj, hw⟩ := word_tok_append.1 hw
  obtain ⟨l, w, rfl, hl, hw⟩ := word_delim_append.1 hw
  obtain ⟨x, y, rfl, hx, hy⟩ := word_append.1 hw
  simp only [List.length_cons, List.length_append] at hlen
  simp only [List.append_assoc, List.cons_append]
  refine .mark fun _ => .pos fun _ => .typeName hi (.orReset (.name hj (.expect hl ?_ (by decide))))
  refine (takes_paramList hx (by omega)).bind fun _ => ?_
  exact (takes_block hy (by omega)).bind fun _ => .pure

theorem takes_storage (hw : Word (opt (word .uniform ||| word .in ||| word .out)) w)
    (hrest : ∃ i v, rest = i :: v ∧ i.token.opensVar = true) : Takes storage (w ++ rest) rest := by
  simp only [word_opt, word_or, word_word, or_assoc] at hw
  rcases hw with ⟨i, rfl, hi⟩ | ⟨i, rfl, hi⟩ | ⟨i, rfl, hi⟩ | rfl
  · refine .token_cons ?_
    rw [hi]
    exact .advance (hi ▸ by decide) .pure
  · refine .token_cons ?_
    rw [hi]
    exact .advance (hi ▸ by decide) .pure
  · refine .token_cons ?_
    rw [hi]
    exact .advance (hi ▸ by decide) .pure
  · obtain ⟨i, v, rfl, hi⟩ := hrest
    refine .token_cons ?_
    split
    next ht => exact absurd (ht ▸ hi) (by decide)
    next ht => exact absurd (ht ▸ hi) (by decide)
    next ht => exact absurd (ht ▸ hi) (by decide)
    next => exact .pure

/-- A variable takes all of its words, whatever follows its semicolon. -/
theorem takes_globalVar (hw : Word globalForm w) (hlen : w.length ≤ n) :
    Takes (globalVar n) (w ++ rest) rest := by
  obtain ⟨l, w, rfl, hl, hw⟩ := word_append.1 (word_assoc.1 hw)
  have hhead := stored_head hw
  obtain ⟨q, v, rfl, hq, hv⟩ := word_append.1 hw
  simp only [List.length_append] at hlen
  have hstored : ∀ (pos : Pos) (layout : List LayoutEntry), Takes (do
      let storage ← storage
      let var ← varDecl n
      return ({ pos, layout, storage, var } : GlobalVar)) (q ++ v ++ rest) rest := by
    intro pos layout
    rw [List.append_assoc]
    refine (takes_storage hq ?_).bind fun _ => (takes_varDecl hv (by omega)).bind fun _ => .pure
    obtain ⟨i, v, rfl, hi⟩ := opensVar_of_varForm hv
    exact ⟨i, v ++ rest, rfl, hi⟩
  refine .mark fun _ => .pos fun pos => .orReset ?_
  rcases word_opt.1 hl with hl | rfl
  · have htakes : Takes (layout n) (l ++ (q ++ v ++ rest)) (q ++ v ++ rest) :=
      takes_layout hl (by omega)
    simp only [word_sub, rule, word_assoc] at hl
    obtain ⟨i, l, rfl, hi, -⟩ := word_word_append.1 hl
    rw [List.append_assoc]
    refine .token_cons ?_
    rw [hi]
    exact htakes.bind fun _ => hstored _ _
  · have hstored' := hstored pos []
    obtain ⟨i, u, hu, hi⟩ := hhead
    rw [List.nil_append]
    rw [hu] at hstored' ⊢
    refine .token_cons ?_
    split
    next ht => exact absurd (ht ▸ hi) (by decide)
    next => exact hstored'

/-- A function is tried first, and refuses variables. -/
theorem takes_definition (hw : Word (.sub .definition) w) (hlen : w.length ≤ n) :
    Takes (definition n) (w ++ rest) rest := by
  rcases word_or.1 (word_sub.1 hw) with h | h
  · exact .orElse_left ((takes_funcDecl h hlen).bind fun _ => .pure)
  · have hfunc : Production (do let f ← funcDecl n; return Def.func f) fun _ u => Word funcForm u :=
      fun s hs => (production_funcDecl n s hs).map fun _ _ h => h.word
    refine .orElse_right hfunc (fun _ u v heq hu => global_not_func hu h heq) ?_
    exact (takes_globalVar h hlen).bind fun _ => .pure

/-! ## Shaders -/

/-- A version that is not there is not taken. -/
theorem takes_version (hw : Word (opt (tok .version ++ tok (.number .int))) w)
    (hrest : ∀ i ∈ rest.head?, i.token ≠ .version) : Takes version (w ++ rest) rest := by
  rcases word_opt.1 hw with hw | rfl
  · obtain ⟨i, w, rfl, hi, hw⟩ := word_tok_append.1 hw
    obtain ⟨j, rfl, hj⟩ := word_tok.1 hw
    refine .accept hi (.current_cons ?_) (by decide)
    rw [hj]
    exact .advance (hj ▸ by decide) .pure
  · exact .refuse hrest .pure

/-- Definitions are taken up to the end of the text, as no definition is empty. -/
theorem takes_definitions {e : Item} (he : e.token = .eof) : ∀ {k : Nat} {w : List Item},
    Word (many (.sub .definition)) w → w.length ≤ n → w.length < k →
    Takes (definitions n k) (w ++ [e]) [e]
  | k + 1, w, hw, hn, hk => by
    rcases word_many.1 hw with rfl | ⟨u, v, rfl, hu, hv⟩
    · refine .token_cons ?_
      rw [he]
      exact .pure
    · have hpos := List.length_pos_iff.2 (word_ne_nil hu rfl)
      rw [List.length_append] at hn hk
      have hfirst : Takes (definition n) (u ++ (v ++ [e])) (v ++ [e]) :=
        takes_definition hu (by omega)
      have hrest : Takes (definitions n k) (v ++ [e]) [e] :=
        takes_definitions he hv (by omega) (by omega)
      obtain ⟨i, u, rfl, hi⟩ := definition_head hu
      rw [List.append_assoc]
      refine .token_cons ?_
      rw [if_neg (Token.not_isEof_of_opensDefinition hi)]
      exact Takes.bind hfirst.orElse_left fun _ => hrest.bind fun _ => .pure

/-- A shader takes all of its words that are shorter than the bound. -/
theorem takes_program {e : Item} (he : e.token = .eof)
    (hw : Word (opt (tok .version ++ tok (.number .int)) ++ many (sub .definition)) w)
    (hlen : w.length < n) : Takes (program n) (w ++ [e]) [e] := by
  obtain ⟨u, v, rfl, hu, hv⟩ := word_append.1 hw
  rw [List.length_append] at hlen
  rw [List.append_assoc]
  refine .pos fun _ => (takes_version hu ?_).bind fun _ => ?_
  · rcases word_many.1 hv with rfl | ⟨x, y, rfl, hx, -⟩
    · rintro _ ⟨⟩
      exact he ▸ by decide
    · obtain ⟨i, x, rfl, hi⟩ := definition_head hx
      rintro _ ⟨⟩ hversion
      exact absurd (hversion ▸ hi) (by decide)
  · exact (takes_definitions he hv (by omega) (by omega)).bind fun _ => .pure

end Grammar

open Shader.Grammar

/-- A stream that holds one end of text, its last item, is parsed as a shader if and only if its
items are a word of the grammar. -/
theorem Stream.isSome_parse_iff (items : List Item)
    (h : ∀ i ∈ (closeItems items).dropLast, i.token ≠ .eof) :
    ((Stream.ofItems items).parse []).program.isSome ↔ Word (.sub .program) (closeItems items) := by
  obtain ⟨e, hlast, he⟩ := getLast?_closeItems items
  have hready : ({ stream := .ofItems items } : Parsing).Ready := Parsing.ready_start hlast he
  have hleft : ({ stream := .ofItems items } : Parsing).left = closeItems items := rfl
  constructor
  · intro hsome
    obtain ⟨p, hp⟩ := Option.isSome_iff_exists.1 hsome
    obtain ⟨s', hrun⟩ := Stream.parse_eq_some hp
    obtain ⟨-, ⟨i, rest, hend, hi⟩, w, ds, hw, hword, -⟩ := program_some hready hrun
    rw [hend, hleft] at hw
    -- the end of text that reading has stopped at is the last item
    rcases List.eq_nil_or_concat rest with rfl | ⟨rest, j, rfl⟩
    · rw [hw]
      exact .sub (.seq hword (.item hi))
    · refine absurd hi (h i ?_)
      rw [hw, List.concat_eq_append, ← List.cons_append, ← List.append_assoc, List.dropLast_concat]
      exact List.mem_append_right _ List.mem_cons_self
  · intro hword
    obtain ⟨w, v, hw, hword, hv⟩ := word_append.1 (word_sub.1 hword)
    obtain ⟨i, rfl, hi⟩ := word_tok.1 hv
    have hlen : w.length < depthBound (closeItems items) := by
      rw [hw, depthBound, List.length_append]
      omega
    obtain ⟨p, s', hrun, -⟩ := takes_program hi hword hlen _ hready (hleft.trans hw)
    have hreports : s'.reports = [] := (program_some hready hrun).1.reports
    have hparse : ((Stream.ofItems items).parse []).program = some p := by
      simp only [Stream.parse]
      rw [show (Stream.ofItems items).items = closeItems items from rfl, hrun, hreports]
      rfl
    rw [hparse]
    rfl

/-- A function without parameters and statements. -/
def idleMain : List Item :=
  [⟨.typeName .void, "void", .implicit⟩, ⟨.name, "main", .implicit⟩,
    ⟨.delim .lparen, "(", .implicit⟩,
    ⟨.delim .rparen, ")", .implicit⟩, ⟨.delim .lbrace, "\x7b", .implicit⟩,
    ⟨.delim .rbrace, "\x7d", .implicit⟩]

theorem Stream.isSome_parse_idleMain :
    ((Stream.ofItems idleMain).parse []).program.isSome ∧
      Word (.sub .program) (closeItems idleMain) := by
  have hsome : ((Stream.ofItems idleMain).parse []).program.isSome := by decide +kernel
  exact ⟨hsome, (Stream.isSome_parse_iff idleMain (by decide +kernel)).1 hsome⟩

end Shader
