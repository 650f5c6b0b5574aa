import Shader.Proofs.Grammar.Occurrences
import Shader.Proofs.Grammar.Relexing
import Shader.Proofs.Text.Decoding

/-!
# Scanning renderings

What scanning finds in the rendering of an expression. `Expr.pieces` are the tokens of the rendering
with their texts, `Expr.errors` what is wrong with them. Nothing fuses with what stands next to it,
with one exception: a number takes a selector for a part of itself, and is malformed then.
-/

namespace Shader

namespace Expr

/-! ## Pieces -/

/-- Numbers, and numbers with selectors behind them. -/
def isNumeral : Expr → Bool
  | number _ _ _ => true
  | member x _ _ => x.isNumeral
  | _ => false

/-- Applications of operators, which are rendered in parentheses. -/
def isApplied : Expr → Bool
  | unary _ _ _ | postStep _ _ | binary _ _ _ | assign _ _ _ | cond _ _ _ | seq _ _ => true
  | _ => false

/-- Pieces in parentheses. -/
def enclose (ps : List (Token × String)) : List (Token × String) :=
  (Token.delim .lparen).piece :: ps ++ [(Token.delim .rparen).piece]

/-- The pieces of an expression in parentheses, if it has any. -/
def wrap (x : Expr) (ps : List (Token × String)) : List (Token × String) :=
  if x.isApplied then enclose ps else ps

mutual

/-- The pieces of a rendering without its own parentheses. -/
def inner : Expr → List (Token × String)
  | name n => [(.name, n.text)]
  | number _ kind text => [(.number kind, text)]
  | bool _ value => [(Token.keyword (if value then .true else .false)).piece]
  | call fn args => (.name, fn.text) :: enclose (innerList args)
  | construct _ type args => (.typeName type, type.name) :: enclose (innerList args)
  | index base i =>
    (.name, base.text) :: (Token.delim .lbrack).piece :: wrap i (inner i) ++
      [(Token.delim .rbrack).piece]
  | member x sel selPos =>
    if x.isNumeral then [(.error, (member x sel selPos).render)]
    else wrap x (inner x) ++ [(Token.delim .dot).piece, (.name, sel.text)]
  | unary _ op x => op.token.piece :: wrap x (inner x)
  | postStep s x => wrap x (inner x) ++ [(Token.step s).piece]
  | binary op x y => wrap x (inner x) ++ (Token.binary op).piece :: wrap y (inner y)
  | assign op x y => wrap x (inner x) ++ (Token.assign op).piece :: wrap y (inner y)
  | cond c x y =>
    wrap c (inner c) ++ Token.question.piece :: wrap x (inner x) ++
      Token.colon.piece :: wrap y (inner y)
  | seq first rest => wrap first (inner first) ++ innerRest rest

/-- The pieces of expressions with commas between them. -/
def innerList : List Expr → List (Token × String)
  | [] => []
  | x :: xs => wrap x (inner x) ++ innerRest xs

/-- The pieces of expressions with a comma in front of each. -/
def innerRest : List Expr → List (Token × String)
  | [] => []
  | x :: xs => (Token.delim .comma).piece :: wrap x (inner x) ++ innerRest xs

end

/-- The pieces of a rendering. -/
def pieces (x : Expr) : List (Token × String) := wrap x x.inner

/-- Parentheses around what needs them make the pieces of an expression. -/
theorem wrap_inner (x : Expr) : wrap x x.inner = x.pieces := rfl

section

variable (x y c first : Expr) (args rest : List Expr) (pos : Pos)

@[simp] theorem pieces_name (n : Name) : (name n).pieces = [(.name, n.text)] := rfl

@[simp] theorem pieces_number (kind : NumberKind) (text : String) :
    (number pos kind text).pieces = [(.number kind, text)] := rfl

@[simp] theorem pieces_bool (value : Bool) :
    (bool pos value).pieces = [(Token.keyword (if value then .true else .false)).piece] := rfl

@[simp] theorem pieces_call (fn : Name) :
    (call fn args).pieces = (.name, fn.text) :: enclose (innerList args) := rfl

@[simp] theorem pieces_construct (type : DataType) :
    (construct pos type args).pieces =
      (.typeName type, type.name) :: enclose (innerList args) := rfl

@[simp] theorem pieces_index (base : Name) : (index base x).pieces =
    (.name, base.text) :: (Token.delim .lbrack).piece :: x.pieces ++
      [(Token.delim .rbrack).piece] := rfl

@[simp] theorem pieces_member (sel : Swizzle) : (member x sel pos).pieces =
    if x.isNumeral then [(.error, (member x sel pos).render)]
    else x.pieces ++ [(Token.delim .dot).piece, (.name, sel.text)] := rfl

@[simp] theorem pieces_unary (op : UnaryOp) :
    (unary pos op x).pieces = enclose (op.token.piece :: x.pieces) := rfl

@[simp] theorem pieces_postStep (s : Step) :
    (postStep s x).pieces = enclose (x.pieces ++ [(Token.step s).piece]) := rfl

@[simp] theorem pieces_binary (op : BinaryOp) :
    (binary op x y).pieces = enclose (x.pieces ++ (Token.binary op).piece :: y.pieces) := rfl

@[simp] theorem pieces_assign (op : Option ArithOp) :
    (assign op x y).pieces = enclose (x.pieces ++ (Token.assign op).piece :: y.pieces) := rfl

@[simp] theorem pieces_cond : (cond c x y).pieces =
    enclose (c.pieces ++ Token.question.piece :: x.pieces ++ Token.colon.piece :: y.pieces) := rfl

@[simp] theorem pieces_seq :
    (seq first rest).pieces = enclose (first.pieces ++ innerRest rest) := rfl

end

mutual

/-- What is wrong with a rendering. -/
def errors : Expr → List LexError
  | name _ | number _ _ _ | bool _ _ => []
  | call _ args | construct _ _ args => allErrors args
  | index _ x | unary _ _ x | postStep _ x => errors x
  | member x sel selPos =>
    if x.isNumeral then [.malformed (member x sel selPos).render] else errors x
  | binary _ x y | assign _ x y => errors x ++ errors y
  | cond c x y => errors c ++ (errors x ++ errors y)
  | seq first rest => errors first ++ allErrors rest

/-- What is wrong with renderings. -/
def allErrors : List Expr → List LexError
  | [] => []
  | x :: xs => errors x ++ allErrors xs

end

/-! ## Legible expressions -/

/-- An expression that a text can spell, as far as its first node goes: names and numbers are
spelled as such, and a sequence has a second part. -/
def IsLegible : Expr → Prop
  | name n => (Name.item n).Spelled
  | number pos kind text => Item.Spelled ⟨.number kind, text, pos⟩
  | call fn _ => (Name.item fn).Spelled
  | index base _ => (Name.item base).Spelled
  | seq _ rest => rest ≠ []
  | _ => True

/-- An expression that a text can spell. -/
def Legible (x : Expr) : Prop := ∀ e : Expr, e.Occurs x → e.IsLegible

/-- A legible expression is legible at its root. -/
theorem Legible.node {x : Expr} (h : x.Legible) : x.IsLegible := h x .refl

/-- The parts of a legible expression are legible. -/
theorem Legible.child {x y : Expr} (h : x.Legible) (hy : y ∈ x.children) : y.Legible :=
  fun e he => h e (he.tail hy)

/-- Parts are smaller, which is what the inductions below are on. -/
theorem sizeOf_lt_of_mem_children {x y : Expr} (h : y ∈ x.children) : sizeOf y < sizeOf x := by
  cases x with
  | name | number | bool => cases h
  | call fn args =>
    have hlt : sizeOf y < sizeOf args := List.sizeOf_lt_of_mem h
    simp only [call.sizeOf_spec]
    omega
  | construct pos type args =>
    have hlt : sizeOf y < sizeOf args := List.sizeOf_lt_of_mem h
    simp only [construct.sizeOf_spec]
    omega
  | seq first rest =>
    simp only [seq.sizeOf_spec]
    rcases List.mem_cons.1 h with rfl | h
    · omega
    · have hlt := List.sizeOf_lt_of_mem h
      omega
  | index | member | unary | postStep =>
    obtain rfl := List.mem_singleton.1 h
    simp only [index.sizeOf_spec, member.sizeOf_spec, unary.sizeOf_spec, postStep.sizeOf_spec]
    omega
  | binary | assign =>
    simp only [binary.sizeOf_spec, assign.sizeOf_spec]
    rcases List.mem_pair.1 h with rfl | rfl <;> omega
  | cond =>
    simp only [children, List.mem_cons, List.not_mem_nil, or_false] at h
    simp only [cond.sizeOf_spec]
    rcases h with rfl | rfl | rfl <;> omega

/-- What holds of an expression if it holds of those it is made of holds of all expressions. -/
theorem induction {P : Expr → Prop} (h : ∀ x : Expr, (∀ y ∈ x.children, P y) → P x) (x : Expr) :
    P x :=
  h x fun y hy =>
    have := sizeOf_lt_of_mem_children hy
    induction h y
termination_by sizeOf x

end Expr

/-! ## Words -/

/-- A name is scanned as one piece in front of what does not go on with it. -/
theorem lexes_name {n : Name} {cs : List Char} (h : n.item.Spelled) (hcs : Stops isWordChar cs) :
    Lexes (n.text.toList ++ cs) [(.name, n.text)] [] cs := by
  obtain ⟨hword, hname⟩ := h.name rfl
  have hlexes := lexes_word hword hcs
  rwa [hname] at hlexes

/-- A letter and word characters make an identifier. -/
theorem isIdentifier_of_toList {w : String} {c : Char} {cs : List Char} (hw : w.toList = c :: cs)
    (hc : isLetter c = true) (hcs : cs.all isWordChar = true) : IsIdentifier w := by
  refine ⟨?_, c, cs, hw, hc⟩
  rw [IsWord, hw]
  exact List.forall_mem_cons.2 ⟨Bool.or_eq_true_iff.2 (.inl hc), List.all_eq_true.1 hcs⟩

theorem DataType.isIdentifier_name (t : DataType) : IsIdentifier t.name := by
  rcases t with _ | s | ⟨s, n⟩ | n <;> (try cases s) <;> (try cases n) <;>
    exact isIdentifier_of_toList rfl rfl rfl

/-- The name of a type is scanned as this type. -/
theorem DataType.ofWord_name (t : DataType) : Token.ofWord t.name = .typeName t := by
  rcases t with _ | s | ⟨s, n⟩ | n <;> (try cases s) <;> (try cases n) <;> decide +kernel

/-- Selectors are single letters, and no characters of numbers. -/
theorem Swizzle.exists_char (s : Swizzle) : ∃ c, s.text.toList = [c] ∧ isLetter c = true ∧
    isNumberChar c = false := by
  cases s <;> exact ⟨_, rfl, rfl, rfl⟩

namespace Lexes

variable {cs ds fs : List Char} {ps qs : List (Token × String)} {es : List LexError}

/-- In front of something that nothing is wrong with. -/
theorem before (h : Lexes cs ps es ds) (h' : Lexes ds qs [] fs) : Lexes cs (ps ++ qs) es fs := by
  have happend := h.append h'
  rwa [List.append_nil] at happend

theorem enclose (h : Lexes cs ps es (')' :: ds)) : Lexes ('(' :: cs) (Expr.enclose ps) es ds :=
  (lexes_delim .lparen nofun).append (h.before (lexes_delim .rparen nofun))

end Lexes

namespace Expr

/-! ## Renderings -/

/-- A number with selectors behind it is one lexeme, together with what may follow in a number. -/
theorem lexes_selected : ∀ (x : Expr), x.isNumeral = true → x.Legible →
    ∀ (sel : Swizzle) {v cs : List Char}, (∀ c ∈ v, isTailChar c = true) → Stops isTailChar cs →
      Lexes (x.render.toList ++ ('.' :: sel.text.toList ++ v ++ cs))
        [(.error, String.ofList (x.render.toList ++ ('.' :: sel.text.toList ++ v)))]
        [.malformed (String.ofList (x.render.toList ++ ('.' :: sel.text.toList ++ v)))] cs
  | number pos kind text, _, hx, sel, v, cs, hv, hcs => by
    obtain ⟨n, -, rfl⟩ := hx.node.number kind rfl
    obtain ⟨c, hc, hletter, hnumber⟩ := sel.exists_char
    rw [hc, render, String.toList_ofList]
    exact lexes_malformed n hnumber (isTailChar_of_isLetter hletter) hv hcs
  | member x sel' _, hnumeral, hx, sel, v, cs, hv, hcs => by
    obtain ⟨c, hc, hletter, -⟩ := sel.exists_char
    have hlonger : ∀ d ∈ '.' :: sel.text.toList ++ v, isTailChar d = true := by
      rw [hc]
      simp only [List.cons_append, List.nil_append, List.forall_mem_cons]
      exact ⟨rfl, isTailChar_of_isLetter hletter, hv⟩
    have hlexes := lexes_selected x hnumeral (hx.child List.mem_cons_self) sel' hlonger hcs
    simpa [render] using hlexes

/-- Scanning a rendering finds the pieces of the expression, in front of what does not go on with
it. -/
def Rescans (x : Expr) : Prop :=
  ∀ cs, Stops isWordChar cs → (x.isNumeral = true → Stops (· == '.') cs) →
    Lexes (x.render.toList ++ cs) x.pieces x.errors cs

/-- An expression is scanned as its pieces in front of what does not go on with its last one. -/
theorem Rescans.inFront {x : Expr} (h : x.Rescans) {cs : List Char} (hcs : Stops isTailChar cs) :
    Lexes (x.render.toList ++ cs) x.pieces x.errors cs :=
  h cs (hcs.mono fun _ hc => (Bool.or_eq_false_iff.1 hc).1) fun _ =>
    hcs.mono fun _ hc => (Bool.or_eq_false_iff.1 hc).2

/-- Behind an expression between commas stands a comma, or what follows all of them. -/
theorem stops_renderRest (xs : List Expr) {cs : List Char} (hcs : Stops isTailChar cs) :
    Stops isTailChar ((renderRest xs).toList ++ cs) := by
  cases xs with
  | nil => exact hcs
  | cons x xs =>
    simp only [renderRest, String.toList_append, List.append_assoc]
    exact stops_cons.2 rfl

theorem lexes_renderRest {xs : List Expr} (h : ∀ x ∈ xs, x.Rescans) {cs : List Char}
    (hcs : Stops isTailChar cs) :
    Lexes ((renderRest xs).toList ++ cs) (innerRest xs) (allErrors xs) cs := by
  induction xs with
  | nil => exact .nil
  | cons x xs ih =>
    rw [List.forall_mem_cons] at h
    have hx := h.1.inFront (stops_renderRest xs hcs)
    have hlexes := (lexes_delim .comma nofun).append (hx.append (ih h.2)).blank
    rw [Delimiter.sign] at hlexes
    simpa [renderRest, innerRest, wrap_inner, allErrors] using hlexes

/-- Expressions between commas are scanned as their pieces, with commas between them. -/
theorem lexes_renderList {xs : List Expr} (h : ∀ x ∈ xs, x.Rescans) {cs : List Char}
    (hcs : Stops isTailChar cs) :
    Lexes ((renderList xs).toList ++ cs) (innerList xs) (allErrors xs) cs := by
  cases xs with
  | nil => exact .nil
  | cons x xs =>
    rw [List.forall_mem_cons] at h
    have hlexes := (h.1.inFront (stops_renderRest xs hcs)).append (lexes_renderRest h.2 hcs)
    simpa [renderList, innerList, wrap_inner, allErrors] using hlexes

/-- A rendering starts with a word, a number or a parenthesis. -/
theorem exists_head {x : Expr} (h : x.Legible) :
    ∃ c ds, x.render.toList = c :: ds ∧ (isTailChar c = true ∨ c = '(') := by
  have hname : ∀ {n : Name} (rest : String), n.item.Spelled →
      ∃ c ds, (n.text ++ rest).toList = c :: ds ∧ (isTailChar c = true ∨ c = '(') := by
    intro n rest hn
    obtain ⟨-, c, ds, hlist, hc⟩ := (hn.name rfl).1
    have hlist : n.text.toList = c :: ds := hlist
    exact ⟨c, ds ++ rest.toList, by rw [String.toList_append, hlist]; rfl,
      .inl (isTailChar_of_isLetter hc)⟩
  induction x using Expr.induction with
  | h x ih =>
  cases x with
  | name n =>
    rw [render, ← String.append_empty (s := n.text)]
    exact hname "" h.node
  | number pos kind text =>
    obtain ⟨n, -, rfl⟩ := h.node.number kind rfl
    obtain ⟨c, ds, hchars, hc⟩ := n.exists_cons
    exact ⟨c, ds, by rw [render, String.toList_ofList, hchars], .inl hc⟩
  | bool pos value =>
    rw [render]
    cases value with
    | false => exact ⟨'f', ['a', 'l', 's', 'e'], rfl, .inl rfl⟩
    | true => exact ⟨'t', ['r', 'u', 'e'], rfl, .inl rfl⟩
  | call fn args =>
    rw [render, String.append_assoc, String.append_assoc]
    exact hname _ h.node
  | index base i =>
    rw [render, String.append_assoc, String.append_assoc]
    exact hname _ h.node
  | construct pos type args =>
    obtain ⟨-, c, ds, hlist, hc⟩ := type.isIdentifier_name
    refine ⟨c, ds ++ ("(" ++ (renderList args ++ ")")).toList, ?_, .inl (isTailChar_of_isLetter hc)⟩
    rw [render, String.append_assoc, String.append_assoc, String.toList_append, hlist]
    rfl
  | member x sel selPos =>
    obtain ⟨c, ds, hlist, hc⟩ := ih x List.mem_cons_self (h.child List.mem_cons_self)
    refine ⟨c, ds ++ ("." ++ sel.text).toList, ?_, hc⟩
    rw [render, String.append_assoc, String.toList_append, hlist]
    rfl
  | unary | postStep | binary | assign | cond | seq =>
    simp only [render, String.append_assoc]
    exact ⟨'(', _, String.toList_append, .inr rfl⟩

theorem lexes_boolText (value : Bool) {cs : List Char} (hcs : Stops isWordChar cs) :
    Lexes ((boolText value).toList ++ cs)
      [(Token.keyword (if value then .true else .false)).piece] [] cs := by
  cases value with
  | false => exact lexes_word (w := "false") (isIdentifier_of_toList rfl rfl rfl) hcs
  | true => exact lexes_word (w := "true") (isIdentifier_of_toList rfl rfl rfl) hcs

theorem lexes_selector (sel : Swizzle) {cs : List Char} (hcs : Stops isWordChar cs) :
    Lexes (sel.text.toList ++ cs) [(.name, sel.text)] [] cs := by
  cases sel <;> exact lexes_word (isIdentifier_of_toList rfl rfl rfl) hcs

/-- Scanning the rendering of an expression that a text can spell finds its pieces. -/
theorem rescans {x : Expr} (h : x.Legible) : x.Rescans := by
  induction x using Expr.induction with
  | h x ih =>
  have hparen : ∀ {cs}, Stops isTailChar (')' :: cs) := stops_cons.2 rfl
  have hblank : ∀ {cs}, Stops isTailChar (' ' :: cs) := stops_cons.2 rfl
  have ih : ∀ y ∈ x.children, y.Rescans := fun y hy => ih y hy (h.child hy)
  intro cs hcs hpoint
  cases x with
  | name n =>
    rw [render]
    exact lexes_name h.node hcs
  | number pos kind text =>
    obtain ⟨n, hkind, rfl⟩ := h.node.number kind rfl
    have hstop : Stops isTailChar cs := fun c hc =>
      Bool.or_eq_false_iff.2 ⟨hcs c hc, hpoint rfl c hc⟩
    rw [render, String.toList_ofList, ← hkind]
    exact lexes_number n hstop
  | bool pos value =>
    rw [render]
    exact lexes_boolText value hcs
  | call fn args =>
    have hargs : Lexes ('(' :: ((renderList args).toList ++ ')' :: cs)) (enclose (innerList args))
        (allErrors args) cs := (lexes_renderList ih hparen).enclose
    have hlexes := (lexes_name h.node (stops_cons.2 rfl)).append hargs
    simpa [render, errors] using hlexes
  | construct pos type args =>
    have hargs : Lexes ('(' :: ((renderList args).toList ++ ')' :: cs)) (enclose (innerList args))
        (allErrors args) cs := (lexes_renderList ih hparen).enclose
    have hlexes := (lexes_word type.isIdentifier_name (stops_cons.2 rfl)).append hargs
    rw [type.ofWord_name] at hlexes
    simpa [render, errors] using hlexes
  | index base i =>
    have hi : Lexes (i.render.toList ++ ']' :: cs) (i.pieces ++ [(Token.delim .rbrack).piece])
        i.errors cs :=
      ((ih i List.mem_cons_self).inFront (stops_cons.2 rfl)).before (lexes_delim .rbrack nofun)
    have hbrack : Lexes ('[' :: (i.render.toList ++ ']' :: cs)) _ _ cs :=
      (lexes_delim .lbrack nofun).append hi
    have hlexes := (lexes_name h.node (stops_cons.2 rfl)).append hbrack
    simpa [render, errors] using hlexes
  | member x sel selPos =>
    -- a selector behind a number is read as a part of the number
    by_cases hx : x.isNumeral = true
    · have hstop : Stops isTailChar cs := fun c hc =>
        Bool.or_eq_false_iff.2 ⟨hcs c hc, hpoint hx c hc⟩
      have hlexes := lexes_selected x hx (h.child List.mem_cons_self) sel (v := []) nofun hstop
      have hrender : String.ofList (x.render.toList ++ ('.' :: sel.text.toList ++ [])) =
          (member x sel selPos).render := by
        rw [← String.toList_inj]
        simp [render]
      rw [hrender] at hlexes
      simpa [render, errors, hx] using hlexes
    · have hdigit : Stops isDigit (sel.text.toList ++ cs) := by
        cases sel <;> exact stops_cons.2 rfl
      have hsel : Lexes ('.' :: (sel.text.toList ++ cs)) _ _ cs :=
        (lexes_delim .dot fun _ => hdigit).append (lexes_selector sel hcs)
      have hlexes := (ih x List.mem_cons_self _ (stops_cons.2 rfl) (absurd · hx)).before hsel
      simpa [render, errors, hx] using hlexes
  | unary pos op x =>
    have hx : Lexes (x.render.toList ++ ')' :: cs) x.pieces x.errors (')' :: cs) :=
      (ih x List.mem_cons_self).inFront hparen
    -- no rendering starts with a sign, so the operator ends in front of its operand
    have hop :
        Stops (fun c => c == '+' || c == '-' || c == '=') (x.render.toList ++ ')' :: cs) := by
      obtain ⟨c, ds, hlist, hc⟩ := exists_head (h.child List.mem_cons_self)
      rw [hlist]
      refine stops_cons.2 (Bool.eq_false_iff.2 fun hsign => ?_)
      simp only [Bool.or_eq_true, beq_iff_eq] at hsign
      rcases hsign with (rfl | rfl) | rfl <;> exact absurd hc (by decide)
    have hlexes := ((lexes_unary op hop).append hx).enclose
    simpa [render, errors] using hlexes
  | postStep s x =>
    have hstep : Stops isTailChar (s.sign.toList ++ ')' :: cs) := by
      cases s <;> exact stops_cons.2 rfl
    have hlexes := (((ih x List.mem_cons_self).inFront hstep).before (lexes_step s)).enclose
    simpa [render, errors] using hlexes
  | binary op x y =>
    have hy : Lexes (y.render.toList ++ ')' :: cs) y.pieces y.errors (')' :: cs) :=
      (ih y (List.mem_cons_of_mem _ List.mem_cons_self)).inFront hparen
    have hop := ((lexes_binary op).append hy.blank).blank
    have hlexes := (((ih x List.mem_cons_self).inFront hblank).append hop).enclose
    simpa [render, errors] using hlexes
  | assign op x y =>
    have hy : Lexes (y.render.toList ++ ')' :: cs) y.pieces y.errors (')' :: cs) :=
      (ih y (List.mem_cons_of_mem _ List.mem_cons_self)).inFront hparen
    have hop := ((lexes_assign op).append hy.blank).blank
    have hlexes := (((ih x List.mem_cons_self).inFront hblank).append hop).enclose
    simpa [render, errors] using hlexes
  | cond c x y =>
    have hy : Lexes (y.render.toList ++ ')' :: cs) y.pieces y.errors (')' :: cs) :=
      (ih y (List.mem_cons_of_mem _ (List.mem_cons_of_mem _ List.mem_cons_self))).inFront hparen
    have hcolon := (lexes_colon.append hy.blank).blank
    have hx := ((ih x (List.mem_cons_of_mem _ List.mem_cons_self)).inFront hblank).append hcolon
    have hquestion := (lexes_question.append hx.blank).blank
    have hlexes := (((ih c List.mem_cons_self).inFront hblank).append hquestion).enclose
    simpa [render, errors] using hlexes
  | seq first rest =>
    obtain ⟨hfirst, hrest⟩ := List.forall_mem_cons.1 ih
    have hall : Lexes ((renderRest rest).toList ++ ')' :: cs) _ _ _ := lexes_renderRest hrest hparen
    have hlexes := ((hfirst.inFront (stops_renderRest rest hparen)).append hall).enclose
    simpa [render, errors] using hlexes

/-! ## Selected numbers -/

/-- A selector stands behind a number somewhere in an expression. -/
def SelectsNumber (x : Expr) : Prop :=
  ∃ pos kind text sel selPos, (member (number pos kind text) sel selPos).Occurs x

/-- An expression selects from a number if a part of it does. -/
theorem SelectsNumber.of_child {x y : Expr} (hy : y ∈ x.children) (h : y.SelectsNumber) :
    x.SelectsNumber := by
  obtain ⟨pos, kind, text, sel, selPos, hocc⟩ := h
  exact ⟨pos, kind, text, sel, selPos, hocc.tail hy⟩

theorem selectsNumber_of_isNumeral {x : Expr} (sel : Swizzle) (selPos : Pos)
    (h : x.isNumeral = true) : (member x sel selPos).SelectsNumber := by
  fun_induction isNumeral x generalizing sel selPos with
  | case1 pos kind text => exact ⟨pos, kind, text, sel, selPos, .refl⟩
  | case2 x sel' selPos' ih => exact .of_child List.mem_cons_self (ih sel' selPos' h)
  | case3 => cases h

/-- The errors of several expressions are those of each in a row. -/
theorem allErrors_eq (xs : List Expr) : allErrors xs = xs.flatMap errors := by
  induction xs with
  | nil => rfl
  | cons x xs ih => rw [allErrors, ih, List.flatMap_cons]

/-- What is wrong is wrong with a part, unless a selector stands behind a number. -/
theorem errors_cases (x : Expr) : x.errors = x.children.flatMap errors ∨
    x.SelectsNumber ∧ x.errors = [.malformed x.render] := by
  cases x with
  | member x sel selPos =>
    by_cases hx : x.isNumeral = true
    · exact .inr ⟨selectsNumber_of_isNumeral sel selPos hx, by rw [errors, if_pos hx]⟩
    · exact .inl (by simp [errors, hx, children])
  | _ => exact .inl (by simp [errors, children, allErrors_eq])

/-- Something is wrong with a rendering if and only if a selector stands behind a number. -/
theorem errors_eq_nil_iff (x : Expr) : x.errors = [] ↔ ¬ x.SelectsNumber := by
  induction x using Expr.induction with
  | h x ih =>
  rcases errors_cases x with herrors | ⟨hselects, herrors⟩
  · rw [herrors, List.flatMap_eq_nil_iff]
    constructor
    · rintro hnil ⟨pos, kind, text, sel, selPos, hocc⟩
      rcases hocc.cases_tail with rfl | ⟨y, hocc, hy⟩
      · simp [errors, isNumeral, children] at herrors
      · exact (ih y hy).1 (hnil y hy) ⟨pos, kind, text, sel, selPos, hocc⟩
    · exact fun hnone y hy => (ih y hy).2 fun hy' => hnone (hy'.of_child hy)
  · rw [herrors]
    exact iff_of_false (List.cons_ne_nil _ _) (not_not.2 hselects)

/-- The only errors are numbers that are none. -/
theorem exists_malformed {x : Expr} {e : LexError} (h : e ∈ x.errors) :
    ∃ text, e = .malformed text := by
  induction x using Expr.induction with
  | h x ih =>
  rcases errors_cases x with herrors | ⟨-, herrors⟩
  · rw [herrors] at h
    obtain ⟨y, hy, he⟩ := List.mem_flatMap.1 h
    exact ih y hy he
  · rw [herrors] at h
    exact ⟨_, List.mem_singleton.1 h⟩

end Expr

/-! ## Sources -/

theorem Scan.lexemes_nil (file : String) (last : Pos) :
    lexemes file last [] = ([⟨.eof, "", last⟩], []) := by
  rw [lexemes]
  rfl

/-- The rendering of an expression as a source. -/
def Expr.source (x : Expr) (file : String) : Source := { file, bytes := x.render.toUTF8.toList }

/-- Scanning the rendering of an expression. -/
theorem Expr.scan_source (file : String) {x : Expr} (h : x.Legible) :
    ∃ (items : List Item) (e : Item), items.map Item.piece = x.pieces ∧ e.token = .eof ∧
      (x.source file).scan.items = items ++ [e] ∧
      (x.source file).scan.reports.map Report.message = x.errors.map LexError.message := by
  obtain ⟨last, s, hs, hscan⟩ := Source.exists_scan_toUTF8 file x.render
  have hlexes := x.rescans h [] stops_nil fun _ => stops_nil
  rw [List.append_nil] at hlexes
  obtain ⟨items, notices, t, hitems, hnotices, ht, hrun⟩ := hlexes file last s hs
  obtain rfl := List.map_eq_nil_iff.1 ht
  rw [Scan.lexemes_nil, List.append_nil] at hrun
  rw [Expr.source, hscan, hrun]
  refine ⟨items, _, hitems, rfl, rfl, ?_⟩
  rw [← hnotices, List.map_map, List.map_map]
  rfl

end Shader
