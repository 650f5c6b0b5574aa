import Shader.Proofs.Grammar.Names
import Shader.Proofs.Grammar.Reading

/-!
# What the productions read

Every production reads a word of its symbol, leaves the cursor where it was if it fails, and builds
a node that takes its names and places from the items of the word. `Spells` joins what is known of
the word with what is known of the node.

The productions of expressions are shown for any parser of assignments, and those of statements for
any parser of their parts; an induction on the bound then closes the circle.
-/

namespace Shader.Grammar

open Shader.Parser Ebnf

/-- A word of a right side, from which something good is built if all of its items are proper. -/
structure Spells (e : Ebnf Nonterminal) (good : Prop) (w : List Item) : Prop where
  /-- the items are a word -/
  word : Word e w
  /-- what is built from them is good -/
  good : (∀ i ∈ w, i.Proper) → good

namespace Spells

variable {e e' : Ebnf Nonterminal} {good good' : Prop} {u v w : List Item}

/-- Something weaker may be said of what is built. -/
theorem imp (h : Spells e good w) (hgood : good → good') : Spells e good' w :=
  ⟨h.word, fun hw => hgood (h.good hw)⟩

/-- The word may be read as one of another right side. -/
theorem of (h : Spells e good w) (hword : Word e w → Word e' w) : Spells e' good w :=
  ⟨hword h.word, h.good⟩

/-- Two words make one of both right sides in a row, and both parts are good. -/
theorem seq (h : Spells e good u) (h' : Spells e' good' v) :
    Spells (e ++ e') (good ∧ good') (u ++ v) :=
  ⟨.seq h.word h'.word, fun hw =>
    ⟨h.good fun i hi => hw i (List.mem_append_left _ hi),
      h'.good fun i hi => hw i (List.mem_append_right _ hi)⟩⟩

/-- A single item, whose place is good if the item is proper. -/
theorem item {kind : Item → Prop} {i : Item} (h : kind i) :
    Spells (.item kind) i.pos.isPlaced [i] :=
  ⟨.item h, fun hw => (hw i (List.mem_singleton_self i)).placed⟩

theorem tok {t : Token} {i : Item} (h : i.token = t) : Spells (tok t) i.pos.isPlaced [i] := item h

theorem delim {d : Delimiter} {i : Item} (h : i.token = .delim d) :
    Spells (Ebnf.delim d) i.pos.isPlaced [i] := item h

theorem empty : Spells .empty True [] := ⟨.empty, fun _ => trivial⟩

/-- An optional part that is not there. -/
theorem none : Spells (opt e) True [] := empty.of .right

/-- An optional part that is there. -/
theorem some (h : Spells e good w) : Spells (opt e) good w := h.of .left

/-- The place where a word starts is that of its first item. -/
theorem start {pos : Pos} (h : Spells e (pos.isPlaced → good) w) (he : e.isSolid = true)
    (hstart : ∀ i ∈ w.head?, i.pos = pos) : Spells e good w := by
  rcases w with _ | ⟨i, w⟩
  · exact absurd rfl (word_ne_nil h.word he)
  · obtain rfl : i.pos = pos := hstart i rfl
    exact ⟨h.word, fun hproper => h.good hproper (hproper i List.mem_cons_self).placed⟩

end Spells

section

variable {α β : Type} {e : Ebnf Nonterminal} {s : Parsing}

/-- A node that starts at the item at the cursor. -/
theorem partAt_start {p : Parser β} {good : β → Prop} {i : Item} {rest : List Item}
    (he : e.isSolid = true) (hleft : s.left = i :: rest)
    (h : PartAt s p fun y => Spells e (i.pos.isPlaced → good y)) :
    PartAt s p fun y => Spells e (good y) :=
  .start hleft (h.weaken fun _ _ hy => hy.start he)

/-- A node that starts at the place of the cursor, which is good if the word is proper, since solid
words are not empty. -/
theorem partAt_pos {f : Pos → Parser β} {good : β → Prop} (he : e.isSolid = true) (hs : s.Ready)
    (h : ∀ pos, PartAt s (f pos) fun y => Spells e (pos.isPlaced → good y)) :
    PartAt s (pos >>= f) fun y => Spells e (good y) :=
  .pos hs fun pos => (h pos).weaken fun _ _ hy => hy.start he

theorem productionAt_pos {f : Pos → Parser β} {good : β → Prop} (he : e.isSolid = true)
    (hs : s.Ready) (h : ∀ pos, ProductionAt s (f pos) fun y => Spells e (pos.isPlaced → good y)) :
    ProductionAt s (pos >>= f) fun y => Spells e (good y) :=
  .pos hs fun pos => (h pos).weaken fun _ _ hy => hy.start he

theorem production_expect {t : Token} (ht : t ≠ .eof) :
    Production (expect t) fun _ => Spells (tok t) True :=
  (Production.expect ht).weaken fun _ _ ⟨_, hw, hi⟩ => hw ▸ (Spells.tok hi).imp fun _ => trivial

/-- The word of a name is a single item, and a proper one has letters, digits and a place. -/
theorem production_name :
    Production name fun n => Spells (tok .name) (IsWord n.text ∧ n.pos.isPlaced) := by
  refine Production.name.weaken ?_
  rintro _ _ ⟨i, rfl, hi, rfl⟩
  refine ⟨.item hi, fun hw => ?_⟩
  have hproper := hw i (List.mem_singleton_self i)
  exact ⟨hproper.isWord hi, hproper.placed⟩

theorem production_typeName : Production typeName fun _ => Spells (item IsType) True :=
  Production.typeName.weaken fun t _ ⟨_, hw, hi⟩ =>
    hw ▸ (Spells.item ⟨t, hi⟩).imp fun _ => trivial

/-- A list reads its elements and the commas between them, and all of its elements are good. -/
theorem part_commaList {p : Parser α} {good : α → Prop} (hp : Part p fun x => Spells e (good x)) :
    ∀ n, Part (commaList p n) fun xs => Spells (list e) (∀ x ∈ xs, good x)
  | 0 => .fail
  | n + 1 => by
    refine hp.bind fun x u hx => .accept nofun (fun i hi => ?_) (.pure ?_)
    · refine (part_commaList hp n).bind fun xs v hxs => .pure ?_
      rw [List.append_nil]
      refine ((hx.seq ((Spells.delim hi).seq hxs)).imp fun h => ?_).of fun _ => ?_
      · exact List.forall_mem_cons.2 ⟨h.1, h.2.2⟩
      · exact word_list.2 (.inr ⟨u, i, v, rfl, hx.word, hi, hxs.word⟩)
    · rw [List.append_nil]
      exact (hx.imp List.forall_mem_singleton.2).of fun h => word_list.2 (.inl h)

end

/-! ## Expressions -/

/-- A word of a symbol, from which an expression is built. -/
def Reads (symbol : Nonterminal) (x : Expr) : List Item → Prop := Spells (.sub symbol) x.Placed

section Expressions

variable {a : Parser Expr} (ha : Production a (Reads .assignment)) (n : Nat)
include ha

/-- A single assignment is an expression, and so are several with commas between them. -/
theorem production_expressionOf : Production (expressionOf a n) (Reads .expression) := by
  refine ha.andThen fun x u hx => .accept nofun (fun i hi => ?_) (.pure ?_)
  · refine (part_commaList ha.part n).bind fun xs v hxs => .pure ?_
    rw [List.append_nil]
    refine ((hx.seq ((Spells.delim hi).seq hxs)).imp fun h => ?_).of fun _ => .sub ?_
    · exact ⟨h.1, Expr.allPlaced_iff.2 h.2.2⟩
    · exact word_list.2 (.inr ⟨u, i, v, rfl, hx.word, hi, hxs.word⟩)
  · rw [List.append_nil]
    exact hx.of fun h => .sub (word_list.2 (.inl h))

/-- Arguments are read up to the closing parenthesis, which may follow at once. -/
theorem production_argsOf :
    Production (argsOf a n) fun xs => Spells (.sub .args) (Expr.AllPlaced xs) := by
  intro s hs
  refine .mark (.accept hs nofun (fun i hi => ?_) (.orReset hs ?_))
  · exact ((Spells.delim hi).imp fun _ => trivial).of fun h => .sub (.left h)
  · refine (part_commaList ha.part n).bind (fun xs u hxs => ?_) s hs
    refine .expect nofun fun i hi => .pure ?_
    rw [List.append_nil]
    exact ((hxs.seq (.delim hi)).imp fun h => Expr.allPlaced_iff.2 h.1).of fun h => .sub (.right h)

/-- A name may be followed by arguments or by an index; all three forms are primary. -/
theorem part_named : Part (named a n) (Reads .primary) := by
  have hword : ∀ {u v : List Item} {place good : Prop} {x : Expr}, Spells (tok .name) place u →
      Spells (opt application) good v → (place → good → x.Placed) → Reads .primary x (u ++ v) :=
    fun hu hv hx => ((hu.seq hv).imp fun h => hx h.1 h.2).of fun h =>
      .sub (.left (.left (.left (.left (.left h)))))
  refine production_name.part.bind fun x u hx s hs => .token hs fun i rest hleft => ?_
  split
  next hi =>
    refine .advance hs hleft (hi ▸ nofun) ?_
    refine (production_argsOf ha n).part.bind fun xs v hxs => .pure ?_
    rw [List.append_nil]
    have hcall := (Spells.delim hi).seq hxs
    exact hword hx (hcall.of fun h => .left (.left h)) fun hx h => ⟨hx.2, h.2⟩
  next hi =>
    refine .advance hs hleft (hi ▸ nofun) ?_
    refine (production_expressionOf ha n).part.bind fun y v hy => ?_
    refine .expect nofun fun j hj => .pure ?_
    rw [List.append_nil]
    have hindex := (Spells.delim hi).seq (hy.seq (.delim hj))
    exact hword hx (hindex.of fun h => .left (.right (word_assoc.2 h))) fun hx h =>
      ⟨hx.2, h.2.1⟩
  next => exact .pure hs (hword hx .none fun hx _ => hx.2)

/-- The node of a construction starts at its type. -/
theorem part_construction : Part (construction a n) (Reads .primary) := by
  refine fun s hs => partAt_pos rfl hs fun pos => ?_
  refine production_typeName.part.bind (fun t u ht => ?_) s hs
  refine .expect nofun fun i hi => (production_argsOf ha n).part.bind fun xs v hxs => .pure ?_
  rw [List.append_nil]
  exact ((ht.seq ((Spells.delim hi).seq hxs)).imp fun h hpos => ⟨hpos, h.2.2⟩).of fun h =>
    .sub (.left (.left (.left (.left (.right (word_assoc.2 h))))))

/-- Parentheses leave no node of their own. -/
theorem part_enclosed : Part (enclosed a n) (Reads .primary) := by
  refine .expect nofun fun i hi => (production_expressionOf ha n).part.bind fun x u hx => ?_
  refine .expect nofun fun j hj => .pure ?_
  rw [List.append_nil]
  exact (((Spells.delim hi).seq (hx.seq (.delim hj))).imp fun h => h.2.1).of fun h =>
    .sub (.right (word_assoc.2 h))

/-- The first token tells which form of a primary expression is read. -/
theorem production_primaryOf : Production (primaryOf a n) (Reads .primary) := by
  refine fun s hs => .mark (.current hs fun i rest hleft => ?_)
  split
  next => exact .orReset hs (part_named ha n s hs)
  next => exact .orReset hs (part_construction ha n s hs)
  next hi =>
    refine .advance hs hleft (hi ▸ nofun) ?_
    exact (Spells.item ⟨_, hi⟩).of fun h => .sub (.left (.left (.left (.right h))))
  next hi =>
    exact .advance hs hleft (hi ▸ nofun)
      ((Spells.tok hi).of fun h => .sub (.left (.left (.right h))))
  next hi =>
    exact .advance hs hleft (hi ▸ nofun) ((Spells.tok hi).of fun h => .sub (.left (.right h)))
  next => exact .orReset hs (part_enclosed ha n s hs)
  next => exact .fail hs

omit ha in
/-- Selections read selectors and at the end perhaps a step. What they select from is placed by the
caller, so they only say how that goes on. -/
theorem part_selections : ∀ (n : Nat) (x : Expr), Part (selections x n) fun y =>
    Spells (many (delim .dot ++ item IsSelector) ++ opt (item IsStep)) (x.Placed → y.Placed)
  | 0, _ => .fail
  | n + 1, x => by
    refine fun s hs => .token hs fun i rest hleft => ?_
    split
    next step hi =>
      refine .advance hs hleft (hi ▸ nofun) (.pure ?_)
      have hstep : Word (item IsStep) [i] := .item ⟨step, hi⟩
      exact ⟨word_append.2 ⟨[], [i], rfl, .done, .left hstep⟩, fun _ h => h⟩
    next hi =>
      refine .advance hs hleft (hi ▸ nofun) ?_
      refine Production.name.part.bind fun sel u hsel => ?_
      obtain ⟨j, rfl, hj, rfl⟩ := hsel
      dsimp only
      split
      next sel hsel =>
        refine (part_selections n (.member x sel j.pos)).weaken fun y v hy => ?_
        have hj : Spells (item IsSelector) j.pos.isPlaced [j] := .item ⟨hj, sel, hsel⟩
        have hmember := (Spells.delim hi).seq hj
        refine ((hmember.seq hy).imp fun h hx => h.2 ⟨hx, h.1.2⟩).of fun _ => ?_
        obtain ⟨v₁, v₂, rfl, hv₁, hv₂⟩ := word_append.1 hy.word
        exact word_append.2 ⟨_, v₂, (List.append_assoc _ _ _).symm, .more hmember.word hv₁, hv₂⟩
      next => exact .fail
    next =>
      refine .pure hs ?_
      exact ⟨.seq .done (.right .empty), fun _ h => h⟩

/-- A primary expression with its selections. -/
theorem production_selectionOf :
    Production (selectionOf (primaryOf a n) n) (Reads .selection) := by
  refine (production_primaryOf ha n).andThen fun x u hx => ?_
  refine (part_selections n x).weaken fun y v hy => ?_
  exact ((hx.seq hy).imp fun h => h.2 h.1).of fun h => .sub (word_assoc.2 h)

omit ha in
/-- Signs are read one at a time, and the operand behind the last of them is a selection. -/
theorem production_unaryOf {p : Parser Expr} (hp : Production p (Reads .selection)) :
    ∀ n, Production (unaryOf p n) (Reads .unary)
  | 0 => fun _ hs => .fail hs
  | n + 1 => by
    refine fun s hs => .current hs fun i rest hleft => ?_
    split
    next op hi =>
      refine .mark (.orReset hs (.advance hs hleft (unaryOp?_ne_eof hi) ?_))
      refine (production_unaryOf hp n).part.bind fun x u hx => .pure ?_
      rw [List.append_nil]
      exact (((Spells.item ⟨op, hi⟩).seq hx).imp fun h => h).of fun h => .sub (.left h)
    next => exact (hp s hs).weaken fun x w hx => hx.of fun h => .sub (.right h)

/-- Unary expressions over any parser of assignments. -/
theorem production_unaryWith : Production (unaryWith a n) (Reads .unary) :=
  production_unaryOf (production_selectionOf ha n) n

omit ha in
/-- Operators of one level and their right operands, each of which becomes the root of what has been
read. -/
theorem part_chain {p : Parser Expr} {symbol : Nonterminal} {level : Nat}
    (hp : Production p (Reads symbol)) : ∀ (n : Nat) (x : Expr), Part (chain level p x n) fun y =>
    Spells (many (item (IsBinaryOp level) ++ sub symbol)) (x.Placed → y.Placed)
  | 0, _ => .fail
  | n + 1, x => by
    refine fun s hs => .token hs fun i rest hleft => ?_
    split
    next op hi =>
      refine .advance hs hleft (binaryOp?_ne_eof hi) (hp.part.bind fun y u hy => ?_)
      refine (part_chain hp n (.binary op x y)).weaken fun z v hz => ?_
      have hop : IsBinaryOp level i := ⟨op, hi⟩
      have hoperand := (Spells.item hop).seq hy
      refine ((hoperand.seq hz).imp fun h hx => h.2 ⟨hx, h.1.2⟩).of fun _ => ?_
      exact .more hoperand.word hz.word
    next =>
      refine .pure hs ?_
      exact ⟨.done, fun _ h => h⟩

omit ha in
/-- The levels follow the symbols of the grammar one by one, down to unary expressions. -/
theorem production_binaryOf {p : Parser Expr} (hp : Production p (Reads .unary)) (n : Nat) :
    ∀ k, Production (binaryOf p n k) (Reads (.binary k))
  | 0 => hp.weaken fun _ _ hx => hx.of fun h => .sub h
  | k + 1 => by
    refine (production_binaryOf hp n k).andThen fun x u hx => ?_
    refine (part_chain (production_binaryOf hp n k) n x).weaken fun y v hy => ?_
    exact ((hx.seq hy).imp fun h => h.2 h.1).of fun h => .sub h

/-- A condition may be followed by two branches, the second of which is an assignment again. -/
theorem production_conditionalOf {p : Parser Expr} (hp : Production p (Reads (.binary topLevel))) :
    Production (conditionalOf p a n) (Reads .conditional) := by
  refine hp.andThen fun c u hc => .accept nofun (fun i hi => ?_) (.pure ?_)
  · refine (production_expressionOf ha n).part.bind fun x v hx => .expect nofun fun j hj => ?_
    refine ha.part.bind fun y w hy => .pure ?_
    rw [List.append_nil]
    have hchoice := (Spells.tok hi).seq (hx.seq ((Spells.tok hj).seq hy))
    refine ((hc.seq hchoice).imp fun h => ⟨h.1, h.2.2.1, h.2.2.2.2⟩).of fun _ => .sub ?_
    refine .seq hc.word (.left ?_)
    simp only [word_assoc]
    exact hchoice.word
  · exact ((hc.seq .empty).imp fun h => h.1).of fun _ => .sub (.seq hc.word (.right .empty))

end Expressions

/-- Assignments read what they should, for every bound. This closes the circle: what they are made
of is shown above for any parser of assignments, so for that with a smaller bound. -/
theorem production_assignment : ∀ n, Production (assignment n) (Reads .assignment)
  | 0 => fun _ hs => .fail hs
  | n + 1 => by
    have ih := production_assignment n
    have hbinary := production_binaryOf (production_unaryWith ih n) n topLevel
    refine (production_conditionalOf ih n hbinary).andThen fun x u hx s hs => ?_
    refine .token hs fun i rest hleft => ?_
    split
    next op hi =>
      refine .advance hs hleft (hi ▸ nofun) (ih.part.bind fun y v hy => .pure ?_)
      rw [List.append_nil]
      have hop : IsAssign i := ⟨op, hi⟩
      have hassign := (Spells.item hop).seq hy
      exact ((hx.seq hassign).imp fun h => ⟨h.1, h.2.2⟩).of fun _ =>
        .sub (.seq hx.word (.left hassign.word))
    next =>
      refine .pure hs ?_
      exact ((hx.seq .empty).imp fun h => h.1).of fun _ => .sub (.seq hx.word (.right .empty))

section

variable (n : Nat)

theorem production_expression : Production (expression n) (Reads .expression) :=
  production_expressionOf (production_assignment n) n

theorem production_args :
    Production (args n) fun xs => Spells (.sub .args) (Expr.AllPlaced xs) :=
  production_argsOf (production_assignment n) n

theorem production_primary : Production (primary n) (Reads .primary) :=
  production_primaryOf (production_assignment n) n

theorem production_selection : Production (selection n) (Reads .selection) :=
  production_selectionOf (production_assignment n) n

theorem production_unary : Production (unary n) (Reads .unary) :=
  production_unaryWith (production_assignment n) n

theorem production_binary (levels : Nat) : Production (binary n levels) (Reads (.binary levels)) :=
  production_binaryOf (production_unary n) n levels

theorem production_conditional : Production (conditional n) (Reads .conditional) :=
  production_conditionalOf (production_assignment n) n (production_binary n topLevel)

end

/-! ## Statements -/

section

variable (n : Nat)

/-- A declaration with or without `const` and with or without a value. -/
theorem production_varSpec : Production (varSpec n) fun d => Spells (.sub .varSpec) d.Placed := by
  refine fun s hs => .mark (productionAt_pos rfl hs fun pos => .orReset hs ?_)
  -- what follows the qualifier, which may not be there
  have hrest : ∀ (isConst : Bool) (q : List Item) (place : Prop),
      Spells (opt (word .const)) place q → Part (do
        let type ← typeName
        let name ← name
        if ← accept (.assign none) then
          let init ← assignment n
          return { pos, isConst, type, name, init := some init }
        else return ({ pos, isConst, type, name, init := none } : VarDecl)) fun d w =>
      Spells (.sub .varSpec) (pos.isPlaced → d.Placed) (q ++ w) := by
    intro isConst q place hq
    refine production_typeName.part.bind fun t u ht => production_name.part.bind fun x v hx => ?_
    refine .accept nofun (fun i hi => ?_) (.pure ?_)
    · refine (production_assignment n).part.bind fun y w hy => .pure ?_
      rw [List.append_nil]
      refine ((hq.seq (ht.seq (hx.seq ((Spells.tok hi).seq hy).some))).imp fun h hpos => ?_).of
        fun h => .sub ?_
      · exact ⟨h.2.2.1.1, hpos, h.2.2.1.2, fun z hz => Option.some.inj hz ▸ h.2.2.2.2⟩
      · simpa only [rule, word_assoc] using h
    · have hnone : Spells (opt (tok (.assign none) ++ sub .assignment)) True [] := .none
      refine ((hq.seq (ht.seq (hx.seq hnone))).imp fun h hpos => ?_).of fun h => .sub ?_
      · exact ⟨h.2.2.1.1, hpos, h.2.2.1.2, nofun⟩
      · simpa only [rule, word_assoc] using h
  refine Part.accepted (t := .keyword .const) nofun (fun i hi => ?_) ?_ s hs
  · exact hrest true [i] _ (Spells.tok hi).some
  · exact hrest false [] _ .none

/-- A declaration and its semicolon. -/
theorem production_varDecl : Production (varDecl n) fun d => Spells varForm d.Placed := by
  refine (production_varSpec n).andThen fun d u hd => .expect nofun fun i hi => .pure ?_
  rw [List.append_nil]
  exact (hd.seq (.delim hi)).imp fun h => h.1

/-- A condition in parentheses, which leave no node. -/
theorem part_test : Part (test n) fun x => Spells condition x.Placed := by
  refine .expect nofun fun i hi => (production_expression n).part.bind fun x u hx => ?_
  refine .expect nofun fun j hj => .pure ?_
  rw [List.append_nil]
  exact (((Spells.delim hi).seq (hx.seq (.delim hj))).imp fun h => h.2.1).of word_assoc.2

/-- A clause of a loop may be missing, and is placed if it is there. -/
theorem part_optional (t : Token) : Part (optional n t) fun x =>
    Spells (opt (sub .expression)) (∀ y ∈ x, y.Placed) := by
  refine fun s hs => .token hs fun i rest hleft => ?_
  split
  · refine .pure hs ?_
    exact Spells.none.imp fun _ => nofun
  · refine ((production_expression n).part.bind fun x u hx => .pure ?_) s hs
    rw [List.append_nil]
    exact hx.some.imp fun h y hy => Option.some.inj hy ▸ h

theorem production_exprStmt : Production (exprStmt n) fun x => Spells exprForm x.Placed := by
  refine (production_expression n).andThen fun x u hx => .expect nofun fun i hi => .pure ?_
  rw [List.append_nil]
  exact (hx.seq (.delim hi)).imp fun h => h.1

/-- A `return` stands in front of a value or of the semicolon. -/
theorem production_returnStmt : Production (returnStmt n) fun x => Spells returnForm x.Placed := by
  refine fun s hs => .mark (productionAt_pos rfl hs fun pos => ?_)
  refine (production_expect (t := .keyword .return) nofun s hs).andThen hs fun _ u hu => ?_
  refine .accept nofun (fun i hi => .pure ?_) ?_
  · exact ((hu.seq (Spells.none.seq (.delim hi))).imp fun _ hpos => ⟨hpos, nofun⟩).of word_assoc.2
  · refine (production_expression n).part.bind fun x v hx => .expect nofun fun i hi => .pure ?_
    rw [List.append_nil]
    exact ((hu.seq (hx.some.seq (.delim hi))).imp fun h hpos =>
      ⟨hpos, fun y hy => Option.some.inj hy ▸ h.2.1⟩).of word_assoc.2

/-- A loop starts with a declaration, with an expression or with nothing. -/
theorem part_forInit : Part (forInit n) fun x =>
    Spells (opt (sub .varSpec ||| sub .expression)) x.Placed := by
  refine fun s hs => .token hs fun i rest hleft => ?_
  split
  · refine .pure hs ?_
    exact .none
  · have hvar : Production (do let d ← varSpec n; return ForInit.var d) fun x =>
        Spells (opt (sub .varSpec ||| sub .expression)) x.Placed := fun s hs =>
      (production_varSpec n s hs).map fun d w hd => hd.of fun h => .left (.left h)
    have hexpr : Production (do let x ← expression n; return ForInit.expr x) fun x =>
        Spells (opt (sub .varSpec ||| sub .expression)) x.Placed := fun s hs =>
      (production_expression n s hs).map fun x w hx => hx.of fun h => .left (.right h)
    exact (hvar.orElse hexpr).part s hs

/-- A declaration is tried before an expression. -/
theorem production_simpleStmt :
    Production (simpleStmt n) fun x => Spells (varForm ||| exprForm) x.Placed := by
  refine .orElse (fun s hs => (production_varDecl n s hs).map fun d w hd => ?_) ?_
  · exact hd.of .left
  · exact (production_exprStmt n).weaken fun x w hx => hx.of .right

end

/-- The token in front is not looked at, so it may be any but the last. -/
theorem productionAt_branchStmt {s : Parsing} {i : Item} {rest : List Item} (hs : s.Ready)
    (hleft : s.left = i :: rest) : ProductionAt s branchStmt fun x w =>
    ∃ j, w = [i, j] ∧ j.token = .delim .semi ∧ x = .branch i.pos i.token := by
  refine .mark (.congr (current_bind hs hleft) (.orReset hs ?_))
  by_cases hrest : rest = []
  · subst hrest
    have hexpect : expect (.delim .semi) s = (none, s) :=
      accept_bind_neg hs hleft fun h => hs.rest_ne_nil hleft (h ▸ nofun) rfl
    refine PartAt.congr (q := fail) ?_ (ProductionAt.fail hs).1
    rw [bind_some (advance_last hs hleft), bind_none hexpect]
    rfl
  · refine .step hs hleft hrest (.expect nofun fun j hj => .pure ?_)
    exact ⟨j, rfl, hj, rfl⟩

/-- A branch is any item with a semicolon behind it, since the callers have looked at the item. -/
theorem production_branchStmt : Production branchStmt fun x w =>
    ∃ i j, w = [i, j] ∧ j.token = .delim .semi ∧ x = .branch i.pos i.token := by
  intro s hs
  obtain ⟨i, rest, hleft, -⟩ := hs.exists_cons
  exact (productionAt_branchStmt hs hleft).weaken fun _ _ h => ⟨i, h⟩

section Statements

variable {p : Parser Stmt} (hp : Production p fun x => Spells (.sub .stmt) x.Placed)
include hp

/-- Statements are read up to the closing brace. -/
theorem part_stmtsOf : ∀ n, Part (stmtsOf p n) fun xs =>
    Spells (many (sub .stmt) ++ delim .rbrace) (Stmt.AllPlaced xs)
  | 0 => .fail
  | n + 1 => by
    refine .accept nofun (fun i hi => .pure ?_) ?_
    · exact ⟨word_append.2 ⟨[], [i], rfl, .done, .item hi⟩, fun _ => trivial⟩
    · refine hp.part.bind fun x u hx => (part_stmtsOf n).bind fun xs v hxs => .pure ?_
      rw [List.append_nil]
      refine (hx.seq hxs).of fun _ => ?_
      obtain ⟨v₁, v₂, rfl, hv₁, hv₂⟩ := word_append.1 hxs.word
      exact word_append.2 ⟨_, v₂, (List.append_assoc _ _ _).symm, .more hx.word hv₁, hv₂⟩

variable (n : Nat)

/-- A block stands at its brace. -/
theorem production_blockOf : Production (blockOf p n) fun x =>
    Spells (.sub .block) (x.1.isPlaced ∧ Stmt.AllPlaced x.2) := by
  refine fun s hs => .mark (productionAt_pos rfl hs fun pos => ?_)
  refine (production_expect (t := .delim .lbrace) nofun s hs).andThen hs fun _ u hu => ?_
  refine (part_stmtsOf hp n).bind fun xs v hxs => .pure ?_
  rw [List.append_nil]
  exact ((hu.seq hxs).imp fun h hpos => ⟨hpos, h.2⟩).of fun h => .sub (word_assoc.2 h)

/-- A second branch may be missing. -/
theorem production_ifStmtOf : Production (ifStmtOf p n) fun x => Spells ifForm x.Placed := by
  refine fun s hs => .mark (productionAt_pos rfl hs fun pos => .orReset hs ?_)
  refine Part.expect (t := .keyword .if) nofun (fun i hi => ?_) s hs
  refine (part_test n).bind fun c u hc => hp.part.bind fun x v hx => ?_
  refine .accept nofun (fun j hj => hp.part.bind fun y w hy => .pure ?_) (.pure ?_)
  · rw [List.append_nil]
    refine (((Spells.tok hi).seq (hc.seq (hx.seq ((Spells.tok hj).seq hy).some))).imp fun h hpos =>
      ?_).of fun h => ?_
    · exact ⟨hpos, h.2.1, h.2.2.1, h.2.2.2.2⟩
    · simp only [ifForm, word_assoc]
      exact h
  · have hnone : Spells (opt (word .else ++ sub .stmt)) True [] := .none
    refine (((Spells.tok hi).seq (hc.seq (hx.seq hnone))).imp fun h hpos => ?_).of fun h => ?_
    · exact ⟨hpos, h.2.1, h.2.2.1⟩
    · simp only [ifForm, word_assoc]
      exact h

/-- All three clauses of a loop may be missing, but not its two semicolons. -/
theorem production_forStmtOf : Production (forStmtOf p n) fun x => Spells forForm x.Placed := by
  refine fun s hs => .mark (productionAt_pos rfl hs fun pos => .orReset hs ?_)
  refine Part.expect (t := .keyword .for) nofun (fun i₁ h₁ => ?_) s hs
  refine .expect nofun fun i₂ h₂ => ?_
  refine (part_forInit n).bind fun init u hinit => .expect nofun fun i₃ h₃ => ?_
  refine (part_optional n _).bind fun c v hc => .expect nofun fun i₄ h₄ => ?_
  refine (part_optional n _).bind fun post w hpost => .expect nofun fun i₅ h₅ => ?_
  refine hp.part.bind fun x z hx => .pure ?_
  rw [List.append_nil]
  have hloop := (Spells.tok h₁).seq ((Spells.delim h₂).seq (hinit.seq ((Spells.delim h₃).seq
    (hc.seq ((Spells.delim h₄).seq (hpost.seq ((Spells.delim h₅).seq hx)))))))
  refine (hloop.imp fun h hpos => ?_).of fun h => ?_
  · obtain ⟨-, -, hinit, -, hc, -, hpost, -, hx⟩ := h
    exact ⟨hpos, hinit, hc, hpost, hx⟩
  · simp only [forForm, word_assoc]
    exact h

theorem production_whileStmtOf :
    Production (whileStmtOf p n) fun x => Spells whileForm x.Placed := by
  refine fun s hs => .mark (productionAt_pos rfl hs fun pos => .orReset hs ?_)
  refine Part.expect (t := .keyword .while) nofun (fun i hi => ?_) s hs
  refine (part_test n).bind fun c u hc => hp.part.bind fun x v hx => .pure ?_
  rw [List.append_nil]
  refine (((Spells.tok hi).seq (hc.seq hx)).imp fun h hpos => ?_).of fun h => ?_
  · exact ⟨hpos, h.2.1, h.2.2⟩
  · simp only [whileForm, word_assoc]
    exact h

theorem production_doStmtOf : Production (doStmtOf p n) fun x => Spells doForm x.Placed := by
  refine fun s hs => .mark (productionAt_pos rfl hs fun pos => ?_)
  refine (production_expect (t := .keyword .do) nofun s hs).andThen hs fun _ u hu => ?_
  refine hp.part.bind fun x v hx => .expect nofun fun i hi => ?_
  refine (part_test n).bind fun c w hc => .expect nofun fun j hj => .pure ?_
  rw [List.append_nil]
  have hloop := hu.seq (hx.seq ((Spells.tok hi).seq (hc.seq (.delim hj))))
  refine (hloop.imp fun h hpos => ?_).of fun h => ?_
  · exact ⟨hpos, h.2.1, h.2.2.2.1⟩
  · simp only [doForm, word_assoc]
    exact h

/-- The first token tells which form of a statement is read. -/
theorem production_stmtOf :
    Production (stmtOf p n) fun x => Spells (.sub .stmt) x.Placed := by
  refine fun s hs => .current hs fun i rest hleft => ?_
  -- two tokens open a branch, and both are read by one production
  have hbranch : Word (word .break ||| word .continue) [i] →
      ProductionAt s branchStmt fun x => Spells (.sub .stmt) x.Placed := by
    refine fun hi => (productionAt_branchStmt hs hleft).weaken fun x w hw => ?_
    obtain ⟨j, rfl, hj, rfl⟩ := hw
    have hform : Word branchForm [i, j] := word_append.2 ⟨[i], [j], rfl, hi, .item hj⟩
    exact ⟨.sub (.left (.left (.left (.right hform)))), fun h => (h i List.mem_cons_self).placed⟩
  split
  next =>
    exact (production_blockOf hp n s hs).map fun x w hx => hx.of fun h =>
      .sub (.left (.left (.left (.left (.left (.left (.left (.left (.left h)))))))))
  next hi =>
    refine .advance hs hleft (hi ▸ nofun) ?_
    exact (Spells.delim hi).of fun h =>
      .sub (.left (.left (.left (.left (.left (.left (.left (.left (.right h)))))))))
  next =>
    exact (production_ifStmtOf hp n s hs).weaken fun x w hx => hx.of fun h =>
      .sub (.left (.left (.left (.left (.left (.left (.left (.right h))))))))
  next =>
    exact (production_forStmtOf hp n s hs).weaken fun x w hx => hx.of fun h =>
      .sub (.left (.left (.left (.left (.left (.left (.right h)))))))
  next =>
    exact (production_whileStmtOf hp n s hs).weaken fun x w hx => hx.of fun h =>
      .sub (.left (.left (.left (.left (.left (.right h))))))
  next =>
    exact (production_doStmtOf hp n s hs).weaken fun x w hx => hx.of fun h =>
      .sub (.left (.left (.left (.left (.right h)))))
  next hi => exact hbranch (.left (.item hi))
  next hi => exact hbranch (.right (.item hi))
  next =>
    exact (production_returnStmt n s hs).weaken fun x w hx => hx.of fun h =>
      .sub (.left (.left (.right h)))
  next =>
    refine (production_simpleStmt n s hs).weaken fun x w hx => hx.of fun h => .sub ?_
    rcases word_or.1 h with h | h
    · exact .left (.right h)
    · exact .right h

end Statements

/-- Statements read what they should, for every bound: what they are made of is shown for any parser
of statements. -/
theorem production_stmt : ∀ n, Production (stmt n) fun x => Spells (.sub .stmt) x.Placed
  | 0 => fun _ hs => .fail hs
  | n + 1 => production_stmtOf (production_stmt n) n

section

variable (n : Nat)

theorem production_block : Production (block n) fun x =>
    Spells (.sub .block) (x.1.isPlaced ∧ Stmt.AllPlaced x.2) :=
  production_blockOf (production_stmt n) n

theorem production_ifStmt : Production (ifStmt n) fun x => Spells ifForm x.Placed :=
  production_ifStmtOf (production_stmt n) n

theorem production_forStmt : Production (forStmt n) fun x => Spells forForm x.Placed :=
  production_forStmtOf (production_stmt n) n

theorem production_whileStmt : Production (whileStmt n) fun x => Spells whileForm x.Placed :=
  production_whileStmtOf (production_stmt n) n

theorem production_doStmt : Production (doStmt n) fun x => Spells doForm x.Placed :=
  production_doStmtOf (production_stmt n) n

end

/-! ## Definitions -/

/-- The value of a layout identifier is a whole number that fits into a word. -/
theorem production_intLit : Production intLit fun _ => Spells (item IsSmall) True := by
  refine fun s hs => .current hs fun i rest hleft => ?_
  split
  next hi =>
    dsimp only
    split
    next hlt =>
      refine .advance hs hleft (hi ▸ nofun) ?_
      exact (Spells.item (⟨hi, hlt⟩ : IsSmall i)).imp fun _ => trivial
    next => exact .fail hs
  next => exact .fail hs

/-- Both kinds of layout identifiers take a value. -/
theorem part_layoutEntry : Part layoutEntry fun _ => Spells (.sub .layoutEntry) True := by
  have hrest : ∀ {i : Item}, Word (word .location ||| word .binding) [i] → Part (do
      expect (.assign none)
      let value ← intLit
      return (⟨i.text, value⟩ : LayoutEntry)) fun _ w =>
        Spells (.sub .layoutEntry) True ([i] ++ w) := by
    intro i hi
    refine .expect nofun fun j hj => production_intLit.part.bind fun x u hx => .pure ?_
    rw [List.append_nil]
    have hj : Word (tok (.assign none)) [j] := .item hj
    exact ⟨.sub (word_assoc.2 (.seq hi (.seq hj hx.word))), fun _ => trivial⟩
  refine fun s hs => .current hs fun i rest hleft => ?_
  split
  next hi => exact .advance hs hleft (hi ▸ nofun) (hrest (.left (.item hi)))
  next hi => exact .advance hs hleft (hi ▸ nofun) (hrest (.right (.item hi)))
  next => exact (ProductionAt.fail hs).1

/-- A layout is a list of identifiers with values. -/
theorem production_layout (n : Nat) :
    Production (layout n) fun _ => Spells (.sub .layout) True := by
  refine .whole (.expect nofun fun i hi => .expect nofun fun j hj => ?_)
  refine (part_commaList part_layoutEntry n).bind fun xs u hxs => .expect nofun fun k hk => .pure ?_
  rw [List.append_nil]
  refine (((Spells.tok hi).seq ((Spells.delim hj).seq (hxs.seq (.delim hk)))).imp fun _ =>
    trivial).of fun h => .sub ?_
  simp only [rule, word_assoc]
  exact h

/-- A parameter stands at its storage if there is one, and otherwise at its type. -/
theorem production_param : Production param fun x => Spells (.sub .param) x.Placed := by
  refine fun s hs => .mark (.current hs fun i rest hleft => .orReset hs ?_)
  refine partAt_start rfl hleft ?_
  -- what follows the qualifier, which may not be there
  have hrest : ∀ (storage : Storage) (q : List Item) (place : Prop),
      Spells (opt (word .in ||| word .out)) place q → Part (do
        let type ← typeName
        let name ← name
        return ({ pos := i.pos, storage, type, name } : Param)) fun x w =>
      Spells (.sub .param) (i.pos.isPlaced → x.Placed) (q ++ w) := by
    intro storage q place hq
    refine production_typeName.part.bind fun t u ht => production_name.part.bind fun x v hx => ?_
    refine .pure ?_
    rw [List.append_nil]
    refine ((hq.seq (ht.seq hx)).imp fun h hpos => ⟨hpos, h.2.2.2⟩).of fun h => .sub ?_
    exact word_assoc.2 h
  dsimp only
  split
  next hi =>
    exact .advance hs hleft (hi ▸ nofun) (hrest _ [i] _ ⟨.left (.left (.item hi)), fun h => h⟩)
  next hi =>
    exact .advance hs hleft (hi ▸ nofun) (hrest _ [i] _ ⟨.left (.right (.item hi)), fun h => h⟩)
  next => exact hrest _ [] _ .none s hs

/-- No parameters are written as nothing or as `void`, which is one only with a parenthesis behind
it. -/
theorem production_paramList (n : Nat) :
    Production (paramList n) fun xs => Spells (.sub .params) (∀ x ∈ xs, x.Placed) := by
  refine fun s hs => .mark (.accept hs nofun (fun i hi => ?_) (.token hs fun i rest hleft => ?_))
  · exact ((Spells.delim hi).imp fun _ => List.forall_mem_nil _).of fun h => .sub (.left (.left h))
  have hlist : ProductionAt s (orReset s.stream.cursor do
      let params ← commaList param n
      expect (.delim .rparen)
      return params) fun xs => Spells (.sub .params) (∀ x ∈ xs, x.Placed) := by
    refine .orReset hs ((part_commaList production_param.part n).bind (fun xs u hxs => ?_) s hs)
    refine .expect nofun fun i hi => .pure ?_
    rw [List.append_nil]
    exact ((hxs.seq (.delim hi)).imp fun h => h.1).of fun h => .sub (.right h)
  rcases rest with _ | ⟨j, rest⟩
  · refine .congr (bind_some (peek_one_last hs hleft)) ?_
    rw [if_neg fun h => nomatch h.1.symm.trans h.2]
    exact hlist
  · refine .congr (bind_some (peek_one_run hs hleft)) ?_
    split
    next h =>
      obtain ⟨hi, hj⟩ := h
      obtain ⟨s₁, hrun₁, hgoes₁, hleft₁⟩ := exists_advance hs hleft (hi ▸ nofun)
      obtain ⟨s₂, hrun₂, hgoes₂, hleft₂⟩ := exists_advance hgoes₁.ready hleft₁ (hj ▸ nofun)
      refine .of_run (x := []) (w := [i, j]) ?_ (hgoes₁.trans hgoes₂)
        (by rw [hleft, hleft₂]; rfl) ?_
      · exact (bind_some hrun₁).trans (bind_some hrun₂)
      · have hvoid : Word (tok (.typeName .void) ++ delim .rparen) [i, j] :=
          word_append.2 ⟨[i], [j], rfl, .item hi, .item hj⟩
        exact ⟨.sub (.left (.right hvoid)), fun _ => List.forall_mem_nil _⟩
    next => exact hlist

/-- The header of a function and its body. -/
theorem production_funcDecl (n : Nat) :
    Production (funcDecl n) fun f => Spells funcForm f.Proper := by
  refine fun s hs => .mark (productionAt_pos rfl hs fun pos => ?_)
  refine (production_typeName s hs).andThen hs fun t u ht => ?_
  refine production_name.part.bind fun x v hx => .expect nofun fun i hi => ?_
  refine (production_paramList n).part.bind fun ps w hps => ?_
  refine (production_block n).part.bind fun b z hb => .pure ?_
  rw [List.append_nil]
  refine ((ht.seq (hx.seq ((Spells.delim hi).seq (hps.seq hb)))).imp fun h _ => ?_).of fun h => ?_
  · obtain ⟨-, hname, -, hparams, hbody⟩ := h
    exact ⟨hname.1, hname.2, hparams, hbody.2⟩
  · simp only [funcForm, word_assoc]
    exact h

/-- A storage may be missing. -/
theorem part_storage :
    Part storage fun _ => Spells (opt (word .uniform ||| word .in ||| word .out)) True := by
  refine fun s hs => .token hs fun i rest hleft => ?_
  split
  next hi =>
    refine .advance hs hleft (hi ▸ nofun) (.pure ?_)
    exact ⟨.left (.left (.left (.item hi))), fun _ => trivial⟩
  next hi =>
    refine .advance hs hleft (hi ▸ nofun) (.pure ?_)
    exact ⟨.left (.left (.right (.item hi))), fun _ => trivial⟩
  next hi =>
    refine .advance hs hleft (hi ▸ nofun) (.pure ?_)
    exact ⟨.left (.right (.item hi)), fun _ => trivial⟩
  next =>
    refine .pure hs ?_
    exact .none

/-- A layout and a storage may be missing in front of a variable. -/
theorem production_globalVar (n : Nat) :
    Production (globalVar n) fun g => Spells globalForm g.var.Placed := by
  refine fun s hs => .mark (productionAt_pos rfl hs fun pos => .orReset hs ?_)
  -- what follows the layout, which may not be there
  have hrest : ∀ (layout : List LayoutEntry) (q : List Item), Spells (opt (sub .layout)) True q →
      Part (do
        let storage ← storage
        let var ← varDecl n
        return ({ pos, layout, storage, var } : GlobalVar)) fun g w =>
      Spells globalForm (pos.isPlaced → g.var.Placed) (q ++ w) := by
    intro layout q hq
    refine part_storage.bind fun _ u hu => (production_varDecl n).part.bind fun d v hd => .pure ?_
    rw [List.append_nil]
    exact ((hq.seq (hu.seq hd)).imp fun h _ => h.2.2).of word_assoc.2
  refine .token hs fun i rest hleft => ?_
  dsimp only
  split
  next => exact (production_layout n).part.bind (fun entries u hu => hrest _ u hu.some) s hs
  next => exact hrest _ [] .none s hs

/-- A function is tried before a variable, as both start with a type and a name. -/
theorem production_definition (n : Nat) :
    Production (definition n) fun d => Spells (.sub .definition) d.Proper := by
  refine .orElse (fun s hs => ?_) fun s hs => ?_
  · exact (production_funcDecl n s hs).map fun f w hf => hf.of fun h => .sub (.left h)
  · exact (production_globalVar n s hs).map fun g w hg => hg.of fun h => .sub (.right h)

end Shader.Grammar
