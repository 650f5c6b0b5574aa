import Shader.Proofs.Grammar.Shaders
import Shader.Tree.Walk

/-!
# Walks over parsed shaders

A walk over a parsed shader visits its names and numbers in the order of the text, and all of them:
only the number of the version and the values of layouts are no nodes. No node starts in front of
the one that is visited before it, since a node starts with its first item.

`Mirrors` says this of the nodes that are visited one after another and of the items that they have
been read from. It is kept where nodes are put behind each other and where a node is put over
others, so it is followed through all productions.
-/

namespace Shader

open Node

/-! ## The names and numbers of a text -/

/-- The item that a name is. -/
def Name.item (n : Name) : Item := ⟨.name, n.text, n.pos⟩

/-- Whether a number behind some tokens, the nearest one first, is that of a version or the value of
a layout key. -/
def annotates : List Token → Bool
  | .version :: _ => true
  | .assign none :: .keyword .location :: _ => true
  | .assign none :: .keyword .binding :: _ => true
  | _ => false

/-- An item is a number. -/
def Item.isNumber (i : Item) : Bool :=
  match i.token with
  | .number _ => true
  | _ => false

/-- The name that an item is. -/
def Item.name? (i : Item) : Option Name := if i.token = .name then some ⟨i.text, i.pos⟩ else none

/-- An item is a name or a number. -/
def Item.isOperand (i : Item) : Bool := i.name?.isSome || i.isNumber

/-- The items behind some tokens without the numbers of versions and layouts. -/
def unannotated : List Token → List Item → List Item
  | _, [] => []
  | before, i :: items =>
    if i.isNumber && annotates before then unannotated (i.token :: before) items
    else i :: unannotated (i.token :: before) items

/-- The tokens behind some items and what stands in front of them, the nearest one first. -/
def tokensAfter (before : List Token) (w : List Item) : List Token :=
  w.foldl (fun before i => i.token :: before) before

/-- No number is annotated by these tokens, whether or not an equality sign follows them. -/
def Calm (before : List Token) : Prop :=
  annotates before = false ∧ annotates (.assign none :: before) = false

/-- Tokens that are no part of an annotation, equality signs apart. -/
def Token.isPlain : Token → Bool
  | version | keyword .location | keyword .binding => false
  | _ => true

/-- Plain tokens that are no names and no numbers. -/
def Token.isSilent : Token → Bool
  | name | number _ => false
  | t => t.isPlain

section

variable {before : List Token} {i : Item} {t : Token} {u v : List Item}

theorem Calm.nil : Calm [] := ⟨rfl, rfl⟩

/-- Plain tokens do not change what numbers behind them mean. -/
theorem Calm.cons (h : Calm before) (ht : t.isPlain = true) : Calm (t :: before) := by
  constructor
  · cases t with
    | version => cases ht
    | assign op =>
      cases op with
      | none => exact h.2
      | some _ => rfl
    | _ => rfl
  · cases t with
    | keyword k => cases k <;> first | rfl | cases ht
    | _ => rfl

/-- Tokens without nodes are plain. -/
theorem Token.isPlain_of_isSilent (h : t.isSilent = true) : t.isPlain = true := by
  cases t <;> first | rfl | exact h

theorem Item.not_isOperand (hi : i.token = t) (ht : t.isSilent = true) : i.isOperand = false := by
  rw [isOperand, name?, isNumber, hi]
  cases t <;> first | rfl | cases ht

theorem tokensAfter_append :
    tokensAfter before (u ++ v) = tokensAfter (tokensAfter before u) v := List.foldl_append

/-- Numbers are told apart by the tokens in front of them, so those of the first part count for the
second. -/
theorem unannotated_append :
    unannotated before (u ++ v) = unannotated before u ++ unannotated (tokensAfter before u) v := by
  induction u generalizing before with
  | nil => rfl
  | cons i u ih =>
    rw [List.cons_append, unannotated, unannotated, ih]
    split
    · rfl
    · rfl

theorem unannotated_sublist (before : List Token) (w : List Item) :
    (unannotated before w).Sublist w := by
  induction w generalizing before with
  | nil => exact .slnil
  | cons i w ih =>
    rw [unannotated]
    split
    · exact (ih _).cons i
    · exact (ih _).cons_cons i

/-- No name is left out. -/
theorem filterMap_name?_unannotated (before : List Token) (w : List Item) :
    (unannotated before w).filterMap Item.name? = w.filterMap Item.name? := by
  induction w generalizing before with
  | nil => rfl
  | cons i w ih =>
    rw [unannotated]
    split
    next h =>
      have hname : i.name? = none := by
        refine if_neg fun hi => ?_
        rw [Item.isNumber, hi] at h
        cases h
      rw [ih, List.filterMap_cons_none hname]
    next => rw [List.filterMap_cons, List.filterMap_cons, ih]

end

/-! ## Nodes -/

namespace Node

/-- Where a node starts. -/
def pos : Node → Pos
  | program p => p.pos
  | global g => g.pos
  | func f => f.pos
  | param p => p.pos
  | expr x => x.pos
  | stmt s => s.pos

/-- The name that a node is. -/
def name? : Node → Option Name
  | expr (.name n) => some n
  | _ => none

/-- The item that a node is, if it is a number. -/
def number? : Node → Option Item
  | expr (.number pos kind text) => some ⟨.number kind, text, pos⟩
  | _ => none

/-- The item that a node is, if it is a name or a number. -/
def item? (n : Node) : Option Item := (n.name?.map Name.item).or n.number?

/-- A visitor that enters every node. -/
def always : Node → Bool := fun _ => true

end Node

/-- Nodes that are visited one after another have been read from certain items: they are all of
their names and numbers, and start in the order of the text. -/
structure Mirrors (nodes : List Node) (w : List Item) : Prop where
  /-- names and numbers are nodes -/
  operands : ∀ before, Calm before →
    nodes.filterMap Node.item? = (unannotated before w).filter Item.isOperand
  /-- what is read next is no part of an annotation -/
  calm : ∀ before, Calm before → Calm (tokensAfter before w)
  /-- a node starts with an item -/
  within : ∀ n ∈ nodes, ∃ i ∈ w, n.pos = i.pos
  /-- and not in front of the node before it -/
  sorted : ∀ {r : Pos → Pos → Prop}, (∀ p, r p p) → (w.Pairwise fun i j => r i.pos j.pos) →
    nodes.Pairwise fun n m => r n.pos m.pos

namespace Mirrors

variable {nodes more : List Node} {n m : Node} {u v w : List Item} {i : Item} {t : Token}

theorem nil : Mirrors [] [] :=
  ⟨fun _ _ => rfl, fun _ h => h, List.forall_mem_nil _, fun _ _ => .nil⟩

/-- Two words in a row are mirrored by their nodes in a row. No node of the first part stands behind
one of the second, as the items do not. -/
theorem append (h : Mirrors nodes u) (h' : Mirrors more v) : Mirrors (nodes ++ more) (u ++ v) where
  operands before hbefore := by
    rw [List.filterMap_append, unannotated_append, List.filter_append, h.operands before hbefore,
      h'.operands _ (h.calm before hbefore)]
  calm before hbefore := by
    rw [tokensAfter_append]
    exact h'.calm _ (h.calm before hbefore)
  within n hn := by
    rcases List.mem_append.1 hn with hn | hn
    · exact (h.within n hn).imp fun i hi => ⟨List.mem_append_left v hi.1, hi.2⟩
    · exact (h'.within n hn).imp fun i hi => ⟨List.mem_append_right u hi.1, hi.2⟩
  sorted hrefl hsorted := by
    obtain ⟨hu, hv, hle⟩ := List.pairwise_append.1 hsorted
    refine List.pairwise_append.2 ⟨h.sorted hrefl hu, h'.sorted hrefl hv, fun n hn m hm => ?_⟩
    obtain ⟨i, hi, hni⟩ := h.within n hn
    obtain ⟨j, hj, hmj⟩ := h'.within m hm
    rw [hni, hmj]
    exact hle i hi j hj

/-- Items in front that are not visited. -/
theorem behind (h : Mirrors nodes v) (h' : Mirrors [] u) : Mirrors nodes (u ++ v) := h'.append h

/-- Items at the end that are not visited. -/
theorem before (h : Mirrors nodes u) (h' : Mirrors [] v) : Mirrors nodes (u ++ v) := by
  have happend := h.append h'
  rwa [List.append_nil] at happend

/-- A token without a node. -/
theorem tok (hi : i.token = t) (ht : t.isSilent = true) : Mirrors [] [i] where
  operands before _ := by
    have hoperand := Item.not_isOperand hi ht
    have hnumber : i.isNumber = false := (Bool.or_eq_false_iff.1 hoperand).2
    simp [unannotated, hnumber, hoperand]
  calm before hbefore := hbefore.cons (hi ▸ Token.isPlain_of_isSilent ht)
  within := List.forall_mem_nil _
  sorted _ _ := .nil

/-- A name is its own node. -/
theorem name (x : Name) : Mirrors [ofName x] [x.item] where
  operands _ _ := rfl
  calm _ hbefore := hbefore.cons rfl
  within := List.forall_mem_singleton.2 ⟨_, List.mem_singleton_self _, rfl⟩
  sorted _ _ := List.pairwise_singleton _ _

/-- A number is its own node. -/
theorem number {kind : NumberKind} (hi : i.token = .number kind) :
    Mirrors [.expr (.number i.pos kind i.text)] [i] where
  operands before hbefore := by
    obtain ⟨token, text, pos⟩ := i
    obtain rfl := hi
    simp only [unannotated, hbefore.1, Bool.and_false]
    rfl
  calm _ hbefore := hbefore.cons (hi ▸ rfl)
  within := List.forall_mem_singleton.2 ⟨_, List.mem_singleton_self _, rfl⟩
  sorted _ _ := List.pairwise_singleton _ _

/-- A number that is annotated by the items in front of it is no node. -/
theorem annotated {kind : NumberKind} (hu : ∀ j ∈ u, j.isOperand = false)
    (hnote : ∀ before, annotates (tokensAfter before u) = true) (hi : i.token = .number kind) :
    Mirrors [] (u ++ [i]) where
  operands before _ := by
    have hnumber : i.isNumber = true := by rw [Item.isNumber, hi]
    have hdropped : unannotated (tokensAfter before u) [i] = [] := by
      rw [unannotated, hnumber, hnote before]
      rfl
    have hkept : ∀ j ∈ unannotated before u, ¬ j.isOperand = true := fun j hj =>
      Bool.eq_false_iff.1 (hu j ((unannotated_sublist before u).mem hj))
    rw [unannotated_append, hdropped, List.append_nil, List.filter_eq_nil_iff.2 hkept]
    rfl
  calm before _ := by
    rw [tokensAfter_append, tokensAfter, List.foldl_cons, hi]
    exact ⟨rfl, rfl⟩
  within := List.forall_mem_nil _
  sorted _ _ := .nil

/-- The nodes are put under one that is no item and starts with the first item. -/
theorem under (h : Mirrors nodes w) (hn : n.item? = none) (hw : w ≠ [])
    (hstart : ∀ i ∈ w.head?, i.pos = n.pos) : Mirrors (n :: nodes) w := by
  obtain ⟨i, w, rfl⟩ := List.exists_cons_of_ne_nil hw
  have hi : i.pos = n.pos := hstart i rfl
  refine ⟨fun before hbefore => ?_, h.calm, List.forall_mem_cons.2 ⟨?_, h.within⟩,
    fun hrefl hsorted => ?_⟩
  · rw [List.filterMap_cons_none hn]
    exact h.operands before hbefore
  · exact ⟨i, List.mem_cons_self, hi.symm⟩
  · refine List.pairwise_cons.2 ⟨fun m hm => ?_, h.sorted hrefl hsorted⟩
    obtain ⟨j, hj, hmj⟩ := h.within m hm
    rw [hmj, ← hi]
    rcases List.mem_cons.1 hj with rfl | hj
    · exact hrefl _
    · exact (List.pairwise_cons.1 hsorted).1 j hj

/-- A node that is no item is put on top of the others; it starts where the first of them does. That
need not be at the first item: a parenthesis in front of it leaves no trace. -/
theorem atop (h : Mirrors (m :: nodes) w) (hn : n.item? = none) (hpos : n.pos = m.pos) :
    Mirrors (n :: m :: nodes) w := by
  refine ⟨fun before hbefore => ?_, h.calm, List.forall_mem_cons.2 ⟨?_, h.within⟩,
    fun hrefl hsorted => ?_⟩
  · rw [List.filterMap_cons_none hn]
    exact h.operands before hbefore
  · rw [hpos]
    exact h.within m List.mem_cons_self
  · have hm := h.sorted hrefl hsorted
    refine List.pairwise_cons.2 ⟨List.forall_mem_cons.2 ⟨hpos ▸ hrefl _, fun k hk => ?_⟩, hm⟩
    rw [hpos]
    exact (List.pairwise_cons.1 hm).1 k hk

/-- The names among the nodes are those among the items. -/
theorem names (h : Mirrors nodes w) : nodes.filterMap Node.name? = w.filterMap Item.name? := by
  have hnode : ∀ n : Node, n.item?.bind Item.name? = n.name? := by
    rintro (_ | _ | _ | _ | x | _)
    case expr => cases x <;> rfl
    all_goals rfl
  have hitem : ∀ i : Item, (if i.isOperand = true then i.name? else none) = i.name? := by
    intro i
    rw [Item.isOperand]
    cases i.name? <;> simp
  calc nodes.filterMap Node.name?
    _ = (nodes.filterMap Node.item?).filterMap Item.name? := by
      simp only [List.filterMap_filterMap, hnode]
    _ = (unannotated [] w).filterMap Item.name? := by
      simp only [h.operands [] .nil, List.filterMap_filter, hitem]
    _ = w.filterMap Item.name? := filterMap_name?_unannotated [] w

/-- The numbers among the nodes are those among the items that are not annotated. -/
theorem numbers (h : Mirrors nodes w) :
    nodes.filterMap Node.number? = (unannotated [] w).filter Item.isNumber := by
  have hnode : ∀ n : Node, n.item?.filter Item.isNumber = n.number? := by
    rintro (_ | _ | _ | _ | x | _)
    case expr => cases x <;> rfl
    all_goals rfl
  have hitem : ∀ i : Item, (i.isNumber && i.isOperand) = i.isNumber := by
    intro i
    rw [Item.isOperand]
    cases i.isNumber <;> simp
  calc nodes.filterMap Node.number?
    _ = (nodes.filterMap Node.item?).filter Item.isNumber := by
      simp only [List.filter_filterMap, hnode]
    _ = (unannotated [] w).filter Item.isNumber := by
      simp only [h.operands [] .nil, List.filter_filter, hitem]

end Mirrors

/-! ## Reading

The productions mirror what they read. Those of expressions are looked at for any parser of
assignments, and those of statements for any parser of their parts. -/

theorem Expr.exists_walk (x : Expr) (enter : Node → Bool) :
    ∃ inside, x.walk enter = .expr x :: inside := by
  cases x <;> exact ⟨_, rfl⟩

theorem Expr.walkList_eq (enter : Node → Bool) (xs : List Expr) :
    walkList enter xs = xs.flatMap (walk enter) := by
  induction xs with
  | nil => rfl
  | cons x xs ih => rw [walkList, ih, List.flatMap_cons]

/-- A node is put on top of an expression and what follows it. -/
theorem Mirrors.atopExpr {x : Expr} {nodes : List Node} {n : Node} {w : List Item}
    (h : Mirrors (x.walk always ++ nodes) w) (hn : n.item? = none) (hpos : n.pos = x.pos) :
    Mirrors (n :: (x.walk always ++ nodes)) w := by
  obtain ⟨inside, hwalk⟩ := x.exists_walk always
  rw [hwalk] at h ⊢
  exact h.atop hn hpos

/-- A node around another may stand where that one starts. -/
theorem Mirrors.atopOne {x : Expr} {n : Node} {w : List Item} (h : Mirrors (x.walk always) w)
    (hn : n.item? = none) (hpos : n.pos = x.pos) : Mirrors (n :: x.walk always) w := by
  rw [← List.append_nil (x.walk always)] at h ⊢
  exact h.atopExpr hn hpos

/-- Selectors are read from their text. -/
theorem Swizzle.text_of_ofText? {text : String} {c : Swizzle} (h : ofText? text = some c) :
    c.text = text := by
  have hfound := List.find?_some h
  exact of_decide_eq_true hfound

namespace Grammar

open Shader.Parser

/-- A name is built from its item. -/
theorem production_name_item : Production name fun n w => w = [n.item] := by
  refine Production.name.weaken ?_
  rintro _ _ ⟨i, rfl, hi, rfl⟩
  rw [Name.item, ← hi]

theorem mirrors_typeName : Production typeName fun _ => Mirrors [] := by
  refine Production.typeName.weaken ?_
  rintro t _ ⟨i, rfl, hi⟩
  exact .tok hi rfl

/-- The commas of a list have no nodes. -/
theorem mirrors_commaList {α : Type} {p : Parser α} {f : α → List Node}
    (hp : Part p fun x => Mirrors (f x)) :
    ∀ n, Part (commaList p n) fun xs => Mirrors (xs.flatMap f)
  | 0 => .fail
  | n + 1 => by
    refine hp.bind fun x u hx => .accept nofun (fun i hi => ?_) (.pure ?_)
    · refine (mirrors_commaList hp n).bind fun xs v hxs => .pure ?_
      rw [List.append_nil]
      exact hx.append (hxs.behind (.tok hi rfl))
    · exact hx.append .nil

/-! ### Expressions -/

theorem isSilent_of_unaryOp? {t : Token} {op : UnaryOp} (h : unaryOp? t = some op) :
    t.isSilent = true := by
  cases t <;> first | rfl | cases h

theorem isSilent_of_binaryOp? {level : Nat} {t : Token} {op : BinaryOp}
    (h : binaryOp? level t = some op) : t.isSilent = true := by
  cases t <;> first | rfl | cases h

section Expressions

variable {a : Parser Expr} (ha : Production a fun x => Mirrors (x.walk always)) (n : Nat)
include ha

theorem mirrors_assignments :
    Part (commaList a n) fun xs => Mirrors (Expr.walkList always xs) :=
  (mirrors_commaList ha.part n).weaken fun xs _ h => Expr.walkList_eq always xs ▸ h

/-- Expressions between commas are nodes in a row below one of their own. -/
theorem mirrors_expressionOf : Production (expressionOf a n) fun x => Mirrors (x.walk always) := by
  refine ha.andThen fun x u hx => .accept nofun (fun i hi => ?_) (.pure ?_)
  · refine (mirrors_assignments ha n).bind fun xs v hxs => .pure ?_
    rw [List.append_nil]
    exact (hx.append (hxs.behind (.tok hi rfl))).atopExpr rfl rfl
  · exact hx.before .nil

theorem mirrors_argsOf :
    Production (argsOf a n) fun xs => Mirrors (Expr.walkList always xs) := by
  refine fun s hs => .mark (.accept hs nofun (fun _ hi => .tok hi rfl) (.orReset hs ?_))
  refine (mirrors_assignments ha n).bind (fun xs u hxs => ?_) s hs
  exact .expect nofun fun i hi => .pure (hxs.before (.tok hi rfl))

/-- The name of a function or of a base is a node in front of the arguments or of the index. -/
theorem mirrors_named : Part (named a n) fun x => Mirrors (x.walk always) := by
  refine production_name_item.part.bind fun x u hx s hs => .token hs fun i rest hleft => ?_
  subst hx
  split
  next hi =>
    refine .advance hs hleft (hi ▸ nofun) ?_
    refine (mirrors_argsOf ha n).part.bind fun xs v hxs => .pure ?_
    rw [List.append_nil]
    exact ((Mirrors.name x).append (hxs.behind (.tok hi rfl))).atop rfl rfl
  next hi =>
    refine .advance hs hleft (hi ▸ nofun) ?_
    refine (mirrors_expressionOf ha n).part.bind fun y v hy => .expect nofun fun j hj => .pure ?_
    exact ((Mirrors.name x).append ((hy.before (.tok hj rfl)).behind (.tok hi rfl))).atop rfl rfl
  next => exact .pure hs (.name x)

theorem mirrors_construction : Part (construction a n) fun x => Mirrors (x.walk always) := by
  refine fun s hs => .pos hs fun pos => ?_
  refine mirrors_typeName.part.bind (fun t u hu => ?_) s hs
  refine .expect nofun fun i hi => (mirrors_argsOf ha n).part.bind fun xs v hxs => .pure ?_
  rw [List.append_nil]
  exact fun hstart => ((hxs.behind (.tok hi rfl)).behind hu).under rfl (by simp) hstart

/-- Parentheses have no nodes. -/
theorem mirrors_enclosed : Part (enclosed a n) fun x => Mirrors (x.walk always) := by
  refine .expect nofun fun i hi => (mirrors_expressionOf ha n).part.bind fun x u hx => ?_
  exact .expect nofun fun j hj => .pure ((hx.before (.tok hj rfl)).behind (.tok hi rfl))

/-- All forms of primary expressions are mirrored by their nodes. -/
theorem mirrors_primaryOf : Production (primaryOf a n) fun x => Mirrors (x.walk always) := by
  refine fun s hs => .mark (.current hs fun i rest hleft => ?_)
  have hbool : ∀ {value : Bool} {t : Token}, i.token = t → t.isSilent = true →
      Mirrors ((Expr.bool i.pos value).walk always) [i] := fun hi ht =>
    (Mirrors.tok hi ht).under rfl (List.cons_ne_nil i []) fun j hj => by cases hj; rfl
  split
  next => exact .orReset hs (mirrors_named ha n s hs)
  next => exact .orReset hs (mirrors_construction ha n s hs)
  next hi => exact .advance hs hleft (hi ▸ nofun) (.number hi)
  next hi => exact .advance hs hleft (hi ▸ nofun) (hbool hi rfl)
  next hi => exact .advance hs hleft (hi ▸ nofun) (hbool hi rfl)
  next => exact .orReset hs (mirrors_enclosed ha n s hs)
  next => exact .fail hs

omit ha in
/-- Selections behind an operand `x`, wherever that has been read. -/
theorem mirrors_selections : ∀ (n : Nat) (x : Expr), Part (selections x n) fun y w =>
    ∀ u, Mirrors (x.walk always) u → Mirrors (y.walk always) (u ++ w)
  | 0, _ => .fail
  | n + 1, x => by
    refine fun s hs => .token hs fun i rest hleft => ?_
    split
    next step hi =>
      refine .advance hs hleft (hi ▸ nofun) (.pure fun u hu => ?_)
      exact (hu.before (.tok hi rfl)).atopOne rfl rfl
    next hi =>
      refine .advance hs hleft (hi ▸ nofun) (production_name_item.part.bind fun sel v hsel => ?_)
      subst hsel
      split
      next c hc =>
        refine (mirrors_selections n (.member x c sel.pos)).weaken fun y w hy u hu => ?_
        have hname : Mirrors [ofName (Expr.selName c sel.pos)] [sel.item] := by
          rw [Expr.selName, Swizzle.text_of_ofText? hc]
          exact .name sel
        rw [← List.append_assoc [i], ← List.append_assoc u]
        exact hy _ ((hu.append (hname.behind (.tok hi rfl))).atopExpr rfl rfl)
      next => exact .fail
    next => exact .pure hs fun u hu => hu.before .nil

theorem mirrors_selectionOf :
    Production (selectionOf (primaryOf a n) n) fun x => Mirrors (x.walk always) :=
  (mirrors_primaryOf ha n).andThen fun x u hx =>
    (mirrors_selections n x).weaken fun _ _ hy => hy u hx

omit ha in
/-- A sign has no node, but the node of its operator stands where it stands. -/
theorem mirrors_unaryOf {p : Parser Expr} (hp : Production p fun x => Mirrors (x.walk always)) :
    ∀ n, Production (unaryOf p n) fun x => Mirrors (x.walk always)
  | 0 => fun _ hs => .fail hs
  | n + 1 => by
    refine fun s hs => .current hs fun i rest hleft => ?_
    split
    next op hi =>
      refine .start hleft (.mark (.orReset hs (.advance hs hleft (unaryOp?_ne_eof hi) ?_)))
      refine (mirrors_unaryOf hp n).part.bind fun x u hx => .pure ?_
      rw [List.append_nil]
      have hsign : Mirrors [] [i] := .tok rfl (isSilent_of_unaryOp? hi)
      exact fun hstart => (hx.behind hsign).under rfl (by simp) hstart
    next => exact hp s hs

omit ha in
/-- Operators behind a first operand `x`, wherever that has been read. -/
theorem mirrors_chain {p : Parser Expr} {level : Nat}
    (hp : Production p fun x => Mirrors (x.walk always)) :
    ∀ (n : Nat) (x : Expr), Part (chain level p x n) fun y w =>
      ∀ u, Mirrors (x.walk always) u → Mirrors (y.walk always) (u ++ w)
  | 0, _ => .fail
  | n + 1, x => by
    refine fun s hs => .token hs fun i rest hleft => ?_
    split
    next op hi =>
      refine .advance hs hleft (binaryOp?_ne_eof hi) (hp.part.bind fun y v hy => ?_)
      refine (mirrors_chain hp n (.binary op x y)).weaken fun z w hz u hu => ?_
      rw [← List.append_assoc [i], ← List.append_assoc u]
      have hsign : Mirrors [] [i] := .tok rfl (isSilent_of_binaryOp? hi)
      exact hz _ ((hu.append (hy.behind hsign)).atopExpr rfl rfl)
    next => exact .pure hs fun u hu => hu.before .nil

omit ha in
/-- Operators have no nodes of their own, and their operands are visited from left to right. -/
theorem mirrors_binaryOf {p : Parser Expr} (hp : Production p fun x => Mirrors (x.walk always))
    (n : Nat) : ∀ k, Production (binaryOf p n k) fun x => Mirrors (x.walk always)
  | 0 => hp
  | k + 1 => by
    have ih := mirrors_binaryOf hp n k
    exact ih.andThen fun x u hx => (mirrors_chain ih n x).weaken fun _ _ hy => hy u hx

theorem mirrors_conditionalOf {p : Parser Expr}
    (hp : Production p fun x => Mirrors (x.walk always)) :
    Production (conditionalOf p a n) fun x => Mirrors (x.walk always) := by
  refine hp.andThen fun c u hc => .accept nofun (fun i hi => ?_) (.pure (hc.before .nil))
  refine (mirrors_expressionOf ha n).part.bind fun x v hx => .expect nofun fun j hj => ?_
  refine ha.part.bind fun y w hy => .pure ?_
  rw [List.append_nil]
  have hparts := hc.append ((hx.append (hy.behind (.tok hj rfl))).behind (.tok hi rfl))
  have hcond := hparts.atopExpr (n := .expr (.cond c x y)) rfl rfl
  rwa [← List.append_assoc (c.walk always)] at hcond

end Expressions

/-- Expressions are mirrored by their nodes, by induction on the bound. -/
theorem mirrors_assignment : ∀ n, Production (assignment n) fun x => Mirrors (x.walk always)
  | 0 => fun _ hs => .fail hs
  | n + 1 => by
    have ih := mirrors_assignment n
    have hunary := mirrors_unaryOf (mirrors_selectionOf ih n) n
    have hbinary := mirrors_binaryOf hunary n topLevel
    refine (mirrors_conditionalOf ih n hbinary).andThen fun x u hx s hs => ?_
    refine .token hs fun i rest hleft => ?_
    split
    next hi =>
      refine .advance hs hleft (hi ▸ nofun) (ih.part.bind fun y v hy => .pure ?_)
      rw [List.append_nil]
      exact (hx.append (hy.behind (.tok hi rfl))).atopExpr rfl rfl
    next => exact .pure hs (hx.before .nil)

section

variable (n : Nat)

theorem mirrors_expression : Production (expression n) fun x => Mirrors (x.walk always) :=
  mirrors_expressionOf (mirrors_assignment n) n

/-! ### Statements -/

/-- The name of a declaration is visited before its value, as they are read. -/
theorem mirrors_varSpec : Production (varSpec n) fun d => Mirrors (d.walk always) := by
  refine fun s hs => .mark (.pos hs fun pos => .orReset hs ?_)
  -- what follows the qualifier, which may not be there
  have hrest : ∀ (isConst : Bool) (q : List Item), Mirrors [] q → Part (do
        let type ← typeName
        let name ← name
        if ← accept (.assign none) then
          let init ← assignment n
          return { pos, isConst, type, name, init := some init }
        else return ({ pos, isConst, type, name, init := none } : VarDecl)) fun d w =>
      (∀ j ∈ (q ++ w).head?, j.pos = pos) → Mirrors (d.walk always) (q ++ w) := by
    intro isConst q hq
    refine mirrors_typeName.part.bind fun t u hu => production_name_item.part.bind fun x v hx => ?_
    subst hx
    refine .accept nofun (fun i hi => ?_) (.pure fun hstart => ?_)
    · refine (mirrors_assignment n).part.bind fun y w hy => .pure fun hstart => ?_
      rw [List.append_nil] at hstart ⊢
      have hvar := (Mirrors.name x).append (hy.behind (.tok hi rfl))
      exact ((hvar.behind hu).behind hq).under rfl (by simp) hstart
    · exact (((Mirrors.name x).behind hu).behind hq).under rfl (by simp) hstart
  refine Part.accepted (t := .keyword .const) nofun (fun i hi => ?_) ?_ s hs
  · exact hrest true [i] (.tok hi rfl)
  · exact hrest false [] .nil

theorem mirrors_varDecl : Production (varDecl n) fun d => Mirrors (d.walk always) :=
  (mirrors_varSpec n).andThen fun _ _ hd => .expect nofun fun _ hi =>
    .pure (hd.before (.tok hi rfl))

theorem mirrors_test : Part (test n) fun x => Mirrors (x.walk always) :=
  mirrors_enclosed (mirrors_assignment n) n

theorem mirrors_optional (t : Token) :
    Part (optional n t) fun x => Mirrors (Expr.walk? always x) := by
  refine fun s hs => .token hs fun i rest hleft => ?_
  split
  · exact .pure hs .nil
  · refine ((mirrors_expression n).part.bind fun x u hx => .pure ?_) s hs
    exact hx.before .nil

theorem mirrors_exprStmt : Production (exprStmt n) fun x => Mirrors (x.walk always) :=
  (mirrors_expression n).andThen fun _ _ hx => .expect nofun fun _ hi =>
    .pure ((hx.before (.tok hi rfl)).atopOne rfl rfl)

/-- A branch is a node over tokens without nodes. -/
theorem mirrors_branchStmt {s : Parsing} (hs : s.Ready) {i : Item} {rest : List Item}
    (hleft : s.left = i :: rest) (hi : i.token.isSilent = true) :
    ProductionAt s branchStmt fun x => Mirrors (x.walk always) := by
  refine (productionAt_branchStmt hs hleft).weaken ?_
  rintro _ _ ⟨j, rfl, hj, rfl⟩
  refine ((Mirrors.tok hj rfl).behind (Mirrors.tok rfl hi)).under rfl (by simp) fun k hk => ?_
  cases hk
  rfl

theorem mirrors_returnStmt : Production (returnStmt n) fun x => Mirrors (x.walk always) := by
  refine fun s hs => .mark (.pos hs fun pos => ?_)
  refine (Production.expect (t := .keyword .return) nofun s hs).andThen hs fun _ u hu => ?_
  obtain ⟨i, rfl, hi⟩ := hu
  refine .accept nofun (fun j hj => .pure fun hstart => ?_) ?_
  · exact ((Mirrors.tok hj rfl).behind (Mirrors.tok hi rfl)).under rfl (by simp) hstart
  · refine (mirrors_expression n).part.bind fun x v hx => .expect nofun fun j hj => ?_
    refine .pure fun hstart => ?_
    exact ((hx.before (.tok hj rfl)).behind (.tok hi rfl)).under rfl (by simp) hstart

theorem mirrors_forInit : Part (forInit n) fun x => Mirrors (x.walk always) := by
  refine fun s hs => .token hs fun i rest hleft => ?_
  split
  · exact .pure hs .nil
  · have hvar : Production (do let d ← varSpec n; return ForInit.var d) fun x =>
        Mirrors (x.walk always) := fun s hs => (mirrors_varSpec n s hs).map fun _ _ hd => hd
    have hexpr : Production (do let x ← expression n; return ForInit.expr x) fun x =>
        Mirrors (x.walk always) := fun s hs =>
      (mirrors_expression n s hs).map fun _ _ hx => hx.atopOne rfl rfl
    exact (hvar.orElse hexpr).part s hs

theorem mirrors_simpleStmt : Production (simpleStmt n) fun x => Mirrors (x.walk always) :=
  .orElse (fun s hs => (mirrors_varDecl n s hs).map fun _ _ hd => hd) (mirrors_exprStmt n)

end

section Statements

variable {p : Parser Stmt} (hp : Production p fun x => Mirrors (x.walk always))
include hp

theorem mirrors_stmtsOf : ∀ n, Part (stmtsOf p n) fun xs => Mirrors (Stmt.walkList always xs)
  | 0 => .fail
  | n + 1 => by
    refine .accept nofun (fun i hi => .pure (.tok hi rfl)) ?_
    refine hp.part.bind fun x u hx => (mirrors_stmtsOf n).bind fun xs v hxs => .pure ?_
    rw [List.append_nil]
    exact hx.append hxs

variable (n : Nat)

theorem mirrors_blockOf :
    Production (blockOf p n) fun x => Mirrors ((Stmt.block x.1 x.2).walk always) := by
  refine fun s hs => .mark (.pos hs fun pos => ?_)
  refine (Production.expect (t := .delim .lbrace) nofun s hs).andThen hs fun _ u hu => ?_
  obtain ⟨i, rfl, hi⟩ := hu
  refine (mirrors_stmtsOf hp n).bind fun xs v hxs => .pure fun hstart => ?_
  rw [List.append_nil] at hstart ⊢
  exact (hxs.behind (.tok hi rfl)).under rfl (by simp) hstart

theorem mirrors_ifStmtOf : Production (ifStmtOf p n) fun x => Mirrors (x.walk always) := by
  refine fun s hs => .mark (.pos hs fun pos => .orReset hs ?_)
  refine Part.expect (t := .keyword .if) nofun (fun i hi => ?_) s hs
  refine (mirrors_test n).bind fun c u hc => hp.part.bind fun x v hx => ?_
  refine .accept nofun (fun j hj => hp.part.bind fun y w hy => ?_) ?_
  · refine .pure fun hstart => ?_
    rw [List.append_nil] at hstart ⊢
    have hparts := hc.append (hx.append (hy.behind (.tok hj rfl)))
    rw [← List.append_assoc (c.walk always)] at hparts
    exact (hparts.behind (.tok hi rfl)).under rfl (by simp) hstart
  · refine .pure fun hstart => ?_
    rw [List.append_nil] at hstart ⊢
    exact ((hc.append hx).behind (.tok hi rfl)).under rfl (by simp) hstart

theorem mirrors_forStmtOf : Production (forStmtOf p n) fun x => Mirrors (x.walk always) := by
  refine fun s hs => .mark (.pos hs fun pos => .orReset hs ?_)
  refine Part.expect (t := .keyword .for) nofun (fun i₁ h₁ => ?_) s hs
  refine .expect nofun fun i₂ h₂ => ?_
  refine (mirrors_forInit n).bind fun init u hinit => .expect nofun fun i₃ h₃ => ?_
  refine (mirrors_optional n _).bind fun c v hc => .expect nofun fun i₄ h₄ => ?_
  refine (mirrors_optional n _).bind fun post w hpost => .expect nofun fun i₅ h₅ => ?_
  refine hp.part.bind fun x z hx => .pure fun hstart => ?_
  rw [List.append_nil] at hstart ⊢
  have hbody := hpost.append (hx.behind (.tok h₅ rfl))
  have hparts := hinit.append ((hc.append (hbody.behind (.tok h₄ rfl))).behind (.tok h₃ rfl))
  have hloop := (hparts.behind (.tok h₂ rfl)).behind (.tok h₁ rfl)
  rw [← List.append_assoc (Expr.walk? always c), ← List.append_assoc (init.walk always),
    ← List.append_assoc (init.walk always)] at hloop
  exact hloop.under rfl (by simp) hstart

theorem mirrors_whileStmtOf : Production (whileStmtOf p n) fun x => Mirrors (x.walk always) := by
  refine fun s hs => .mark (.pos hs fun pos => .orReset hs ?_)
  refine Part.expect (t := .keyword .while) nofun (fun i hi => ?_) s hs
  refine (mirrors_test n).bind fun c u hc => hp.part.bind fun x v hx => .pure fun hstart => ?_
  rw [List.append_nil] at hstart ⊢
  exact ((hc.append hx).behind (.tok hi rfl)).under rfl (by simp) hstart

theorem mirrors_doStmtOf : Production (doStmtOf p n) fun x => Mirrors (x.walk always) := by
  refine fun s hs => .mark (.pos hs fun pos => ?_)
  refine (Production.expect (t := .keyword .do) nofun s hs).andThen hs fun _ u hu => ?_
  obtain ⟨i, rfl, hi⟩ := hu
  refine hp.part.bind fun x v hx => .expect nofun fun j hj => ?_
  refine (mirrors_test n).bind fun c w hc => .expect nofun fun k hk => .pure fun hstart => ?_
  have hparts := hx.append ((hc.before (.tok hk rfl)).behind (.tok hj rfl))
  exact (hparts.behind (.tok hi rfl)).under rfl (by simp) hstart

/-- All forms of statements are mirrored by their nodes. -/
theorem mirrors_stmtOf : Production (stmtOf p n) fun x => Mirrors (x.walk always) := by
  refine fun s hs => .current hs fun i rest hleft => ?_
  split
  next => exact (mirrors_blockOf hp n s hs).map fun _ _ hx => hx
  next hi =>
    refine .start hleft (.advance hs hleft (hi ▸ nofun) fun hstart => ?_)
    exact (Mirrors.tok hi rfl).under rfl (List.cons_ne_nil i []) hstart
  next => exact mirrors_ifStmtOf hp n s hs
  next => exact mirrors_forStmtOf hp n s hs
  next => exact mirrors_whileStmtOf hp n s hs
  next => exact mirrors_doStmtOf hp n s hs
  next hi => exact mirrors_branchStmt hs hleft (hi ▸ rfl)
  next hi => exact mirrors_branchStmt hs hleft (hi ▸ rfl)
  next => exact mirrors_returnStmt n s hs
  next => exact mirrors_simpleStmt n s hs

end Statements

/-- Statements are mirrored by their nodes, by induction on the bound. -/
theorem mirrors_stmt : ∀ n, Production (stmt n) fun x => Mirrors (x.walk always)
  | 0 => fun _ hs => .fail hs
  | n + 1 => mirrors_stmtOf (mirrors_stmt n) n

/-! ### Definitions -/

theorem production_intLit_item :
    Production intLit fun _ w => ∃ i, w = [i] ∧ i.token = .number .int := by
  refine production_intLit.weaken fun _ w hw => ?_
  cases hw.word with
  | item hi => exact ⟨_, rfl, hi.1⟩

/-- The value of an entry is no node. -/
theorem mirrors_layoutEntry : Part layoutEntry fun _ => Mirrors [] := by
  have hrest : ∀ {i : Item}, i.token = .keyword .location ∨ i.token = .keyword .binding → Part (do
      expect (.assign none)
      let value ← intLit
      return (⟨i.text, value⟩ : LayoutEntry)) fun _ w => Mirrors [] ([i] ++ w) := by
    intro i hi
    refine .expect nofun fun j hj => production_intLit_item.part.bind fun x u hu => .pure ?_
    obtain ⟨k, rfl, hk⟩ := hu
    have hkey : i.isOperand = false := by
      rcases hi with hi | hi <;> simp [Item.isOperand, Item.name?, Item.isNumber, hi]
    refine Mirrors.annotated (u := [i, j]) ?_ (fun before => ?_) hk
    · exact List.forall_mem_cons.2 ⟨hkey, List.forall_mem_singleton.2 (Item.not_isOperand hj rfl)⟩
    · rcases hi with hi | hi <;> simp [tokensAfter, annotates, hi, hj]
  refine fun s hs => .current hs fun i rest hleft => ?_
  split
  next hi => exact .advance hs hleft (hi ▸ nofun) (hrest (.inl hi))
  next hi => exact .advance hs hleft (hi ▸ nofun) (hrest (.inr hi))
  next => exact (ProductionAt.fail hs).1

theorem mirrors_param : Production param fun x => Mirrors (x.walk always) := by
  refine fun s hs => .mark (.current hs fun i rest hleft => .start hleft (.orReset hs ?_))
  -- what follows the qualifier, which may not be there
  have hrest : ∀ (storage : Storage) (q : List Item), Mirrors [] q → Part (do
        let type ← typeName
        let name ← name
        return ({ pos := i.pos, storage, type, name } : Param)) fun x w =>
      (∀ j ∈ (q ++ w).head?, j.pos = i.pos) → Mirrors (x.walk always) (q ++ w) := by
    intro storage q hq
    refine mirrors_typeName.part.bind fun t u hu => production_name_item.part.bind fun x v hx => ?_
    subst hx
    exact .pure fun hstart =>
      (((Mirrors.name x).behind hu).behind hq).under rfl (by simp) hstart
  dsimp only
  split
  next hi => exact .advance hs hleft (hi ▸ nofun) (hrest _ [i] (.tok hi rfl))
  next hi => exact .advance hs hleft (hi ▸ nofun) (hrest _ [i] (.tok hi rfl))
  next => exact hrest _ [] .nil s hs

theorem mirrors_storage : Part storage fun _ => Mirrors [] := by
  refine fun s hs => .token hs fun i rest hleft => ?_
  split
  next hi => exact .advance hs hleft (hi ▸ nofun) (.pure (.tok hi rfl))
  next hi => exact .advance hs hleft (hi ▸ nofun) (.pure (.tok hi rfl))
  next hi => exact .advance hs hleft (hi ▸ nofun) (.pure (.tok hi rfl))
  next => exact .pure hs .nil

section

variable (n : Nat)

/-- A layout has no nodes, and the values in it are the numbers that are left out. -/
theorem mirrors_layout : Production (layout n) fun _ => Mirrors [] := by
  refine .whole (.expect nofun fun i hi => .expect nofun fun j hj => ?_)
  refine (mirrors_commaList (f := fun _ => []) mirrors_layoutEntry n).bind fun xs u hxs => ?_
  refine .expect nofun fun k hk => .pure ?_
  have hnone : xs.flatMap (fun _ => ([] : List Node)) = [] :=
    List.flatMap_eq_nil_iff.2 fun _ _ => rfl
  rw [hnone] at hxs
  exact ((hxs.before (.tok hk rfl)).behind (.tok hj rfl)).behind (.tok hi rfl)

theorem mirrors_paramList :
    Production (paramList n) fun xs => Mirrors (xs.flatMap (Param.walk always)) := by
  refine fun s hs => .mark (.accept hs nofun (fun _ hi => .tok hi rfl) ?_)
  refine .token hs fun i rest hleft => ?_
  have hlist : ProductionAt s (orReset s.stream.cursor do
      let params ← commaList param n
      expect (.delim .rparen)
      return params) fun xs => Mirrors (xs.flatMap (Param.walk always)) := by
    refine .orReset hs ((mirrors_commaList mirrors_param.part n).bind (fun xs u hxs => ?_) s hs)
    exact .expect nofun fun i hi => .pure (hxs.before (.tok hi rfl))
  rcases rest with _ | ⟨j, rest⟩
  · refine .congr (bind_some (peek_one_last hs hleft)) ?_
    rw [if_neg fun h => nomatch h.1.symm.trans h.2]
    exact hlist
  · refine .congr (bind_some (peek_one_run hs hleft)) ?_
    split
    next h =>
      obtain ⟨hi, hj⟩ := h
      obtain ⟨s₁, hrun₁, hgoes₁, hleft₁⟩ := exists_advance hs hleft (hi ▸ nofun)
      obtain ⟨s₂, hrun₂, hgoes₂, hleft₂⟩ := exists_advance hgoes₁.ready hleft₁ (hj ▸ nofun)
      refine .of_run (x := []) (w := [i, j]) ?_ (hgoes₁.trans hgoes₂) ?_ ?_
      · exact (bind_some hrun₁).trans (bind_some hrun₂)
      · rw [hleft, hleft₂]
        rfl
      · exact (Mirrors.tok hj rfl).behind (Mirrors.tok hi rfl)
    next => exact hlist

/-- The name of a function, its parameters and its body are visited as they are read. -/
theorem mirrors_funcDecl : Production (funcDecl n) fun f => Mirrors ((Def.func f).walk always) := by
  refine fun s hs => .mark (.pos hs fun pos => ?_)
  refine (mirrors_typeName s hs).andThen hs fun t u hu => ?_
  refine production_name_item.part.bind fun x v hx => .expect nofun fun i hi => ?_
  subst hx
  refine (mirrors_paramList n).part.bind fun ps w hps => ?_
  refine (mirrors_blockOf (mirrors_stmt n) n).part.bind fun b z hb => .pure fun hstart => ?_
  rw [List.append_nil] at hstart ⊢
  have hparts := (Mirrors.name x).append ((hps.append hb).behind (.tok hi rfl))
  exact (hparts.behind hu).under rfl (by simp) hstart

theorem mirrors_globalVar :
    Production (globalVar n) fun g => Mirrors ((Def.global g).walk always) := by
  refine fun s hs => .mark (.pos hs fun pos => .orReset hs ?_)
  -- what follows the layout, which may not be there
  have hrest : ∀ (layout : List LayoutEntry) (q : List Item), Mirrors [] q → Part (do
        let storage ← storage
        let var ← varDecl n
        return ({ pos, layout, storage, var } : GlobalVar)) fun g w =>
      (∀ j ∈ (q ++ w).head?, j.pos = pos) → Mirrors ((Def.global g).walk always) (q ++ w) := by
    intro layout q hq
    refine mirrors_storage.bind fun _ u hu => (mirrors_varDecl n).part.bind fun d v hd => ?_
    refine .pure fun hstart => ?_
    rw [List.append_nil] at hstart ⊢
    have hv : v ≠ [] := by
      rintro rfl
      obtain ⟨i, hi, -⟩ := hd.within _ List.mem_cons_self
      exact List.not_mem_nil hi
    exact ((hd.behind hu).behind hq).under rfl (by simp [hv]) hstart
  refine .token hs fun i rest hleft => ?_
  dsimp only
  split
  next => exact (mirrors_layout n).part.bind (fun entries u hu => hrest _ u hu) s hs
  next => exact hrest _ [] .nil s hs

/-- Definitions are mirrored by their nodes. -/
theorem mirrors_definition : Production (definition n) fun d => Mirrors (d.walk always) :=
  .orElse (fun s hs => (mirrors_funcDecl n s hs).map fun _ _ hf => hf) fun s hs =>
    (mirrors_globalVar n s hs).map fun _ _ hg => hg

end

end Grammar

/-! ## Shaders -/

open Shader.Grammar

/-- The number of the version is no node. -/
theorem mirrors_version {u : List Item}
    (h : Word (Ebnf.opt (Ebnf.tok .version ++ Ebnf.tok (.number .int))) u) : Mirrors [] u := by
  simp only [word_opt, word_append, word_tok] at h
  obtain ⟨_, _, rfl, ⟨i, rfl, hi⟩, j, rfl, hj⟩ | rfl := h
  · refine Mirrors.annotated (List.forall_mem_singleton.2 ?_) (fun before => ?_) hj
    · simp [Item.isOperand, Item.name?, Item.isNumber, hi]
    · simp [tokensAfter, annotates, hi]
  · exact .nil

/-- The nodes behind the implicit definition have been read from the items of the text. -/
theorem Source.mirrors_parse {s : Source} {p : Program} (h : s.parse.program = some p) :
    ∃ ds, p.defs = .global implicitPosition :: ds ∧
      Mirrors (ds.flatMap (Def.walk always)) s.scan.items := by
  obtain ⟨s', hrun⟩ := Stream.parse_eq_some h
  obtain ⟨hgoes, hend, u, ws, ds, hleft, hversion, hdefs, hall⟩ :=
    program_reads (mirrors_definition _) s.ready_scan hrun
  obtain ⟨e, hlast, he⟩ := hend.left_eq hgoes.items
  have hmirrors : Mirrors (ds.flatMap (Def.walk always)) ws.flatten := by
    clear hleft hdefs
    induction hall with
    | nil => exact .nil
    | cons hd _ ih => exact hd.append ih
  have hitems : s.scan.items = u ++ ws.flatten ++ s'.left := hleft
  refine ⟨ds, hdefs, ?_⟩
  rw [hitems, hlast]
  exact (hmirrors.behind (mirrors_version hversion)).before (.tok he rfl)

/-- A walk over a parsed shader that enters all nodes visits the implicit definition first. Behind
that the names that it visits are the names of the text, and the numbers are those of the text but
the one of the version and the values of layouts, each with its kind, its text and its place and in
the order of the text; and no node starts in front of one that has been visited before. Lines and
columns go up with the nodes in a text of fewer than `2 ^ 32 - 1` characters, where they are
exact. -/
theorem Source.walk_parse {s : Source} {p : Program} (h : s.parse.program = some p) :
    ∃ later, p.walk (fun _ => true) = .program p :: .global implicitPosition ::
        .stmt (.var implicitPosition.var) :: ofName ⟨positionName, .implicit⟩ :: later ∧
      later.filterMap Node.name? = s.scan.items.filterMap Item.name? ∧
      later.filterMap Node.number? = (unannotated [] s.scan.items).filter Item.isNumber ∧
      (later.Pairwise fun n m => n.pos.index ≤ m.pos.index) ∧
      ∀ chars, Text.Decodes s.bytes chars → chars.length < UInt32.size - 1 →
        later.Pairwise fun n m => n.pos.place ≤ m.pos.place := by
  obtain ⟨ds, hdefs, hmirrors⟩ := Source.mirrors_parse h
  refine ⟨ds.flatMap (Def.walk always), ?_, hmirrors.names, hmirrors.numbers, ?_, ?_⟩
  · rw [Program.walk, hdefs]
    rfl
  · exact hmirrors.sorted (r := fun p q => p.index ≤ q.index) (fun _ => le_rfl)
      (s.sorted_scan.imp le_of_lt)
  · intro chars hchars hn
    exact hmirrors.sorted (r := fun p q => p.place ≤ q.place) (fun _ => le_rfl)
      (Source.sorted_places hchars hn)

/-- A shader with a version, a layout, a selection and parentheses that leave no trace. -/
def layered : Source where
  bytes :=
    "#version 330\nlayout(location = 0) in vec2 v;\nfloat f() \x7b return (v.y + 2) * .5; \x7d"
      |>.toUTF8.toList

theorem walk_parse_layered : ∃ p later, layered.parse.program = some p ∧
    p.walk (fun _ => true) = .program p :: .global implicitPosition ::
      .stmt (.var implicitPosition.var) :: ofName ⟨positionName, .implicit⟩ :: later ∧
    (later.filterMap Node.name?).map Name.text = ["v", "f", "v", "y"] ∧
    (later.filterMap Node.number?).map Item.text = ["2", ".5"] ∧
    later.Pairwise fun n m => n.pos.place ≤ m.pos.place := by
  have hreports : layered.scan.reports = [] := scan_reports_eq_nil (by decide +kernel)
  obtain ⟨p, hparse, -⟩ := exists_parsed (t := fun _ => true) hreports (by decide +kernel)
  obtain ⟨later, hwalk, hnames, hnumbers, -, hsorted⟩ := Source.walk_parse hparse
  refine ⟨p, later, hparse, hwalk, ?_, ?_, hsorted _ (Text.decodes_decode _) (by decide +kernel)⟩
  · rw [hnames]
    decide +kernel
  · rw [hnumbers]
    decide +kernel

/-! ### A long text -/

section

open Text

/-- The declaration `int a;` with so many blanks in it and one more. -/
def spaced (n : Nat) : Source where
  bytes := ("int ".toList ++ (List.replicate n ' ' ++ "a;".toList)).flatMap String.utf8EncodeChar

/-- Its glyphs, with the name behind blanks and at a column. -/
def spacedGlyphs (b : List Glyph) (col : UInt32) (index : Nat) : List Glyph :=
  ⟨'i', true, 1, 1, 1⟩ :: ⟨'n', true, 1, 2, 2⟩ :: ⟨'t', true, 1, 3, 3⟩ :: ⟨' ', true, 1, 4, 4⟩ ::
    (b ++ [⟨'a', true, 1, col, index⟩, ⟨';', true, 1, col + 1, index + 1⟩])

/-- Its items, with the name at a column. -/
def spacedItems (col : UInt32) (index : Nat) : List Item :=
  [⟨.typeName .int, "int", ⟨"", 1, 1, 1⟩⟩, ⟨.name, "a", ⟨"", 1, col, index⟩⟩,
    ⟨.delim .semi, ";", ⟨"", 1, col + 1, index + 1⟩⟩,
    ⟨.eof, "", ⟨"", 1, col + 1 + 1, index + 1 + 1⟩⟩]

/-- The blanks are skipped, wherever the name behind them stands. -/
theorem lexemes_spaced {b : List Glyph} (hb : ∀ g ∈ b, isBlank g.char = true) (col : UInt32)
    (index : Nat) :
    Scan.lexemes "" ⟨"", 1, col + 1 + 1, index + 1 + 1⟩ (spacedGlyphs b col index) =
      (spacedItems col index, []) := by
  have hblank : ∀ g ∈ ⟨' ', true, 1, 4, 4⟩ :: b, isBlank g.char = true :=
    List.forall_mem_cons.2 ⟨rfl, hb⟩
  -- `int`, then the blanks, then `a`, `;` and the end
  rw [spacedGlyphs, Scan.lexemes_of_skip rfl]
  change ([_] ++ (Scan.lexemes _ _ (_ :: b ++ _)).1, [] ++ (Scan.lexemes _ _ (_ :: b ++ _)).2) = _
  rw [Scan.lexemes_congr (Gap.skip_blanks hblank _), Scan.lexemes_of_skip rfl]
  change ([_] ++ ([_] ++ (Scan.lexemes _ _ [_]).1), [] ++ ([] ++ (Scan.lexemes _ _ [_]).2)) = _
  rw [Scan.lexemes_of_skip rfl]
  change ([_] ++ ([_] ++ ([_] ++ (Scan.lexemes _ _ []).1)),
    [] ++ ([] ++ ([] ++ (Scan.lexemes _ _ []).2))) = _
  rw [Scan.lexemes]
  rfl

/-- The place of the name is that of the blanks, counted in words. -/
theorem scan_spaced (n : Nat) :
    (spaced n).scan = { items := spacedItems (5 + .ofNat n) (5 + n), reports := [] } := by
  have hdecode : decode (spaced n).bytes =
      ('i', true) :: ('n', true) :: ('t', true) :: (' ', true) ::
        (List.replicate n (' ', true) ++ [('a', true), (';', true)]) := by
    rw [spaced, decode_flatMap, List.map_append, List.map_append, List.map_replicate]
    rfl
  obtain ⟨b, hb, harrange⟩ := exists_arrange_blanks n 1 5 5 [('a', true), (';', true)]
  have hglyphs : arrange 1 1 1 (decode (spaced n).bytes) =
      (spacedGlyphs b (5 + .ofNat n) (5 + n), 1, 5 + .ofNat n + 1 + 1, 5 + n + 1 + 1) := by
    rw [hdecode]
    change (_ :: _ :: _ :: _ :: (arrange 1 5 5 _).1, (arrange 1 5 5 _).2) = _
    rw [harrange]
    rfl
  have hformed : Scan.illFormed "" (arrange 1 1 1 (decode (spaced n).bytes)).1 = [] := by
    refine Scan.illFormed_eq_nil (wellFormed_arrange 1 1 1 ?_)
    rw [spaced, decode_flatMap]
    exact List.forall_mem_map.2 fun _ _ => rfl
  have hread : (spaced n).failure = none := rfl
  have hfile : (spaced n).file = "" := rfl
  rw [hglyphs] at hformed
  simp only [Source.scan, hread, hfile, hglyphs, hformed, lexemes_spaced hb, List.nil_merge,
    List.map_nil]

/-- In a longer text the columns need not go up with the nodes: this name stands at column zero,
behind its type at column one. -/
theorem unsorted_spaced : ∃ p later, (spaced (UInt32.size - 5)).parse.program = some p ∧
    p.walk (fun _ => true) = .program p :: .global implicitPosition ::
      .stmt (.var implicitPosition.var) :: ofName ⟨positionName, .implicit⟩ :: later ∧
    ¬ later.Pairwise fun n m => n.pos.place ≤ m.pos.place := by
  let t : Program → Bool := fun p =>
    ((p.walk fun _ => true).drop 4).map (fun n => n.pos.place) =
      [toLex (1, 1), toLex (1, 1), toLex (1, 0)]
  have hscan := scan_spaced (UInt32.size - 5)
  obtain ⟨p, hparse, ht⟩ := exists_parsed (s := spaced (UInt32.size - 5)) (t := t) (by rw [hscan])
    (by rw [hscan]; decide +kernel)
  obtain ⟨ds, hdefs, -⟩ := Source.mirrors_parse hparse
  have hwalk : p.walk (fun _ => true) = .program p :: .global implicitPosition ::
      .stmt (.var implicitPosition.var) :: ofName ⟨positionName, .implicit⟩ ::
        ds.flatMap (Def.walk always) := by
    rw [Program.walk, hdefs]
    rfl
  refine ⟨p, _, hparse, hwalk, fun hsorted => ?_⟩
  have hplaces : (ds.flatMap (Def.walk always)).map (fun n => n.pos.place) =
      [toLex (1, 1), toLex (1, 1), toLex (1, 0)] := by
    have hdrop := of_decide_eq_true ht
    rwa [hwalk] at hdrop
  have hpairs := List.pairwise_map.2 hsorted
  rw [hplaces] at hpairs
  exact absurd hpairs (by decide)

end

end Shader
