import Shader.Proofs.Grammar.Acceptance
import Shader.Proofs.Grammar.Legibility

/-!
# Parsing renderings

An expression that was parsed is parsed again from its rendering, places apart, unless a selector
stands behind a number in it. In a rendering every application of an operator is in parentheses, so
an operand is read by the tightest production of all, and the others pass it on.
-/

namespace Shader

/-! ## Shapes -/

namespace Expr

mutual

/-- The expression with its places forgotten. -/
def shape : Expr → Expr
  | name n => name ⟨n.text, .implicit⟩
  | number _ kind text => number .implicit kind text
  | bool _ value => bool .implicit value
  | call fn args => call ⟨fn.text, .implicit⟩ (shapes args)
  | construct _ type args => construct .implicit type (shapes args)
  | index base i => index ⟨base.text, .implicit⟩ (shape i)
  | member x sel _ => member (shape x) sel .implicit
  | unary _ op x => unary .implicit op (shape x)
  | postStep s x => postStep s (shape x)
  | binary op x y => binary op (shape x) (shape y)
  | assign op x y => assign op (shape x) (shape y)
  | cond c x y => cond (shape c) (shape x) (shape y)
  | seq first rest => seq (shape first) (shapes rest)

/-- The expressions with their places forgotten. -/
def shapes : List Expr → List Expr
  | [] => []
  | x :: xs => shape x :: shapes xs

end

/-- Two expressions are the same up to places. -/
def Alike (x y : Expr) : Prop := x.shape = y.shape

/-- An expression whose rendering can be read again. -/
structure Readable (x : Expr) : Prop where
  /-- a text can spell it -/
  legible : x.Legible
  /-- no selector stands behind a number -/
  plain : ¬ x.SelectsNumber

theorem Readable.child {x y : Expr} (h : x.Readable) (hy : y ∈ x.children) : y.Readable :=
  ⟨h.legible.child hy, fun hselects => h.plain (hselects.of_child hy)⟩

theorem Readable.pieces_member {x : Expr} {sel : Swizzle} {selPos : Pos}
    (h : (member x sel selPos).Readable) :
    (member x sel selPos).pieces = x.pieces ++ [(Token.delim .dot).piece, (.name, sel.text)] := by
  rw [Expr.pieces_member, if_neg fun hx => h.plain (selectsNumber_of_isNumeral sel selPos hx)]

/-- The pieces of an expression start with that of an operand. -/
theorem exists_piece : ∀ {x : Expr}, x.Readable →
    ∃ p ps, x.pieces = p :: ps ∧ p.1.opensPrimary = true
  | name _, _ | number _ _ _, _ | call _ _, _ | construct _ _ _, _ | index _ _, _
  | unary _ _ _, _ | postStep _ _, _ | binary _ _ _, _ | assign _ _ _, _ | cond _ _ _, _
  | seq _ _, _ => ⟨_, _, rfl, rfl⟩
  | bool _ true, _ | bool _ false, _ => ⟨_, _, rfl, rfl⟩
  | member x sel selPos, h => by
    obtain ⟨p, ps, hps, hp⟩ := exists_piece (h.child (y := x) List.mem_cons_self)
    refine ⟨p, ps ++ [(Token.delim .dot).piece, (.name, sel.text)], ?_, hp⟩
    rw [h.pieces_member, hps]
    rfl

end Expr

/-! ## Items -/

theorem Item.token_eq {i : Item} {t : Token} (h : i.piece = t.piece) : i.token = t :=
  congrArg Prod.fst h

theorem BinaryOp.precedence_bounds (op : BinaryOp) :
    0 < op.precedence ∧ op.precedence ≤ Grammar.topLevel := by
  rcases op with op | op | op <;> cases op <;> decide

namespace Grammar

open Shader.Parser Shader.Expr

variable {k n : Nat} {L M rest : List Item} {Q : Expr → Prop}

/-- Pieces in parentheses are items between parentheses. -/
theorem exists_enclosed {ps : List (Token × String)} (h : L.map Item.piece = enclose ps) :
    ∃ i L' j, L = i :: (L' ++ [j]) ∧ i.token = .delim .lparen ∧ j.token = .delim .rparen ∧
      L'.map Item.piece = ps := by
  obtain ⟨i, L, rfl, hi, hL⟩ := List.map_eq_cons_iff.1 h
  obtain ⟨L', K, rfl, hL', hK⟩ := List.map_eq_append_iff.1 hL
  obtain ⟨j, rfl, hj⟩ := List.map_eq_singleton_iff.1 hK
  exact ⟨i, L', j, rfl, Item.token_eq hi, Item.token_eq hj, hL'⟩

/-- The items of an expression start with that of an operand. -/
theorem exists_opens {x : Expr} (hx : x.Readable) (hL : L.map Item.piece = x.pieces) :
    ∃ i L', L = i :: L' ∧ i.token.opensPrimary = true := by
  obtain ⟨p, ps, hps, hp⟩ := exists_piece hx
  rw [hps] at hL
  obtain ⟨i, L', rfl, rfl, -⟩ := List.map_eq_cons_iff.1 hL
  exact ⟨i, L', rfl, hp⟩

theorem length_pos {x : Expr} (hx : x.Readable) (hL : L.map Item.piece = x.pieces) :
    0 < L.length := by
  obtain ⟨i, L', rfl, -⟩ := exists_opens hx hL
  exact Nat.succ_pos _

/-! ## Lists -/

/-- The parser reads the expressions with at most a number of pieces from their pieces, in front of
what holds on with less than the given strength. -/
def Regains (grip : Nat) (p : Parser Expr) (k : Nat) : Prop :=
  ∀ x L rest, x.Readable → L.map Item.piece = x.pieces → L.length ≤ k → Behind grip rest →
    Gets p (L ++ rest) rest fun y => y.Alike x

section Lists

variable {a : Parser Expr} (ha : Regains 2 a k)
include ha

theorem gets_commaList : ∀ {m : Nat} {x : Expr} {xs : List Expr} {L rest : List Item},
    (∀ y ∈ x :: xs, y.Readable) → L.map Item.piece = innerList (x :: xs) → L.length ≤ k →
    L.length ≤ m → Behind 1 rest →
    Gets (commaList a m) (L ++ rest) rest fun ys => shapes ys = shapes (x :: xs)
  | 0, x, xs, L, rest, hxs, hL, _, hm, _ => by
    obtain ⟨u, v, rfl, hu, -⟩ := List.map_eq_append_iff.1 hL
    have hpos := length_pos (hxs x List.mem_cons_self) hu
    rw [List.length_append] at hm
    omega
  | m + 1, x, xs, L, rest, hxs, hL, hk, hm, hrest => by
    rw [List.forall_mem_cons] at hxs
    obtain ⟨u, v, rfl, hu, hv⟩ := List.map_eq_append_iff.1 hL
    rw [List.length_append] at hk hm
    rw [List.append_assoc]
    rcases xs with _ | ⟨y, ys⟩
    · obtain rfl := List.map_eq_nil_iff.1 hv
      refine (ha x u _ hxs.1 hu (by omega) (hrest.mono (by decide))).bind fun x' hx' => ?_
      refine .refuse (hrest.ne (by decide)) (.pure_of ?_)
      exact congrArg (· :: []) hx'
    · obtain ⟨i, w, rfl, hi, hw⟩ := List.map_eq_cons_iff.1 hv
      rw [List.length_cons] at hk hm
      have hcomma := Item.token_eq hi
      refine (ha x u _ hxs.1 hu (by omega) (behind_cons hcomma (by decide))).bind fun x' hx' => ?_
      refine .accept hcomma ?_ nofun
      refine (gets_commaList hxs.2 hw (by omega) (by omega) hrest).bind fun ys' hys' => .pure_of ?_
      exact congrArg₂ (· :: ·) hx' hys'

omit ha in
/-- An expression alone is read as an expression. -/
theorem gets_expressionOf (h : Gets a L rest Q) (hrest : Behind 1 rest) :
    Gets (expressionOf a n) L rest Q :=
  .mark fun _ => h.bind fun _ hx => .orReset (.refuse (hrest.ne (by decide)) (.pure_of hx))

theorem gets_argsOf (hk : k ≤ n) {args : List Expr} (hargs : ∀ x ∈ args, x.Readable)
    (hL : L.map Item.piece = innerList args) {j : Item} (hj : j.token = .delim .rparen)
    (hlen : L.length ≤ k) :
    Gets (argsOf a n) (L ++ j :: rest) rest fun ys => shapes ys = shapes args := by
  refine .mark fun _ => ?_
  rcases args with _ | ⟨x, xs⟩
  · obtain rfl := List.map_eq_nil_iff.1 hL
    exact .accept hj (.pure_of rfl) nofun
  · have hrest : Behind 1 (j :: rest) := behind_cons hj (by decide)
    have hlist := gets_commaList ha hargs hL hlen (hlen.trans hk) hrest
    obtain ⟨u, v, rfl, hu, -⟩ := List.map_eq_append_iff.1 hL
    obtain ⟨i, u, rfl, hi⟩ := exists_opens (hargs x List.mem_cons_self) hu
    refine .refuse ?_ (.orReset (hlist.bind fun ys hys => .expect hj (.pure_of hys) nofun))
    rintro _ ⟨⟩ hparen
    rw [hparen] at hi
    cases hi

end Lists

/-! ## Operands -/

/-- The parser reads the expressions with less than a number of pieces from their pieces without
parentheses. -/
def RegainsInner (p : Parser Expr) (k : Nat) : Prop :=
  ∀ x L rest, x.Readable → L.map Item.piece = x.inner → L.length < k → Behind 1 rest →
    Gets p (L ++ rest) rest fun y => y.Alike x

section Operands

variable {a : Parser Expr}

theorem gets_enclosed (hinner : RegainsInner (expressionOf a n) k) {x : Expr} (hx : x.Readable)
    (happlied : x.isApplied = true) (hL : L.map Item.piece = x.pieces) (hlen : L.length ≤ k + 1) :
    Gets (primaryOf a n) (L ++ rest) rest fun y => y.Alike x := by
  rw [Expr.pieces, wrap, if_pos happlied] at hL
  obtain ⟨i, L', j, rfl, hi, hj, hL'⟩ := exists_enclosed hL
  simp only [List.length_cons, List.length_append] at hlen
  rw [List.cons_append, List.append_assoc]
  refine .mark fun _ => .current_cons ?_
  rw [hi]
  refine .orReset (.expect hi ?_ nofun)
  refine (hinner x L' _ hx hL' (by omega) (behind_cons hj (by decide))).bind fun y hy => ?_
  exact .expect hj (.pure_of hy) nofun

/-- A name decides that what follows is read as an operand with a name in front. -/
theorem gets_named {i : Item} (hi : i.token = .name) (h : Gets (named a n) (i :: L) M Q) :
    Gets (primaryOf a n) (i :: L) M Q := by
  refine .mark fun _ => .current_cons ?_
  rw [hi]
  exact .orReset h

variable (ha : Regains 2 a k) (hinner : RegainsInner (expressionOf a n) k) (hk : k ≤ n)
include ha hinner hk

/-- All expressions but members are read as operands without operators. -/
theorem gets_primaryOf {x : Expr} (hx : x.Readable) (hmember : ∀ y sel pos, x ≠ member y sel pos)
    (hL : L.map Item.piece = x.pieces) (hlen : L.length ≤ k + 1) (hrest : Behind 16 rest) :
    Gets (primaryOf a n) (L ++ rest) rest fun y => y.Alike x := by
  cases x with
  | name m =>
    obtain ⟨i, rfl, hi⟩ := List.map_eq_singleton_iff.1 hL
    obtain ⟨htoken, htext⟩ := Prod.mk.inj hi
    refine gets_named htoken (.name htoken (.token fun j L' hL' => ?_))
    -- what follows opens no argument list and no index, since its grip is weaker
    have hgrip := hrest.grip_lt hL'
    split
    next hj => exact absurd hgrip (by rw [hj]; decide)
    next hj => exact absurd hgrip (by rw [hj]; decide)
    next =>
      refine .pure_of ?_
      rw [htext]
      rfl
  | number pos kind text =>
    obtain ⟨i, rfl, hi⟩ := List.map_eq_singleton_iff.1 hL
    obtain ⟨htoken, htext⟩ := Prod.mk.inj hi
    refine .mark fun _ => .current_cons ?_
    rw [htoken]
    refine .advance (htoken ▸ nofun) (.pure_of ?_)
    rw [htext]
    rfl
  | bool pos value =>
    obtain ⟨i, rfl, hi⟩ := List.map_eq_singleton_iff.1 hL
    have htoken := Item.token_eq hi
    refine .mark fun _ => .current_cons ?_
    cases value with
    | true =>
      rw [htoken]
      exact .advance (htoken ▸ nofun) (.pure_of rfl)
    | false =>
      rw [htoken]
      exact .advance (htoken ▸ nofun) (.pure_of rfl)
  | call fn args =>
    obtain ⟨i, L, rfl, hi, hL⟩ := List.map_eq_cons_iff.1 hL
    obtain ⟨htoken, htext⟩ := Prod.mk.inj hi
    obtain ⟨j, L', l, rfl, hj, hl, hL'⟩ := exists_enclosed hL
    simp only [List.length_cons, List.length_append] at hlen
    simp only [List.cons_append, List.append_assoc]
    refine gets_named htoken (.name htoken (.token_cons ?_))
    rw [hj]
    refine .advance (hj ▸ nofun) ?_
    refine (gets_argsOf ha hk (fun y => hx.child) hL' hl (by omega)).bind fun ys hys => .pure_of ?_
    rw [htext]
    exact congrArg (call _) hys
  | construct pos type args =>
    obtain ⟨i, L, rfl, hi, hL⟩ := List.map_eq_cons_iff.1 hL
    obtain ⟨htoken, -⟩ := Prod.mk.inj hi
    obtain ⟨j, L', l, rfl, hj, hl, hL'⟩ := exists_enclosed hL
    simp only [List.length_cons, List.length_append] at hlen
    simp only [List.cons_append, List.append_assoc]
    refine .mark fun _ => .current_cons ?_
    rw [htoken]
    refine .orReset (.pos fun _ => .typeName htoken (.expect hj ?_ nofun))
    refine (gets_argsOf ha hk (fun y => hx.child) hL' hl (by omega)).bind fun ys hys => .pure_of ?_
    exact congrArg (construct _ type) hys
  | index base x =>
    obtain ⟨i, L, rfl, hi, hL⟩ := List.map_eq_cons_iff.1 hL
    obtain ⟨htoken, htext⟩ := Prod.mk.inj hi
    obtain ⟨j, L, rfl, hj, hL⟩ := List.map_eq_cons_iff.1 hL
    obtain ⟨L', K, rfl, hL', hK⟩ := List.map_eq_append_iff.1 hL
    obtain ⟨l, rfl, hl⟩ := List.map_eq_singleton_iff.1 hK
    have hopen := Item.token_eq hj
    have hclose := Item.token_eq hl
    simp only [List.length_cons, List.length_append] at hlen
    simp only [List.cons_append, List.append_assoc]
    have hx' := hx.child (y := x) List.mem_cons_self
    have hindex := ha x L' (l :: rest) hx' hL' (by omega) (behind_cons hclose (by decide))
    refine gets_named htoken (.name htoken (.token_cons ?_))
    rw [hopen]
    refine .advance (hopen ▸ nofun) ?_
    refine (gets_expressionOf hindex (behind_cons hclose (by decide))).bind fun y hy => ?_
    refine .expect hclose (.pure_of ?_) nofun
    rw [htext]
    exact congrArg (index _) hy
  | member y sel pos => exact absurd rfl (hmember y sel pos)
  | unary | postStep | binary | assign | cond | seq =>
    exact gets_enclosed hinner hx rfl hL hlen

/-- An operand is read with its selectors, and goes on with what follows them. -/
theorem gets_selectionOf (hlt : k < n) : ∀ {x : Expr} {L rest : List Item}, x.Readable →
    L.map Item.piece = x.pieces → L.length ≤ k + 1 → Behind 16 rest →
    (∀ y m, n < m + L.length → y.Alike x → Gets (selections y m) rest M Q) →
    Gets (selectionOf (primaryOf a n) n) (L ++ rest) M Q := by
  intro x
  -- only a member has selectors, the last of which is read behind the others
  induction x using Expr.induction with
  | h x ih =>
  intro L rest hx hL hlen hrest hgets
  by_cases hmember : ∃ y sel pos, x = member y sel pos
  · obtain ⟨y, sel, pos, rfl⟩ := hmember
    have hy := hx.child (y := y) List.mem_cons_self
    rw [hx.pieces_member] at hL
    obtain ⟨u, v, rfl, hu, hv⟩ := List.map_eq_append_iff.1 hL
    obtain ⟨i, v, rfl, hi, hv⟩ := List.map_eq_cons_iff.1 hv
    obtain ⟨j, rfl, hj⟩ := List.map_eq_singleton_iff.1 hv
    have hdot := Item.token_eq hi
    obtain ⟨htoken, htext⟩ := Prod.mk.inj hj
    simp only [List.length_append, List.length_cons, List.length_nil] at hlen hgets
    rw [List.append_assoc]
    refine ih y List.mem_cons_self hy hu (by omega) (behind_cons hdot (by decide))
      fun z m hm hz => ?_
    obtain ⟨m, rfl⟩ : ∃ m', m = m' + 1 := ⟨m - 1, by omega⟩
    refine .token_cons ?_
    rw [hdot]
    refine .advance (hdot ▸ nofun) (.name htoken ?_)
    have hsel : Swizzle.ofText? j.text = some sel := by
      rw [htext]
      cases sel <;> decide
    simp only [hsel]
    exact hgets _ m (by omega) (congrArg (member · sel .implicit) hz)
  · have hpos := length_pos hx hL
    have hprimary := gets_primaryOf ha hinner hk hx (fun y sel pos h => hmember ⟨y, sel, pos, h⟩) hL
      hlen hrest
    exact .mark fun _ => hprimary.bind fun y hy => .orReset (hgets y n (by omega) hy)

end Operands

/-! ## Operators -/

/-- An operand without operators in front of it. -/
theorem gets_unaryOf {p : Parser Expr} {i : Item} (hi : i.token.opensPrimary = true)
    (h : Gets p (i :: L) M Q) : Gets (unaryOf p (n + 1)) (i :: L) M Q := by
  refine .current_cons ?_
  simp only [Token.unaryOp?_eq_none hi]
  exact h

/-- What operands of a level are is passed on by the levels above. -/
theorem gets_levels {p : Parser Expr} {j levels : Nat} (h : Gets (binaryOf p (n + 1) j) L rest Q)
    (hj : j ≤ levels) (hlevels : levels ≤ topLevel) (hrest : Behind (15 - levels) rest) :
    Gets (binaryOf p (n + 1) levels) L rest Q := by
  induction levels, hj using Nat.le_induction with
  | base => exact h
  | succ levels hj ih =>
    have hlower := ih (by omega) (hrest.mono (by omega))
    refine .mark fun _ => hlower.bind fun x hx => .orReset (.token fun i L' hL => ?_)
    have hgrip := hrest.grip_lt hL
    split
    next op hi =>
      rw [grip_of_binaryOp? hi] at hgrip
      unfold topLevel at *
      omega
    next => exact .pure_of hx

/-- An assignment without its sign is the operand on its left side. -/
theorem gets_assignment (h : Gets (conditionalOf (binaryOf (unaryWith (assignment n) n) n topLevel)
    (assignment n) n) L rest Q) (hrest : Behind 2 rest) : Gets (assignment (n + 1)) L rest Q := by
  refine .mark fun _ => h.bind fun x hx => .orReset (.token fun i L' hL => ?_)
  have hgrip := hrest.grip_lt hL
  split
  next hi =>
    rw [hi] at hgrip
    exact absurd hgrip (Nat.lt_irrefl _)
  next => exact .pure_of hx

theorem gets_conditionalOf {p a : Parser Expr} (h : Gets p L rest Q) (hrest : Behind 3 rest) :
    Gets (conditionalOf p a n) L rest Q :=
  .mark fun _ => h.bind fun _ hx => .orReset (.refuse (hrest.ne (by decide)) (.pure_of hx))

section Applications

variable (ha : Regains 2 (assignment n) k)
  (hinner : RegainsInner (expressionOf (assignment n) n) k) (hlt : k < n)
include ha hinner hlt

/-- An operand is read with what follows its selectors, where no operator is in front of it. -/
theorem gets_operand {x : Expr} (hx : x.Readable) (hL : L.map Item.piece = x.pieces)
    (hlen : L.length ≤ k + 1) (hrest : Behind 16 rest)
    (hgets : ∀ y m, y.Alike x → Gets (selections y (m + 1)) rest M Q) (m : Nat) :
    Gets (unaryOf (selectionOf (primaryOf (assignment n) n) n) (m + 1)) (L ++ rest) M Q := by
  have hselection := gets_selectionOf ha hinner hlt.le hlt hx hL hlen hrest fun y m hm hy => by
    obtain ⟨m, rfl⟩ : ∃ m', m = m' + 1 := ⟨m - 1, by omega⟩
    exact hgets y m hy
  obtain ⟨i, L, rfl, hi⟩ := exists_opens hx hL
  exact gets_unaryOf hi hselection

theorem regains_operand (m : Nat) :
    Regains 15 (unaryOf (selectionOf (primaryOf (assignment n) n) n) (m + 1)) (k + 1) := by
  intro x L rest hx hL hlen hrest
  refine gets_operand ha hinner hlt hx hL hlen (hrest.mono (by decide)) (fun y _ hy => ?_) m
  refine .token fun j L' hL => ?_
  have hgrip := hrest.grip_lt hL
  split
  next hj =>
    rw [hj] at hgrip
    exact absurd hgrip (Nat.lt_irrefl _)
  next hj => exact absurd hgrip (by rw [hj]; decide)
  next => exact .pure_of hy

theorem regains_unaryWith : Regains 15 (unaryWith (assignment n) n) (k + 1) := by
  have h := regains_operand ha hinner hlt (n - 1)
  rwa [Nat.sub_add_cancel (by omega)] at h

theorem regains_binaryOf {levels : Nat} (hlevels : levels ≤ topLevel) :
    Regains (15 - levels) (binaryOf (unaryWith (assignment n) n) n levels) (k + 1) := by
  intro x L rest hx hL hlen hrest
  have hunary := regains_unaryWith ha hinner hlt x L rest hx hL hlen (hrest.mono (by omega))
  obtain ⟨n, rfl⟩ : ∃ n', n = n' + 1 := ⟨n - 1, by omega⟩
  exact gets_levels (j := 0) hunary (Nat.zero_le _) hlevels hrest

omit ha hinner in
/-- What the tightest levels read is an assignment, if nothing goes on with it. -/
theorem gets_assignment_of_binaryOf {levels : Nat} (hlevels : levels ≤ topLevel)
    (h : Gets (binaryOf (unaryWith (assignment n) n) n levels) L rest Q) (hrest : Behind 2 rest) :
    Gets (assignment (n + 1)) L rest Q := by
  refine gets_assignment (gets_conditionalOf ?_ (hrest.mono (by decide))) hrest
  obtain ⟨n, rfl⟩ : ∃ n', n = n' + 1 := ⟨n - 1, by omega⟩
  exact gets_levels h hlevels (Nat.le_refl _) (hrest.mono (by decide))

theorem regains_assignment : Regains 2 (assignment (n + 1)) (k + 1) := by
  intro x L rest hx hL hlen hrest
  refine gets_assignment_of_binaryOf hlt (Nat.zero_le _) ?_ hrest
  exact regains_binaryOf ha hinner hlt (Nat.zero_le _) x L rest hx hL hlen (hrest.mono (by decide))

/-- An operator in front of an operand. -/
theorem gets_signed {op : UnaryOp} {pos : Pos} {x : Expr} {i : Item} {u : List Item}
    (hx : x.Readable) (hi : i.token = op.token) (hu : u.map Item.piece = x.pieces)
    (hlen : u.length ≤ k) (hrest : Behind 15 rest) :
    Gets (unaryWith (assignment n) n) (i :: (u ++ rest)) rest
      fun y => y.Alike (.unary pos op x) := by
  have hop : unaryOp? i.token = some op := by rw [hi, op.unaryOp?_token]
  have hpos := length_pos hx hu
  have hoperand := regains_operand ha hinner hlt (n - 2) x u rest hx hu (by omega) hrest
  obtain ⟨n, rfl⟩ : ∃ n', n = n' + 2 := ⟨n - 2, by omega⟩
  refine .current_cons ?_
  simp only [hop]
  refine .mark fun _ => .orReset (.advance (unaryOp?_ne_eof hop) ?_)
  exact hoperand.bind fun y hy => .pure_of (congrArg (Expr.unary .implicit op) hy)

/-- A step behind an operand. -/
theorem gets_stepped {s : Step} {x : Expr} {i : Item} {u : List Item} (hx : x.Readable)
    (hu : u.map Item.piece = x.pieces) (hi : i.token = .step s) (hlen : u.length ≤ k) :
    Gets (unaryWith (assignment n) n) (u ++ i :: rest) rest fun y => y.Alike (postStep s x) := by
  have hgrip : Behind 16 (i :: rest) := behind_cons hi (Nat.lt_succ_self 15)
  have hselections : ∀ y m, y.Alike x →
      Gets (selections y (m + 1)) (i :: rest) rest fun y => y.Alike (postStep s x) := by
    intro y m hy
    refine .token_cons ?_
    rw [hi]
    exact .advance (hi ▸ nofun) (.pure_of (congrArg (postStep s) hy))
  have hoperand := gets_operand ha hinner hlt hx hu (by omega) hgrip hselections (n - 1)
  rwa [Nat.sub_add_cancel (by omega)] at hoperand

/-- An operator between two operands, which is one of the tightest levels. -/
theorem gets_binaryOf {op : BinaryOp} {x y : Expr} {i : Item} {u v : List Item} (hx : x.Readable)
    (hy : y.Readable) (hu : u.map Item.piece = x.pieces) (hi : i.token = .binary op)
    (hv : v.map Item.piece = y.pieces) (hlen : u.length + v.length ≤ k)
    (hrest : Behind 4 rest) : ∃ levels ≤ topLevel,
    Gets (binaryOf (unaryWith (assignment n) n) n levels) (u ++ i :: (v ++ rest)) rest
      fun z => z.Alike (.binary op x y) := by
  obtain ⟨hpos, htop⟩ := op.precedence_bounds
  refine ⟨topLevel - op.precedence + 1, by omega, .mark fun _ => ?_⟩
  have hlevel : topLevel - (topLevel - op.precedence) = op.precedence := by omega
  have hoperand := regains_binaryOf ha hinner hlt (Nat.sub_le topLevel op.precedence)
  have hgrip : (Token.binary op).grip < 15 - (topLevel - op.precedence) := by
    rw [Token.grip]
    unfold topLevel at *
    omega
  have hop : binaryOp? (topLevel - (topLevel - op.precedence)) i.token = some op := by
    rw [hi, hlevel]
    exact if_pos rfl
  -- the operands are not empty, so the bound allows for an operator and for the end of the chain
  have hlong := length_pos hx hu
  have hlong' := length_pos hy hv
  obtain ⟨n, rfl⟩ : ∃ n', n = n' + 2 := ⟨n - 2, by omega⟩
  refine (hoperand x u _ hx hu (by omega) (behind_cons hi hgrip)).bind fun x' hx' => .orReset ?_
  refine .token_cons ?_
  simp only [hop]
  refine .advance (binaryOp?_ne_eof hop) ?_
  have hrest' : Behind (15 - (topLevel - op.precedence)) rest := hrest.mono <| by
    unfold topLevel at *
    omega
  refine (hoperand y v rest hy hv (by omega) hrest').bind fun y' hy' => .token fun j L' hL => ?_
  have hend := hrest.grip_lt hL
  split
  next hj =>
    rw [grip_of_binaryOp? hj] at hend
    omega
  next => exact .pure_of (congrArg₂ (Expr.binary op) hx' hy')

/-- A sign of assignment between two operands. -/
theorem gets_assigned {op : Option ArithOp} {x y : Expr} {i : Item} {u v : List Item}
    (hx : x.Readable) (hy : y.Readable) (hu : u.map Item.piece = x.pieces)
    (hi : i.token = .assign op) (hv : v.map Item.piece = y.pieces) (hlen : u.length + v.length ≤ k)
    (hrest : Behind 2 rest) :
    Gets (assignment (n + 1)) (u ++ i :: (v ++ rest)) rest fun z => z.Alike (assign op x y) := by
  have hgrip : ∀ g, 2 < g → Behind g (i :: (v ++ rest)) := fun g hg => behind_cons hi hg
  have hleft := regains_binaryOf ha hinner hlt (Nat.le_refl topLevel) x u _ hx hu (by omega)
    (hgrip 4 (by decide))
  refine .mark fun _ => ?_
  refine (gets_conditionalOf hleft (hgrip 3 (by decide))).bind fun x' hx' => .orReset ?_
  refine .token_cons ?_
  rw [hi]
  refine .advance (hi ▸ nofun) ((ha y v rest hy hv (by omega) hrest).bind fun y' hy' => ?_)
  exact .pure_of (congrArg₂ (assign op) hx' hy')

/-- A choice between two operands. -/
theorem gets_chosen {c x y : Expr} {i j : Item} {u v w : List Item} (hc : c.Readable)
    (hx : x.Readable) (hy : y.Readable) (hu : u.map Item.piece = c.pieces)
    (hi : i.token = .question) (hv : v.map Item.piece = x.pieces) (hj : j.token = .colon)
    (hw : w.map Item.piece = y.pieces)
    (hlen : u.length + v.length + w.length ≤ k) (hrest : Behind 2 rest) :
    Gets (assignment (n + 1)) (u ++ i :: (v ++ j :: (w ++ rest))) rest
      fun z => z.Alike (cond c x y) := by
  have hquestion : Behind 4 (i :: (v ++ j :: (w ++ rest))) := behind_cons hi (by decide)
  have hcolon : ∀ g, 0 < g → Behind g (j :: (w ++ rest)) := fun g hg => behind_cons hj hg
  have htest := regains_binaryOf ha hinner hlt (Nat.le_refl topLevel) c u _ hc hu (by omega)
    hquestion
  have hmiddle := ha x v _ hx hv (by omega) (hcolon 2 (by decide))
  refine gets_assignment (.mark fun _ => htest.bind fun c' hc' => ?_) hrest
  refine .orReset (.accept hi ?_ nofun)
  refine (gets_expressionOf hmiddle (hcolon 1 (by decide))).bind fun x' hx' => ?_
  refine .expect hj ((ha y w rest hy hw (by omega) hrest).bind fun y' hy' => .pure_of ?_) nofun
  change Expr.cond c'.shape x'.shape y'.shape = Expr.cond c.shape x.shape y.shape
  rw [hc', hx', hy']

/-- The application of an operator is read without its parentheses. -/
theorem regainsInner_expressionOf :
    RegainsInner (expressionOf (assignment (n + 1)) (n + 1)) (k + 1) := by
  intro x L rest hx hL hlen hrest
  have hbehind : Behind 2 rest := hrest.mono (by decide)
  have hclosed := regains_assignment ha hinner hlt
  cases x with
  | unary pos op x =>
    have hx := hx.child (y := x) List.mem_cons_self
    obtain ⟨i, u, rfl, hi, hu⟩ := List.map_eq_cons_iff.1 hL
    rw [List.length_cons] at hlen
    refine gets_expressionOf (gets_assignment_of_binaryOf hlt (Nat.zero_le _) ?_ hbehind) hrest
    exact gets_signed ha hinner hlt hx (Item.token_eq hi) hu (by omega) (hrest.mono (by decide))
  | postStep s x =>
    have hx := hx.child (y := x) List.mem_cons_self
    obtain ⟨u, v, rfl, hu, hv⟩ := List.map_eq_append_iff.1 hL
    obtain ⟨i, rfl, hi⟩ := List.map_eq_singleton_iff.1 hv
    rw [List.length_append] at hlen
    rw [List.append_assoc]
    refine gets_expressionOf (gets_assignment_of_binaryOf hlt (Nat.zero_le _) ?_ hbehind) hrest
    exact gets_stepped ha hinner hlt hx hu (Item.token_eq hi) (by omega)
  | binary op x y =>
    have hy := hx.child (y := y) (List.mem_cons_of_mem _ List.mem_cons_self)
    have hx := hx.child (y := x) List.mem_cons_self
    obtain ⟨u, v, rfl, hu, hv⟩ := List.map_eq_append_iff.1 hL
    obtain ⟨i, v, rfl, hi, hv⟩ := List.map_eq_cons_iff.1 hv
    rw [List.length_append, List.length_cons] at hlen
    rw [List.append_assoc]
    obtain ⟨levels, hlevels, hbinary⟩ := gets_binaryOf ha hinner hlt hx hy hu (Item.token_eq hi) hv
      (by omega) (hrest.mono (by decide))
    exact gets_expressionOf (gets_assignment_of_binaryOf hlt hlevels hbinary hbehind) hrest
  | assign op x y =>
    have hy := hx.child (y := y) (List.mem_cons_of_mem _ List.mem_cons_self)
    have hx := hx.child (y := x) List.mem_cons_self
    obtain ⟨u, v, rfl, hu, hv⟩ := List.map_eq_append_iff.1 hL
    obtain ⟨i, v, rfl, hi, hv⟩ := List.map_eq_cons_iff.1 hv
    rw [List.length_append, List.length_cons] at hlen
    rw [List.append_assoc]
    refine gets_expressionOf ?_ hrest
    exact gets_assigned ha hinner hlt hx hy hu (Item.token_eq hi) hv (by omega) hbehind
  | cond c x y =>
    have hy := hx.child (y := y)
      (List.mem_cons_of_mem _ (List.mem_cons_of_mem _ List.mem_cons_self))
    have hc := hx.child (y := c) List.mem_cons_self
    have hx := hx.child (y := x) (List.mem_cons_of_mem _ List.mem_cons_self)
    obtain ⟨v, w, rfl, hv, hw⟩ := List.map_eq_append_iff.1 hL
    obtain ⟨u, v, rfl, hu, hv⟩ := List.map_eq_append_iff.1 hv
    obtain ⟨i, v, rfl, hi, hv⟩ := List.map_eq_cons_iff.1 hv
    obtain ⟨j, w, rfl, hj, hw⟩ := List.map_eq_cons_iff.1 hw
    simp only [List.length_append, List.length_cons] at hlen
    simp only [List.append_assoc, List.cons_append]
    refine gets_expressionOf ?_ hrest
    exact gets_chosen ha hinner hlt hc hx hy hu (Item.token_eq hi) hv (Item.token_eq hj) hw
      (by omega) hbehind
  | seq first more =>
    obtain ⟨y, ys, rfl⟩ := List.exists_cons_of_ne_nil hx.legible.node
    have hmore : ∀ z ∈ y :: ys, z.Readable := fun z hz => hx.child (List.mem_cons_of_mem _ hz)
    -- a list with commas is read here, and never as an operand
    have hfirst := hx.child (y := first) List.mem_cons_self
    obtain ⟨u, v, rfl, hu, hv⟩ := List.map_eq_append_iff.1 hL
    obtain ⟨i, v, rfl, hi, hv⟩ := List.map_eq_cons_iff.1 hv
    have hcomma := Item.token_eq hi
    rw [List.length_append, List.length_cons] at hlen
    rw [List.append_assoc]
    refine .mark fun _ => ?_
    refine (hclosed first u _ hfirst hu (by omega) (behind_cons hcomma (by decide))).bind
      fun x' hx' => .orReset (.accept hcomma ?_ nofun)
    refine (gets_commaList hclosed hmore hv (by omega) (by omega) hrest).bind fun ys' hys' => ?_
    exact .pure_of (congrArg₂ Expr.seq hx' hys')
  | _ =>
    refine gets_expressionOf ?_ hrest
    exact hclosed _ L rest hx hL hlen.le hbehind

end Applications

/-- An expression is read from its pieces, with and without the parentheses around it. -/
theorem regains : ∀ {k n : Nat}, k < n →
    Regains 2 (assignment n) k ∧ RegainsInner (expressionOf (assignment n) n) k
  | 0, n, _ => by
    refine ⟨fun x L rest hx hL hlen => ?_, fun _ _ _ _ _ => nofun⟩
    have hpos := length_pos hx hL
    omega
  | k + 1, n + 1, hlt => by
    obtain ⟨ha, hinner⟩ := regains (Nat.lt_of_succ_lt_succ hlt)
    have hlt : k < n := Nat.lt_of_succ_lt_succ hlt
    exact ⟨regains_assignment ha hinner hlt, regainsInner_expressionOf ha hinner hlt⟩

theorem gets_expression {x : Expr} (hx : x.Readable) (hL : L.map Item.piece = x.pieces)
    (hlen : L.length < n) (hrest : Behind 1 rest) :
    Gets (expression n) (L ++ rest) rest fun y => y.Alike x :=
  gets_expressionOf ((regains hlen).1 x L rest hx hL (Nat.le_refl _) (hrest.mono (by decide))) hrest

end Grammar

/-! ## Sources -/

open Shader.Grammar

/-- What scanning reports comes first among what parsing reports. -/
theorem Source.parseExpr_of_report {s : Source} {r : Report} {rest : List Report}
    (h : s.scan.reports = r :: rest) : ∃ more, s.parseExpr = .error (r :: more) := by
  rcases hrun : expression (depthBound s.scan.items)
    { stream := { items := s.scan.items }, reports := s.scan.reports } with ⟨read, t⟩
  obtain ⟨hreports, hcases⟩ := wholeExpr_cases s.ready_scan hrun
  have hreports : t.reports = r :: rest := hreports.trans h
  rcases hcases with ⟨x, i, left, -, -, -, hwhole⟩ | ⟨-, s', more, hwhole, hmore⟩
  · refine ⟨rest, ?_⟩
    rw [parseExpr_eq_some hwhole, hreports]
    rfl
  · refine ⟨rest ++ more, ?_⟩
    rw [parseExpr_eq_none hwhole, hmore, hreports]
    rfl

namespace Expr

/-- The rendering of a readable expression is parsed. -/
theorem Readable.parseExpr_source {x : Expr} (h : x.Readable) (file : String) :
    ∃ y, (x.source file).parseExpr = .ok y ∧ y.Alike x := by
  obtain ⟨items, e, hitems, he, hscan, hreports⟩ := scan_source file h.legible
  rw [(errors_eq_nil_iff x).2 h.plain] at hreports
  have hreports := List.map_eq_nil_iff.1 hreports
  have hready := (x.source file).ready_scan
  have hlen : items.length < depthBound (x.source file).scan.items := by
    rw [hscan, depthBound, List.length_append]
    omega
  have hend : Behind 1 [e] := behind_cons he (by decide)
  obtain ⟨y, t, hrun, -, hleft, hy⟩ := gets_expression h hitems hlen hend _ hready hscan
  obtain ⟨hsame, hcases⟩ := wholeExpr_cases hready hrun
  rcases hcases with ⟨_, i, rest, ⟨⟩, -, -, hwhole⟩ | ⟨hstuck, -⟩
  · refine ⟨y, ?_, hy⟩
    rw [Source.parseExpr_eq_some hwhole, hsame, hreports]
    rfl
  · exact absurd he (hstuck y rfl e (by rw [hleft]; rfl))

/-- A number with a selector behind it cannot be read again. -/
theorem SelectsNumber.parseExpr_source {x : Expr} (h : x.SelectsNumber) (hx : x.Legible)
    (file : String) : ∃ text r more, (x.source file).parseExpr = .error (r :: more) ∧
      r.message = (LexError.malformed text).message := by
  obtain ⟨-, -, -, -, -, hreports⟩ := scan_source file hx
  obtain ⟨e, es, herrors⟩ := List.exists_cons_of_ne_nil (mt (errors_eq_nil_iff x).1 (not_not.2 h))
  obtain ⟨text, rfl⟩ := exists_malformed (e := e) (by rw [herrors]; exact List.mem_cons_self)
  rw [herrors, List.map_cons] at hreports
  obtain ⟨r, rest, hcons, hr, -⟩ := List.map_eq_cons_iff.1 hreports
  obtain ⟨more, hmore⟩ := Source.parseExpr_of_report hcons
  exact ⟨text, r, more, hmore, hr⟩

end Expr

/-- The rendering of a parsed expression is parsed to the same expression, places apart, exactly if
no selector stands behind a number in it, and otherwise there is a malformed number. So expressions
without such selectors are told apart by their renderings. -/
theorem Source.parseExpr_render {s : Source} {x : Expr} (h : s.parseExpr = .ok x) :
    (∀ file, ((∃ y, (x.source file).parseExpr = .ok y ∧ y.Alike x) ↔ ¬ x.SelectsNumber) ∧
      (x.SelectsNumber → ∃ text r more, (x.source file).parseExpr = .error (r :: more) ∧
        r.message = (LexError.malformed text).message)) ∧
    ∀ s' : Source, ∀ x' : Expr, s'.parseExpr = .ok x' → ¬ x.SelectsNumber → ¬ x'.SelectsNumber →
      x.render = x'.render → x.Alike x' := by
  have hx := legible_parseExpr h
  refine ⟨fun file => ⟨⟨?_, fun hplain => ?_⟩, fun hselects => ?_⟩, ?_⟩
  · rintro ⟨y, hy, -⟩ hselects
    obtain ⟨text, r, more, herror, -⟩ := hselects.parseExpr_source hx file
    cases hy.symm.trans herror
  · exact Expr.Readable.parseExpr_source ⟨hx, hplain⟩ file
  · exact hselects.parseExpr_source hx file
  · intro s' x' h' hplain hplain' hrender
    obtain ⟨y, hy, halike⟩ := Expr.Readable.parseExpr_source ⟨hx, hplain⟩ ""
    obtain ⟨y', hy', halike'⟩ := Expr.Readable.parseExpr_source ⟨legible_parseExpr h', hplain'⟩ ""
    have hsource : x.source "" = x'.source "" := by rw [Expr.source, hrender, Expr.source]
    rw [hsource] at hy
    obtain rfl := Except.ok.inj (hy.symm.trans hy')
    exact halike.symm.trans halike'

/-- An expression that a text is seen to be when it is parsed. -/
theorem Source.exists_parseExpr {s : Source} (hreports : s.scan.reports = []) {t : Expr → Bool}
    (hrun : (wholeExpr (depthBound s.scan.items) { stream := { items := s.scan.items } }).1.map t =
      some true) : ∃ x, s.parseExpr = .ok x ∧ t x = true := by
  have hready := s.ready_scan
  rw [hreports] at hready
  rcases hread : expression (depthBound s.scan.items) { stream := { items := s.scan.items } }
    with ⟨r, s'⟩
  obtain ⟨hsame, ⟨x, i, rest, -, -, -, hwhole⟩ | ⟨-, t, more, hwhole, -⟩⟩ :=
    wholeExpr_cases hready hread
  · rw [hwhole] at hrun
    refine ⟨x, ?_, Option.some.inj hrun⟩
    rw [← hreports] at hwhole
    rw [parseExpr_eq_some hwhole, hsame]
    rfl
  · rw [hwhole] at hrun
    cases hrun

/-- A sign in front of a selection. -/
def bareSign : Source where
  bytes := "-a.x".toUTF8.toList

/-- The same with parentheses that make no difference. -/
def groupedSign : Source where
  bytes := "-(a.x)".toUTF8.toList

/-- A number with a selector behind it. -/
def selectedNumber : Source where
  bytes := "(2).x".toUTF8.toList

/-- The first two are rendered alike and are the same, and the rendering of the last is no
expression. -/
theorem Source.parseExpr_render_bareSign :
    (∃ x x' y, bareSign.parseExpr = .ok x ∧ groupedSign.parseExpr = .ok x' ∧ x.Alike x' ∧
      (x.source "").parseExpr = .ok y ∧ y.Alike x) ∧
    ∃ x text r more, selectedNumber.parseExpr = .ok x ∧
      (x.source "").parseExpr = .error (r :: more) ∧
      r.message = (LexError.malformed text).message := by
  have hbare : bareSign.scan.reports = [] := scan_reports_eq_nil (by decide +kernel)
  have hgrouped : groupedSign.scan.reports = [] := scan_reports_eq_nil (by decide +kernel)
  have hselected : selectedNumber.scan.reports = [] := scan_reports_eq_nil (by decide +kernel)
  obtain ⟨x, hx, htest⟩ := exists_parseExpr hbare
    (t := fun x => x.errors.isEmpty && x.render == "(-a.x)") (by decide +kernel)
  obtain ⟨x', hx', htest'⟩ := exists_parseExpr hgrouped
    (t := fun x => x.errors.isEmpty && x.render == "(-a.x)") (by decide +kernel)
  obtain ⟨z, hz, hwrong⟩ := exists_parseExpr hselected
    (t := fun x => !x.errors.isEmpty) (by decide +kernel)
  simp only [Bool.and_eq_true, List.isEmpty_iff, Expr.errors_eq_nil_iff, beq_iff_eq] at htest htest'
  simp only [Bool.not_eq_true', List.isEmpty_eq_false_iff, ne_eq, Expr.errors_eq_nil_iff,
    not_not] at hwrong
  obtain ⟨hagain, hinjective⟩ := parseExpr_render hx
  obtain ⟨y, hy, halike⟩ := (hagain "").1.2 htest.1
  have hrender : x.render = x'.render := htest.2.trans htest'.2.symm
  obtain ⟨text, r, more, herror, hmessage⟩ := ((parseExpr_render hz).1 "").2 hwrong
  exact ⟨⟨x, x', y, hx, hx', hinjective _ _ hx' htest.1 htest'.1 hrender, hy, halike⟩,
    z, text, r, more, hz, herror, hmessage⟩

end Shader
