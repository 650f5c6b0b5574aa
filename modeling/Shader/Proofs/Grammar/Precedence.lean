import Shader.Proofs.Grammar.Occurrences
import Shader.Proofs.Grammar.Reparsing

/-!
# Operators group by their precedence

Names with operators between them are read as one expression, however many there are. Read from
left to right it has these names and these operators, and every operator groups as its precedence
says: on its left side stands no operator that binds less tightly, and on its right side only
operators that bind more tightly. No other expression is like this.

The productions of the levels are taken from the tightest to the loosest. A level splits the
operators in front of those that are its own, and leaves what is between them to the level above.
-/

namespace Shader

namespace Expr

/-! ## Expressions read from left to right -/

/-- The operator that is applied last, if it stands between two operands. -/
def operator? : Expr → Option BinaryOp
  | binary op _ _ => some op
  | _ => none

/-- The operands and the operators between them in the order of the text. An expression of any
other form is one operand. -/
def inorder : Expr → List (Expr ⊕ BinaryOp)
  | binary op x y => inorder x ++ .inr op :: inorder y
  | x => [.inl x]

/-- Every operator groups as its precedence says; operators of one precedence group to the left. -/
def Grouped : Expr → Prop
  | binary op x y =>
    (∀ o ∈ x.operator?, op.precedence ≤ o.precedence) ∧
      (∀ o ∈ y.operator?, op.precedence < o.precedence) ∧ x.Grouped ∧ y.Grouped
  | _ => True

theorem inorder_of_operator? {x : Expr} (h : x.operator? = none) : x.inorder = [.inl x] := by
  cases x with
  | binary => cases h
  | _ => rfl

theorem exists_of_operator? {x : Expr} {op : BinaryOp} (h : x.operator? = some op) :
    ∃ y z, x = binary op y z := by
  cases x with
  | binary op' y z =>
    cases h
    exact ⟨y, z, rfl⟩
  | _ => cases h

/-- No operator of an expression binds less tightly than the one that is applied last. -/
theorem Grouped.precedence_le {x : Expr} (h : x.Grouped) {k : Nat}
    (hk : ∀ o ∈ x.operator?, k ≤ o.precedence) {op : BinaryOp} (hop : .inr op ∈ x.inorder) :
    k ≤ op.precedence := by
  induction x using Expr.induction generalizing k with
  | h x ih =>
  rcases hx : x.operator? with _ | o
  · rw [inorder_of_operator? hx] at hop
    cases List.mem_singleton.1 hop
  obtain ⟨y, z, rfl⟩ := exists_of_operator? hx
  obtain ⟨hy, hz, hgy, hgz⟩ := h
  have hko : k ≤ o.precedence := hk o rfl
  rw [inorder, List.mem_append, List.mem_cons] at hop
  rcases hop with hop | heq | hop
  · exact ih y List.mem_cons_self hgy (fun o' ho' => hko.trans (hy o' ho')) hop
  · exact Sum.inr.inj heq ▸ hko
  · have hmem : z ∈ (binary o y z).children := List.mem_cons_of_mem _ List.mem_cons_self
    exact ih z hmem hgz (fun o' ho' => hko.trans (hz o' ho').le) hop

/-- Where the last operator of an expression stands is decided by the precedences: it is the last
one of those that bind least tightly. -/
theorem Grouped.split {u v u' v' : List (Expr ⊕ BinaryOp)} {op op' : BinaryOp}
    (h : u ++ .inr op :: v = u' ++ .inr op' :: v')
    (hu : ∀ o, .inr o ∈ u' → op'.precedence ≤ o.precedence)
    (hv : ∀ o, .inr o ∈ v → op.precedence < o.precedence) : u'.length ≤ u.length := by
  by_contra hlt
  obtain ⟨w, rfl, hw⟩ | ⟨w, rfl, hw⟩ := List.append_eq_append_iff.1 h
  · rcases w with _ | ⟨e, w⟩
    · simp at hlt
    -- then each of the two operators would be beside the other
    obtain ⟨rfl, rfl⟩ := List.cons.inj hw
    have hle := hu op (List.mem_append_right _ List.mem_cons_self)
    have hgt := hv op' (List.mem_append_right _ List.mem_cons_self)
    omega
  · simp at hlt

/-- An expression that groups by precedence is known by its operands and operators. -/
theorem Grouped.eq_of_inorder {x y : Expr} (hx : x.Grouped) (hy : y.Grouped)
    (h : x.inorder = y.inorder) : x = y := by
  induction x using Expr.induction generalizing y with
  | h x ih =>
  rcases hox : x.operator? with _ | op
  · rcases hoy : y.operator? with _ | op'
    · rw [inorder_of_operator? hox, inorder_of_operator? hoy] at h
      exact Sum.inl.inj (List.singleton_inj.1 h)
    · obtain ⟨y₁, y₂, rfl⟩ := exists_of_operator? hoy
      have hmem : .inr op' ∈ x.inorder := by
        rw [h, inorder]
        exact List.mem_append_right _ List.mem_cons_self
      rw [inorder_of_operator? hox] at hmem
      cases List.mem_singleton.1 hmem
  obtain ⟨x₁, x₂, rfl⟩ := exists_of_operator? hox
  rcases hoy : y.operator? with _ | op'
  · have hmem : .inr op ∈ y.inorder := by
      rw [← h, inorder]
      exact List.mem_append_right _ List.mem_cons_self
    rw [inorder_of_operator? hoy] at hmem
    cases List.mem_singleton.1 hmem
  obtain ⟨y₁, y₂, rfl⟩ := exists_of_operator? hoy
  obtain ⟨hx₁, hx₂, hgx₁, hgx₂⟩ := hx
  obtain ⟨hy₁, hy₂, hgy₁, hgy₂⟩ := hy
  rw [inorder, inorder] at h
  have hle := Grouped.split h (fun o ho => hgy₁.precedence_le hy₁ ho)
    fun o ho => hgx₂.precedence_le (fun o' ho' => hx₂ o' ho') ho
  have hge := Grouped.split h.symm (fun o ho => hgx₁.precedence_le hx₁ ho)
    fun o ho => hgy₂.precedence_le (fun o' ho' => hy₂ o' ho') ho
  obtain ⟨h₁, hcons⟩ := List.append_inj h (Nat.le_antisymm hge hle)
  obtain ⟨heq, h₂⟩ := List.cons.inj hcons
  rw [Sum.inr.inj heq, ih x₁ List.mem_cons_self hgx₁ hgy₁ h₁,
    ih x₂ (List.mem_cons_of_mem _ List.mem_cons_self) hgx₂ hgy₂ h₂]

end Expr

/-! ## Names with operators between them -/

/-- An operator at its place, and the name behind it. -/
structure Link where
  /-- the operator -/
  op : BinaryOp
  /-- where it stands -/
  pos : Pos
  /-- the name -/
  operand : Name

namespace Link

/-- The items of links. -/
def items (ls : List Link) : List Item :=
  ls.flatMap fun l => [⟨.binary l.op, l.op.sign, l.pos⟩, l.operand.item]

/-- The operators of links and the names behind them. -/
def inorder (ls : List Link) : List (Expr ⊕ BinaryOp) :=
  ls.flatMap fun l => [.inr l.op, .inl (.name l.operand)]

theorem items_cons (l : Link) (ls : List Link) :
    items (l :: ls) = ⟨.binary l.op, l.op.sign, l.pos⟩ :: l.operand.item :: items ls := rfl

theorem items_append (ls ls' : List Link) : items (ls ++ ls') = items ls ++ items ls' :=
  List.flatMap_append

theorem length_items (ls : List Link) : (items ls).length = 2 * ls.length := by
  induction ls with
  | nil => rfl
  | cons l ls ih =>
    rw [items_cons, List.length_cons, List.length_cons, List.length_cons, ih]
    omega

theorem inorder_append (ls ls' : List Link) : inorder (ls ++ ls') = inorder ls ++ inorder ls' :=
  List.flatMap_append

end Link

namespace Grammar

open Shader.Parser Shader.Expr

variable {n : Nat} {rest : List Item}

/-- A name is an operand, if nothing holds on to it more strongly than an operator. -/
theorem gets_unary_name (a : Name) (hrest : Behind 15 rest) :
    Gets (unary (n + 1)) (a.item :: rest) rest fun x => x = .name a := by
  refine gets_unaryOf (i := a.item) rfl (.mark fun _ => ?_)
  have hname : Gets (primaryOf (assignment (n + 1)) (n + 1)) (a.item :: rest) rest
      fun x => x = .name a := by
    refine gets_named rfl (.name rfl (.token fun j L' hL => ?_))
    have hgrip := hrest.grip_lt hL
    split
    next hj => exact absurd hgrip (by rw [hj]; decide)
    next hj => exact absurd hgrip (by rw [hj]; decide)
    next => exact .pure_of rfl
  refine hname.bind fun x hx => .orReset (.token fun j L' hL => ?_)
  have hgrip := hrest.grip_lt hL
  split
  next hj =>
    rw [hj] at hgrip
    exact absurd hgrip (Nat.lt_irrefl _)
  next hj => exact absurd hgrip (by rw [hj]; decide)
  next => exact .pure_of hx

/-- What is read of names and links: all of them, grouped by precedence, and no operator that
binds less tightly than one of the first level that may stand there. -/
structure Grouping (level : Nat) (before : List (Expr ⊕ BinaryOp)) (ls : List Link) (x : Expr) :
    Prop where
  /-- nothing is lost and nothing moved -/
  inorder : x.inorder = before ++ Link.inorder ls
  /-- the operators group by precedence -/
  grouped : x.Grouped
  /-- the one that is applied last is of that level or of a tighter one -/
  tight : ∀ o ∈ x.operator?, level ≤ o.precedence

/-- Behind links that are tighter than a level there is nothing or an operator of the level. -/
theorem behind_links {level : Nat} {ls : List Link}
    (hhead : ∀ l ∈ ls.head?, l.op.precedence = level) (hrest : Behind (3 + level) rest) :
    Behind (4 + level) (Link.items ls ++ rest) := by
  rcases ls with _ | ⟨l, ls⟩
  · exact hrest.mono (by omega)
  · refine behind_cons rfl ?_
    rw [Token.grip, hhead l rfl]
    omega

/-- Links fall into those that are tighter than a level, in front of the first that is not, and the
others. -/
theorem exists_tighter {level : Nat} {ls : List Link} (hls : ∀ l ∈ ls, level ≤ l.op.precedence) :
    ∃ tighter others, ls = tighter ++ others ∧ (∀ l ∈ tighter, level < l.op.precedence) ∧
      (∀ l ∈ others, level ≤ l.op.precedence) ∧ ∀ l ∈ others.head?, l.op.precedence = level := by
  refine ⟨ls.takeWhile fun l => level < l.op.precedence,
    ls.dropWhile fun l => level < l.op.precedence, List.takeWhile_append_dropWhile.symm,
    fun l hl => by simpa using List.mem_takeWhile_imp hl,
    fun l hl => hls l ((List.dropWhile_sublist _).mem hl), fun l hl => ?_⟩
  have hnot := List.head?_dropWhile_not (fun l : Link => decide (level < l.op.precedence)) ls
  rw [Option.mem_def.1 hl] at hnot
  have hge := hls l ((List.dropWhile_sublist _).mem (List.mem_of_mem_head? hl))
  exact Nat.le_antisymm (by simpa using hnot) hge

/-- A parser reads a name and the links behind it that are tighter than a level. -/
def ReadsLinks (level k : Nat) (p : Parser Expr) : Prop :=
  ∀ (a : Name) (ls : List Link) {rest : List Item}, ls.length ≤ k →
    (∀ l ∈ ls, level < l.op.precedence) → Behind (4 + level) rest →
    Gets p (a.item :: (Link.items ls ++ rest)) rest (Grouping (level + 1) [.inl (.name a)] ls)

/-- Behind a first operand a level reads all links, each operator of its own with the tighter links
behind it. -/
theorem gets_chain {p : Parser Expr} {level k : Nat} (hp : ReadsLinks level k p) :
    ∀ {n : Nat} {x : Expr} {ls : List Link} {rest : List Item}, ls.length ≤ k → ls.length < n →
      (∀ l ∈ ls, level ≤ l.op.precedence) → (∀ l ∈ ls.head?, l.op.precedence = level) →
      x.Grouped → (∀ o ∈ x.operator?, level ≤ o.precedence) → Behind (3 + level) rest →
      Gets (chain level p x n) (Link.items ls ++ rest) rest (Grouping level x.inorder ls)
  | n + 1, x, [], rest, _, _, _, _, hx, htight, hrest => by
    refine .token fun i L' hL => ?_
    have hgrip := hrest.grip_lt hL
    split
    next op hi =>
      rw [grip_of_binaryOp? hi] at hgrip
      omega
    next => exact .pure_of ⟨(List.append_nil _).symm, hx, htight⟩
  | n + 1, x, l :: ls, rest, hk, hn, hls, hhead, hx, htight, hrest => by
    have hop : l.op.precedence = level := hhead l rfl
    -- the links up to the next operator of the level belong to the operand behind this one
    obtain ⟨tighter, others, rfl, htighter, hothers, hnext⟩ :=
      exists_tighter fun l' hl' => hls l' (List.mem_cons_of_mem _ hl')
    rw [List.length_cons, List.length_append] at hk hn
    rw [Link.items_cons, Link.items_append, List.cons_append, List.cons_append, List.append_assoc]
    refine .token_cons ?_
    have hfound : binaryOp? level (.binary l.op) = some l.op := if_pos hop
    simp only [hfound]
    refine .advance nofun ?_
    have hoperand := hp l.operand tighter (by omega) htighter (behind_links hnext hrest)
    refine hoperand.bind fun y hy => ?_
    have hgrouped : (Expr.binary l.op x y).Grouped :=
      ⟨fun o ho => hop ▸ htight o ho, fun o ho => hop ▸ hy.tight o ho, hx, hy.grouped⟩
    have htail := gets_chain hp (n := n) (x := .binary l.op x y) (by omega) (by omega) hothers hnext
      hgrouped (fun o ho => Option.some.inj ho ▸ hop.ge) hrest
    refine htail.weaken fun z hz => ⟨?_, hz.grouped, hz.tight⟩
    rw [hz.inorder, Expr.inorder, hy.inorder]
    simp [Link.inorder]

/-- A level reads what the level above it reads, and the links with operators of its own. -/
theorem ReadsLinks.next {levels : Nat} (hlevels : levels < topLevel)
    (hp : ReadsLinks (topLevel - levels) n (binary (n + 1) levels)) :
    ReadsLinks (topLevel - (levels + 1)) n (binary (n + 1) (levels + 1)) := by
  intro a ls rest hlength hls hrest
  obtain ⟨level, hlevel⟩ : ∃ level, topLevel - levels = level + 1 :=
    ⟨topLevel - levels - 1, by omega⟩
  have hbelow : topLevel - (levels + 1) = level := by omega
  rw [hlevel] at hp
  rw [hbelow] at hls hrest ⊢
  obtain ⟨tighter, others, rfl, htighter, hothers, hnext⟩ := exists_tighter hls
  rw [List.length_append] at hlength
  rw [Link.items_append, List.append_assoc]
  have hrest' : Behind (3 + (level + 1)) rest := hrest.mono (by omega)
  have hoperand := hp a tighter (by omega) htighter (behind_links hnext hrest')
  refine .mark fun _ => hoperand.bind fun x hx => .orReset ?_
  have hchain := gets_chain hp (n := n + 1) (x := x) (by omega) (by omega) hothers hnext hx.grouped
    (fun o ho => Nat.le_of_succ_le (hx.tight o ho)) hrest'
  rw [hlevel]
  refine hchain.weaken fun y hy => ⟨?_, hy.grouped, hy.tight⟩
  rw [hy.inorder, hx.inorder, Link.inorder_append, List.append_assoc]

/-- All levels together read names and links of any operators. -/
theorem readsLinks_binary : ∀ {levels : Nat}, levels ≤ topLevel →
    ReadsLinks (topLevel - levels) n (binary (n + 1) levels)
  | 0, _ => fun a ls rest _ hls hrest => by
    obtain rfl : ls = [] := List.eq_nil_iff_forall_not_mem.2 fun l hl =>
      absurd (hls l hl) (Nat.not_lt.2 l.op.precedence_bounds.2)
    refine (gets_unary_name a hrest).weaken fun x hx => ?_
    subst hx
    exact ⟨rfl, trivial, nofun⟩
  | _ + 1, hlevels => (readsLinks_binary (Nat.le_of_succ_le hlevels)).next hlevels

end Grammar

open Grammar

/-- A name, and links behind it. -/
def Name.linked (a : Name) (ls : List Link) : List Item := a.item :: Link.items ls

/-- The operands and the operators of a name and links, as they stand in the text. -/
def Name.inorder (a : Name) (ls : List Link) : List (Expr ⊕ BinaryOp) :=
  .inl (.name a) :: Link.inorder ls

theorem Name.length_linked (a : Name) (ls : List Link) :
    (a.linked ls).length = 2 * ls.length + 1 := by
  rw [linked, List.length_cons, Link.length_items]

/-- In front of the end of the text all links are read, grouped by precedence. -/
theorem gets_linked {n : Nat} (a : Name) {ls : List Link} {e : Item} (hls : ls.length ≤ n)
    (he : e.token = .eof) : Parser.Gets (binary (n + 1) topLevel) (a.linked ls ++ [e]) [e]
      fun x => x.inorder = a.inorder ls ∧ x.Grouped := by
  have hbehind : Behind (4 + (topLevel - topLevel)) [e] := behind_cons he (by decide)
  have hreads := readsLinks_binary (Nat.le_refl topLevel) a ls hls
    (fun l _ => by rw [Nat.sub_self]; exact l.op.precedence_bounds.1) hbehind
  exact hreads.weaken fun x hx => ⟨hx.inorder, hx.grouped⟩

/-- Names with operators between them are read to the end of the text, as the one expression with
these operands and operators that groups by precedence. -/
theorem groups_by_precedence (a : Name) (ls : List Link) (pos : Pos) :
    let items := a.linked ls ++ [⟨.eof, "", pos⟩]
    ∃ x s, binary (depthBound items) topLevel { stream := { items } } = (some x, s) ∧
      s.left = [⟨.eof, "", pos⟩] ∧ x.inorder = a.inorder ls ∧ x.Grouped ∧
      ∀ y : Expr, y.inorder = a.inorder ls → y.Grouped → y = x := by
  intro items
  have hlength : items.length = 2 * ls.length + 2 := by
    rw [List.length_append, Name.length_linked, List.length_singleton]
  have hready : Parsing.Ready { stream := { items } } :=
    ⟨⟨0, rfl, by rw [hlength]; omega⟩, ⟨_, List.getLast?_concat, rfl⟩⟩
  have hfuel : ls.length ≤ items.length + 1 := by omega
  have hgets := gets_linked a hfuel (show Item.token ⟨.eof, "", pos⟩ = .eof from rfl)
  obtain ⟨x, s, hrun, -, hleft, horder, hgrouped⟩ := hgets _ hready rfl
  exact ⟨x, s, hrun, hleft, horder, hgrouped,
    fun y hy hgrouped' => hgrouped'.eq_of_inorder hgrouped (hy.trans horder.symm)⟩

end Shader
