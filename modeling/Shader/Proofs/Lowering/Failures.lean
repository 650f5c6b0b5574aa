import Shader.Proofs.Lowering.Rounds
import Shader.Proofs.Lowering.Soundness

/-!
# Failures are about a place of the text

Lowering a parsed program meets no fault, and every failure that it finds stands at a place of the
text. A failure is reported where an operand or a part of the tree stands, and all of these have
their place from the items that were read; only the implicit definition has none, but it is declared
first and cannot fail.

`Locates` says this of a walk: if it fails, then at a place, and otherwise something is known of its
result, most of the time that an operand has a place as well. It does not depend on the state of the
walk, so it is shown for each operation from the operations that it is composed of.
-/

namespace Shader.Lowering

open Ir

/-- A failure has a place, and a result has a property. -/
def Located {α : Type} (P : α → Prop) : Except Failure α → Prop
  | .ok a => P a
  | .error e => e.pos.isPlaced

/-- A walk fails at a place only, and its result has a property. -/
def Locates {α : Type} (act : Lower α) (P : α → Prop) : Prop :=
  ∀ b r b', act.run b = .ok (r, b') → Located P r

/-- An operand has a place. -/
def Operand.Placed (x : Operand) : Prop := x.pos.isPlaced

namespace Locates

variable {α β : Type} {act : Lower α} {P Q : α → Prop} {R : β → Prop}

theorem pure {a : α} (h : P a) : Locates (Pure.pure a) P := by
  rintro b r b' ⟨⟩
  exact h

theorem fail {pos : Pos} {cause : Cause} (h : pos.isPlaced) :
    Locates (Lowering.fail pos cause) P := by
  rintro b r b' ⟨⟩
  exact h

/-- The first of two walks may fail, and the second goes on from a result with the property. -/
theorem bind {f : α → Lower β} (h : Locates act P) (hf : ∀ a, P a → Locates (f a) R) :
    Locates (act >>= f) R := by
  intro b r b' hrun
  obtain ⟨e, hact, rfl⟩ | ⟨a, b₁, hact, hrest⟩ := bind_cases hrun
  · exact h b _ b' hact
  · exact hf a (h b _ b₁ hact) b₁ r b' hrest

theorem map {f : α → β} (h : Locates act P) (hf : ∀ a, P a → R (f a)) : Locates (f <$> act) R :=
  bind h fun a ha => pure (hf a ha)

theorem discard (h : Locates act P) : Locates (Functor.discard act) fun _ => True :=
  bind h fun _ _ => pure trivial

/-- Writing does not fail. -/
theorem emit {act : Emit α} : Locates (Lowering.emit act) fun _ => True := by
  intro b r b' hrun
  obtain ⟨a, d, -, rfl, -⟩ := emit_cases hrun
  trivial

/-- Writing in front of more. -/
theorem emitThen {act : Emit α} {f : α → Lower β} (hf : ∀ a, Locates (f a) R) :
    Locates (Lowering.emit act >>= f) R :=
  bind emit fun a _ => hf a

/-- A failure that takes the place of another has a place of its own. -/
theorem insteadOf {pos : Pos} {cause : Cause} (hpos : pos.isPlaced) (h : Locates act P) :
    Locates (Lowering.insteadOf act pos cause) P := by
  intro b r b' hrun
  obtain ⟨e, -, rfl⟩ | ⟨a, hact, rfl⟩ := insteadOf_cases hrun
  · exact hpos
  · exact h b _ b' hact

/-- A failed check is reported at a place, and nothing is known of what would follow. -/
theorem check {p : Prop} {_ : Decidable p} {pos : Pos} {cause : Cause} {rest : Unit → Lower α}
    (hpos : pos.isPlaced) (h : Locates (rest ()) P) :
    Locates (if p then Lowering.fail pos cause >>= rest else rest ()) P := by
  split
  · exact bind (P := fun _ => False) (fail hpos) fun _ hf => hf.elim
  · exact h

theorem getThen {f : Body → Lower β} (h : ∀ b, Locates (f b) R) : Locates (get >>= f) R :=
  fun b r b' hrun => h b b r b' hrun

theorem bindName {n : Name} {t : DataType} : Locates (Lowering.bindName n t) fun _ => True := by
  rintro b r b' ⟨⟩
  trivial

/-- Scopes hold no places. -/
theorem inScope (h : Locates act P) : Locates (Lowering.inScope act) P := by
  intro b r b' hrun
  obtain ⟨b₁, σ, hact, -, -⟩ := inScope_cases hrun
  exact h _ _ _ hact

end Locates

/-! ## Operands -/

section

variable {pos : Pos} {x y : Operand} {t : DataType}

/-- A name that is declared again fails where it stands. -/
theorem locates_declare {n : Name} {addr : Value} {isConst : Bool} (hn : n.pos.isPlaced) :
    Locates (declare n t addr isConst) fun _ => True := by
  refine .getThen fun b => ?_
  split
  · exact .fail hn
  · refine .bind (P := fun _ => True) ?_ fun _ _ => .bindName
    rintro b r b' ⟨⟩
    trivial

/-- An operand without a value fails where it stands; the others do not fail. -/
theorem locates_valueOf (hx : x.Placed) : Locates (valueOf x) fun _ => True := by
  cases x with
  | nothing => exact .fail hx
  | value => exact .pure trivial
  | place => exact .emit
  | lane => exact .emit

/-- What has been evaluated can be stored. -/
theorem locates_storeTo {v : Value} : Locates (storeTo x v) fun _ => True := by
  cases x <;> exact .emit

/-- An operand that cannot be converted fails where it stands. -/
theorem locates_valueAs (hx : x.Placed) : Locates (valueAs x t) fun _ => True := by
  refine .bind (locates_valueOf hx) fun v _ => ?_
  split
  · exact .pure trivial
  · split
    · exact .emit
    · exact .fail hx

/-! ## Constructors -/

/-- Of the arguments of a constructor the one that does not fit is reported. -/
theorem locates_components {s : ScalarType} : ∀ {xs : List Operand} {comps : List Value},
    (∀ x ∈ xs, x.Placed) → Locates (components t s comps xs) fun _ => True
  | [], comps, _ => .pure trivial
  | x :: xs, comps, hxs => by
    obtain ⟨hx, hxs⟩ := List.forall_mem_cons.1 hxs
    unfold components
    refine .check hx (.bind (locates_valueOf hx) fun v _ => .emitThen fun more => ?_)
    exact locates_components hxs

section

variable {args : List Operand} (hpos : pos.isPlaced) (hargs : ∀ x ∈ args, x.Placed)
include hpos hargs

/-- Their number is checked at the constructor. -/
theorem locates_allComponents {s : ScalarType} :
    Locates (allComponents pos t s args) fun _ => True :=
  .bind (locates_components hargs) fun _ _ => .check hpos (.pure trivial)

/-- A scalar is made of one argument: none fails at the constructor, and a second one where it
stands. -/
theorem locates_buildScalar {s : ScalarType} : Locates (buildScalar pos s args) fun _ => True := by
  rcases args with _ | ⟨x, _ | ⟨y, xs⟩⟩
  · exact .fail hpos
  · refine .bind (locates_valueOf (hargs x List.mem_cons_self)) fun v _ => ?_
    split <;> exact .emit
  · exact .fail (hargs y (List.mem_cons_of_mem _ List.mem_cons_self))

theorem locates_buildVector {s : ScalarType} {n : Dim} :
    Locates (buildVector pos s n args) fun _ => True := by
  have hpacked : Locates (do
      let comps ← allComponents pos (.vector s n) s args
      emit (Pieces.pack s n comps)) fun _ => True :=
    .bind (locates_allComponents hpos hargs) fun _ _ => .emit
  unfold buildVector
  dsimp only
  split
  next x =>
    have hx := hargs x List.mem_cons_self
    split
    · exact locates_valueOf hx
    · split
      · exact locates_valueAs hx
      · exact hpacked
  next => exact hpacked

theorem locates_buildMatrix {n : Dim} : Locates (buildMatrix pos n args) fun _ => True := by
  have hpacked : Locates (do
      let comps ← allComponents pos (.matrix n) .float args
      emit (Pieces.columnwise n fun i =>
        Pieces.pack .float n ((comps.drop (i * n.size)).take n.size))) fun _ => True :=
    .bind (locates_allComponents hpos hargs) fun _ _ => .emit
  unfold buildMatrix
  dsimp only
  split
  next x =>
    have hx := hargs x List.mem_cons_self
    split
    · exact locates_valueOf hx
    · split
      · exact .bind (locates_valueAs hx) fun _ _ => .emit
      · exact hpacked
  next => exact hpacked

/-- Arguments without values are reported first, each where it stands. -/
theorem locates_build : Locates (build pos t args) fun _ => True := by
  unfold build
  dsimp only
  split
  next x hfind =>
    have hx := hargs x (List.mem_of_find?_eq_some hfind)
    exact .bind (P := fun _ => False) (.fail hx) fun _ hf => hf.elim
  next =>
    split
    · exact .fail hpos
    · exact locates_buildScalar hpos hargs
    · exact locates_buildVector hpos hargs
    · exact locates_buildMatrix hpos hargs

end

/-- The first value of a variable is converted or constructed at the place of its expression. -/
theorem locates_initialValue (hx : x.Placed) : Locates (initialValue t x) fun _ => True := by
  unfold initialValue
  split
  · exact locates_valueAs hx
  · exact locates_build hx (List.forall_mem_singleton.2 hx)

/-! ## Operations -/

section

variable (hpos : pos.isPlaced) (hx : x.Placed)
include hpos hx

/-- Operands that have no common type are reported at the operator. -/
theorem locates_promotedArith {op : ArithOp} (hy : y.Placed) :
    Locates (promotedArith pos op x y) Operand.Placed := by
  unfold promotedArith
  dsimp only
  split
  · exact .fail hpos
  · split
    · refine .bind (locates_valueAs hx) fun _ _ => .bind (locates_valueAs hy) fun _ _ => ?_
      split <;> exact .emitThen fun _ => .pure hpos
    · exact .fail hpos

/-- All forms of arithmetic report at the operator what they cannot compute, and so does their
result stand there. -/
theorem locates_arith {op : ArithOp} (hy : y.Placed) :
    Locates (arith pos op x y) Operand.Placed := by
  unfold arith
  dsimp only
  refine .check hpos ?_
  split
  · split
    · refine .bind (locates_valueOf hx) fun _ _ => .bind (locates_valueOf hy) fun _ _ => ?_
      exact .emitThen fun _ => .pure hpos
    · exact locates_promotedArith hpos hx hy
  · split
    · refine .bind (locates_valueOf hx) fun _ _ => .bind (locates_valueAs hy) fun _ _ => ?_
      exact .emitThen fun _ => .pure hpos
    · exact locates_promotedArith hpos hx hy
  · split
    · refine .bind (locates_valueAs hx) fun _ _ => .bind (locates_valueOf hy) fun _ _ => ?_
      exact .emitThen fun _ => .pure hpos
    · exact locates_promotedArith hpos hx hy
  · exact locates_promotedArith hpos hx hy

theorem locates_arithExpr {op : ArithOp} (hy : y.Placed) :
    Locates (arithExpr pos op x y) Operand.Placed := by
  refine .bind (locates_arith hpos hx hy) fun z hz => ?_
  exact .bind (.insteadOf hpos (locates_valueAs hz)) fun _ _ => .pure hpos

/-- Comparisons that cannot be made are reported at the operator. -/
theorem locates_comparison {op : RelOp} (hy : y.Placed) :
    Locates (comparison pos op x y) Operand.Placed := by
  unfold comparison
  split
  · exact .fail hpos
  · exact .fail hpos
  · refine .check hpos (.bind (locates_valueAs hx) fun _ _ => ?_)
    exact .bind (locates_valueAs hy) fun _ _ => .emitThen fun _ => .pure hpos

omit hpos in
/-- A condition that is none is reported where it stands. -/
theorem locates_truthOf {cause : DataType → Cause} : Locates (truthOf cause x) fun _ => True := by
  unfold truthOf
  exact .check hx (.bind (locates_valueOf hx) fun _ _ => .emit)

/-- The right operand is walked over on either way, and its failures are its own. -/
theorem locates_logical {op : LogicOp} {rhs : Lower Operand} (hrhs : Locates rhs Operand.Placed) :
    Locates (logical pos op x rhs) Operand.Placed := by
  refine .bind (locates_truthOf hx) fun _ _ => ?_
  split
  · refine .bind hrhs fun y hy => .bind (locates_truthOf hy) fun _ _ => ?_
    exact .emitThen fun _ => .pure hpos
  · refine .emitThen fun _ => .emitThen fun _ => .emitThen fun _ => .emitThen fun _ => ?_
    refine .emitThen fun _ => .bind hrhs fun y hy => .bind (locates_truthOf hy) fun _ _ => ?_
    exact .emitThen fun _ => .emitThen fun _ => .emitThen fun _ => .emitThen fun _ => .pure hpos

/-- An operand that an operator cannot take is reported at the operator. -/
theorem locates_unary {op : UnaryOp} : Locates (unary pos op x) Operand.Placed := by
  unfold unary
  dsimp only
  split
  · exact .fail hpos
  · split
    · split
      · exact .fail hpos
      · exact .bind (locates_valueOf hx) fun _ _ => .emitThen fun _ => .pure hpos
    · split
      · exact .fail hpos
      · exact .bind (locates_valueOf hx) fun _ _ => .emitThen fun _ => .pure hpos
    · refine .bind (locates_valueOf hx) fun _ _ => ?_
      split <;> exact .emitThen fun _ => .pure hpos
    · exact .bind (locates_valueOf hx) fun _ _ => .pure hpos

/-- What cannot be counted is reported at the operator. -/
theorem locates_step {s : Step} {post : Bool} {text : String} :
    Locates (step pos s post text x) Operand.Placed := by
  unfold step
  split
  · exact .fail hpos
  · refine .check hpos (.check hpos (.bind (locates_valueOf hx) fun _ _ => .emitThen fun _ => ?_))
    exact .bind locates_storeTo fun _ _ => .pure hpos

/-- Values that do not fit are reported at the assignment, in the place of the failure of their
conversion. -/
theorem locates_assigned {op : Option ArithOp} {text : String} (hy : y.Placed) :
    Locates (assigned pos op text x y) fun _ => True := by
  cases op with
  | none => exact .insteadOf hpos (locates_valueAs hy)
  | some op =>
    exact .bind (locates_arith hpos hx hy) fun z hz => .insteadOf hpos (locates_valueAs hz)

/-- Targets that cannot be assigned are reported at the assignment. -/
theorem locates_assign {op : Option ArithOp} {text : String} {rhs : Lower Operand}
    (hrhs : Locates rhs Operand.Placed) : Locates (assign pos op text x rhs) Operand.Placed := by
  unfold assign
  split
  · exact .fail hpos
  · refine .check hpos (.bind hrhs fun y hy => .bind (locates_assigned hpos hx hy) fun _ _ => ?_)
    exact .bind locates_storeTo fun _ _ => .pure hpos

omit hpos in
theorem locates_alternative? : Locates (alternative? x) fun _ => True := by
  unfold alternative?
  split
  · exact .map (locates_valueOf hx) fun _ _ => trivial
  · exact .pure trivial

omit hx in
theorem locates_otherwise? {first : Operand} (hy : y.Placed) :
    Locates (otherwise? pos first y) fun _ => True := by
  unfold otherwise?
  dsimp only
  split
  · exact .map (.insteadOf hpos (locates_valueAs hy)) fun _ _ => trivial
  · split
    · exact .fail hpos
    · exact .pure trivial

omit hx in
/-- Both branches of a choice are walked over, and their failures are their own. -/
theorem locates_choice {c : Value} {yes no : Lower Operand} (hyes : Locates yes Operand.Placed)
    (hno : Locates no Operand.Placed) : Locates (choice pos c yes no) Operand.Placed := by
  refine .emitThen fun _ => .emitThen fun _ => .emitThen fun _ => .emitThen fun _ => ?_
  refine .emitThen fun _ => .bind hyes fun x hx => .bind (locates_alternative? hx) fun _ _ => ?_
  refine .emitThen fun _ => .emitThen fun _ => .emitThen fun _ => .bind hno fun y hy => ?_
  refine .bind (locates_otherwise? hpos hy) fun _ _ => ?_
  refine .emitThen fun _ => .emitThen fun _ => .emitThen fun _ => ?_
  split
  · exact .emitThen fun _ => .pure hpos
  · exact .pure hpos

/-- An index that is no whole number is reported where it stands. -/
theorem locates_indexValue : Locates (indexValue pos x) fun _ => True := by
  unfold indexValue
  exact .check hpos (locates_valueOf hx)

/-- A selection that cannot be made is reported at its selector. -/
theorem locates_select {selPos : Pos} {sel : Swizzle} (hsel : selPos.isPlaced) :
    Locates (select pos selPos sel x) Operand.Placed := by
  unfold select
  split
  · split
    · exact .fail hsel
    · split
      · exact .pure hpos
      · exact .bind (locates_valueOf hx) fun _ _ => .emitThen fun _ => .pure hpos
  · exact .fail hsel

/-- An argument that does not fit is reported where it stands. -/
theorem locates_argument {func text : String} {p : Passing} :
    Locates (argument func p pos text x) fun _ => True := by
  unfold argument
  split
  · dsimp only
    split
    · split
      · exact .pure trivial
      · exact .fail hpos
    · exact .fail hpos
  · exact .insteadOf hpos (locates_valueAs hx)

end

end

/-! ## Expressions -/

/-- A name that is not declared is reported where it stands. -/
theorem locates_resolve {n : Name} (hn : n.pos.isPlaced) : Locates (resolve n) fun _ => True := by
  refine .getThen fun b => ?_
  split
  · exact .fail hn
  · exact .bind .bindName fun _ _ => .pure trivial

/-- A call stands where the name of the function stands. -/
theorem locates_callResult {pos : Pos} {sig : Signature} {args : List Value} (hpos : pos.isPlaced) :
    Locates (callResult pos sig args) Operand.Placed := by
  refine .emitThen fun v => .pure ?_
  split <;> exact hpos

/-- An element stands where its base stands. -/
theorem locates_element {base : Name} {sym : Symbol DataType Value} {index : Lower Value}
    (hbase : base.pos.isPlaced) (hindex : Locates index fun _ => True) :
    Locates (element base sym index) Operand.Placed := by
  unfold element
  split
  · exact .bind hindex fun _ _ => .pure hbase
  · exact .bind hindex fun _ _ => .emitThen fun _ => .pure hbase
  · exact .fail hbase

section

variable {Γ : Signatures}

mutual

/-- Expressions whose nodes have places fail at places only. The induction follows the walk, which
is why the operations above are shown for operands with places. -/
theorem locates_expr : ∀ {e : Expr}, e.Placed → Locates (expr Γ e) Operand.Placed
  | .name n, he => by
    unfold expr
    exact .bind (locates_resolve he) fun _ _ => .pure he
  | .number pos kind text, he => by
    unfold expr
    split
    · exact .fail he
    · exact .pure he
  | .bool pos b, he => by
    unfold expr
    exact .pure he
  | .call fn args, he => by
    unfold expr
    split
    · exact .fail he.1
    · refine .bind .bindName fun _ _ => .check he.1 ?_
      exact .bind (locates_arguments he.2) fun _ _ => locates_callResult he.1
  | .construct pos type args, he => by
    unfold expr
    refine .check he.1 (.check he.1 (.bind (locates_exprs he.2) fun xs hxs => ?_))
    exact .bind (locates_build he.1 hxs) fun _ _ => .pure he.1
  | .index base i, he => by
    unfold expr
    refine .bind (locates_resolve he.1) fun sym _ => locates_element he.1 ?_
    exact .bind (locates_expr he.2) fun x hx => locates_indexValue (i.isPlaced_pos he.2) hx
  | .member e sel selPos, he => by
    unfold expr
    exact .bind (locates_expr he.1) fun x hx => locates_select (e.isPlaced_pos he.1) hx he.2
  | .unary pos op e, he => by
    unfold expr
    refine .bind (locates_expr he.2) fun x hx => ?_
    cases op with
    | step s => exact locates_step he.1 hx
    | _ => exact locates_unary he.1 hx
  | .postStep s e, he => by
    unfold expr
    exact .bind (locates_expr he) fun x hx => locates_step (e.isPlaced_pos he) hx
  | .binary op e e', he => by
    unfold expr
    refine .bind (locates_expr he.1) fun x hx => ?_
    have hpos := e.isPlaced_pos he.1
    cases op with
    | arith op => exact .bind (locates_expr he.2) fun y hy => locates_arithExpr hpos hx hy
    | rel op => exact .bind (locates_expr he.2) fun y hy => locates_comparison hpos hx hy
    | logic op => exact locates_logical hpos hx (locates_expr he.2)
  | .assign op e e', he => by
    unfold expr
    refine .bind (locates_expr he.1) fun x hx => ?_
    exact locates_assign (e.isPlaced_pos he.1) hx (locates_expr he.2)
  | .cond c e e', he => by
    unfold expr
    refine .bind (locates_expr he.1) fun x hx => .bind (locates_truthOf hx) fun _ _ => ?_
    exact locates_choice (c.isPlaced_pos he.1) (locates_expr he.2.1) (locates_expr he.2.2)
  | .seq first rest, he => by
    unfold expr
    exact .bind (locates_expr he.1) fun x hx => locates_sequence hx he.2

theorem locates_exprs : ∀ {es : List Expr}, Expr.AllPlaced es →
    Locates (exprs Γ es) fun xs => ∀ x ∈ xs, x.Placed
  | [], _ => by
    unfold exprs
    exact .pure (List.forall_mem_nil _)
  | e :: es, he => by
    unfold exprs
    refine .bind (locates_expr he.1) fun x hx => .bind (locates_exprs he.2) fun xs hxs => ?_
    exact .pure (List.forall_mem_cons.2 ⟨hx, hxs⟩)

theorem locates_arguments {func : String} : ∀ {es : List Expr} {ps : List Passing},
    Expr.AllPlaced es → Locates (arguments Γ func es ps) fun _ => True
  | [], _, _ => by
    unfold arguments
    exact .pure trivial
  | _ :: _, [], _ => by
    unfold arguments
    exact .pure trivial
  | e :: es, p :: ps, he => by
    unfold arguments
    refine .bind (locates_expr he.1) fun x hx => ?_
    refine .bind (locates_argument (e.isPlaced_pos he.1) hx) fun _ _ => ?_
    exact .bind (locates_arguments he.2) fun _ _ => .pure trivial

theorem locates_sequence : ∀ {es : List Expr} {before : Operand}, before.Placed →
    Expr.AllPlaced es → Locates (sequence Γ before es) Operand.Placed
  | [], _, hbefore, _ => by
    unfold sequence
    exact .pure hbefore
  | e :: es, _, _, he => by
    unfold sequence
    exact .bind (locates_expr he.1) fun x hx => locates_sequence hx he.2

end

/-! ## Statements -/

/-- A declaration fails at its name or in its value. -/
theorem locates_varDecl {d : VarDecl} (hd : d.Placed) : Locates (varDecl Γ d) fun _ => True := by
  unfold varDecl
  refine .check hd.name (.check hd.name ?_)
  have hnew : ∀ v, Locates (do
      let addr ← emit (Emit.alloca d.type d.name.text)
      emit (Emit.store v addr)
      declare d.name d.type addr d.isConst) fun _ => True :=
    fun v => .emitThen fun addr => .emitThen fun _ => locates_declare hd.name
  dsimp only
  split
  next => exact hnew _
  next x hx =>
    refine .bind (locates_expr (hd.init x hx)) fun a ha => ?_
    exact .bind (locates_initialValue ha) fun v _ => hnew v

theorem locates_condition {c : Expr} (hc : c.Placed) : Locates (condition Γ c) fun _ => True :=
  .bind (locates_expr hc) fun _ hx => locates_truthOf hx

theorem locates_forInit {i : ForInit} (hi : i.Placed) : Locates (forInit Γ i) fun _ => True := by
  cases i with
  | nothing => exact .pure trivial
  | var d => exact locates_varDecl hi
  | expr x => exact .discard (locates_expr hi)

/-- A branch without a loop is reported where it stands. -/
theorem locates_branchTo {pos : Pos} {token : Token} {loop : Option Loop} (hpos : pos.isPlaced) :
    Locates (branchTo pos token loop) fun _ => True := by
  cases loop with
  | none => exact .fail hpos
  | some loop => exact .emit

/-- A result that is missing is reported at the statement, and one that is not asked for where it
stands. -/
theorem locates_returnFrom {want : DataType} {pos : Pos} {result : Option Expr}
    (hpos : pos.isPlaced) (hresult : ∀ x ∈ result, x.Placed) :
    Locates (returnFrom Γ want pos result) fun _ => True := by
  unfold returnFrom
  split
  · exact .check hpos (.emitThen fun _ => .emit)
  next x =>
    have hx := hresult x rfl
    refine .check (x.isPlaced_pos hx) (.bind (locates_expr hx) fun a ha => ?_)
    exact .bind (locates_valueAs ha) fun _ _ => .emitThen fun _ => .emit

theorem locates_loopTest {c : Option Expr} {body leave : Label} (hc : ∀ x ∈ c, x.Placed) :
    Locates (loopTest Γ c body leave) fun _ => True := by
  cases c with
  | none => exact .emit
  | some c => exact .bind (locates_condition (hc c rfl)) fun _ _ => .emit

variable {want : DataType}

mutual

/-- Statements whose nodes have places fail at places only. -/
theorem locates_stmt : ∀ {loop : Option Loop} {s : Stmt}, s.Placed →
    Locates (stmt Γ want loop s) fun _ => True
  | _, .empty _, _ => by
    unfold stmt
    exact .pure trivial
  | _, .expr x, hs => by
    unfold stmt
    exact .discard (locates_expr hs)
  | _, .var d, hs => by
    unfold stmt
    exact locates_varDecl hs
  | _, .block _ body, hs => by
    unfold stmt
    exact .inScope (locates_stmts hs.2)
  | _, .ifThen _ c yes, hs => by
    unfold stmt
    refine .bind (locates_condition hs.2.1) fun _ _ => ?_
    refine .emitThen fun _ => .emitThen fun _ => .emitThen fun _ => ?_
    refine .bind (.inScope (locates_stmt hs.2.2)) fun _ _ => ?_
    exact .bind (.discard .emit) fun _ _ => .emit
  | _, .ifElse _ c yes no, hs => by
    unfold stmt
    refine .bind (locates_condition hs.2.1) fun _ _ => ?_
    refine .emitThen fun _ => .emitThen fun _ => .emitThen fun _ => .emitThen fun _ => ?_
    refine .bind (.inScope (locates_stmt hs.2.2.1)) fun _ _ => .emitThen fun _ => ?_
    refine .emitThen fun _ => .bind (.inScope (locates_stmt hs.2.2.2)) fun _ _ => ?_
    exact .emitThen fun _ => .emit
  | _, .forLoop _ init c post body, hs => by
    obtain ⟨-, hinit, hc, hpost, hbody⟩ := hs
    unfold stmt
    refine .inScope (.bind (locates_forInit hinit) fun _ _ => ?_)
    refine .emitThen fun _ => .emitThen fun _ => .emitThen fun _ => .emitThen fun _ => ?_
    refine .emitThen fun _ => .bind (locates_loopTest hc) fun _ _ => .emitThen fun _ => ?_
    refine .bind (.inScope (locates_stmt hbody)) fun _ _ => ?_
    refine .bind (.discard .emit) fun _ _ => .emitThen fun _ => ?_
    split
    next x => exact .bind (.discard (locates_expr (hpost x rfl))) fun _ _ => .emit
    next => exact .emit
  | _, .whileLoop _ c body, hs => by
    unfold stmt
    refine .emitThen fun _ => .emitThen fun _ => .emitThen fun _ => .emitThen fun _ => ?_
    refine .bind (locates_loopTest fun x hx => Option.some.inj hx ▸ hs.2.1) fun _ _ => ?_
    refine .emitThen fun _ => .bind (.inScope (locates_stmt hs.2.2)) fun _ _ => ?_
    exact .bind (.discard .emit) fun _ _ => .emit
  | _, .doLoop _ body c, hs => by
    unfold stmt
    refine .emitThen fun _ => .emitThen fun _ => .emitThen fun _ => .emitThen fun _ => ?_
    refine .bind (.inScope (locates_stmt hs.2.1)) fun _ _ => ?_
    refine .bind (.discard .emit) fun _ _ => .emitThen fun _ => ?_
    exact .bind (locates_loopTest fun x hx => Option.some.inj hx ▸ hs.2.2) fun _ _ => .emit
  | _, .branch pos token, hs => by
    unfold stmt
    exact locates_branchTo hs
  | _, .ret pos result, hs => by
    unfold stmt
    exact locates_returnFrom hs.1 hs.2

theorem locates_stmts : ∀ {loop : Option Loop} {ss : List Stmt}, Stmt.AllPlaced ss →
    Locates (stmts Γ want loop ss) fun _ => True
  | _, [], _ => by
    unfold stmts
    exact .pure trivial
  | _, s :: ss, hs => by
    unfold stmts
    refine .emitThen fun _ => ?_
    split
    · exact .bind (locates_stmt hs.1) fun _ _ => locates_stmts hs.2
    · exact .pure trivial

end

end

/-! ## Programs -/

/-- All problems stand at a place. -/
def AllLocated (problems : List Problem) : Prop := ∀ e ∈ problems, e.failure.pos.isPlaced

/-- A problem with a place may be added. -/
theorem AllLocated.add {problems : List Problem} {owner : Owner} {failure : Failure}
    (h : AllLocated problems) (hfailure : failure.pos.isPlaced) :
    AllLocated (problems ++ [⟨owner, failure⟩]) := by
  intro e he
  rcases List.mem_append.1 he with he | he
  · exact h e he
  · obtain rfl := List.mem_singleton.1 he
    exact hfailure

/-- A function that is declared again fails at its name, and a parameter without values where it
stands. -/
theorem located_declareFunc {declared : List FuncDecl} {f : FuncDecl} {failure : Failure}
    (hf : f.Proper) (h : declareFunc declared f = .error failure) : failure.pos.isPlaced := by
  unfold declareFunc at h
  split at h
  · cases h
    exact hf.name
  · split at h
    next hbad =>
      cases h
      obtain ⟨p, hfind, rfl⟩ := Option.map_eq_some_iff.1 hbad
      exact (hf.params p (List.mem_of_find?_eq_some hfind)).pos
    next => cases h

section

variable {o : Options}

/-- The problems of the round over signatures have places. -/
theorem AllLocated.declareFuncs : ∀ {fs declared : List FuncDecl} {problems : List Problem},
    AllLocated problems → (∀ f ∈ fs, f.Proper) → AllLocated (declareFuncs o declared problems fs).2
  | [], _, _, h, _ => h
  | f :: fs, declared, problems, h, hfs => by
    obtain ⟨hf, hfs⟩ := List.forall_mem_cons.1 hfs
    unfold Lowering.declareFuncs
    split
    · split
      next failure hfail => exact AllLocated.declareFuncs (h.add (located_declareFunc hf hfail)) hfs
      next => exact AllLocated.declareFuncs h hfs
    · exact h

theorem located_walk {α : Type} {act : Lower α} {P : α → Prop} {g g' : Globals}
    {r : Except Failure α} (hact : Locates act P) (h : g.walk o act = .ok (r, g')) :
    Located P r := by
  obtain ⟨b, hrun, -⟩ := walk_cases h
  exact hact _ _ _ hrun

/-- What is wrong with a variable at once is found at its name or at its value. -/
theorem located_badGlobal? {v : GlobalVar} {failure : Failure} (hv : v.var.Placed)
    (h : badGlobal? v = some failure) : failure.pos.isPlaced := by
  unfold badGlobal? at h
  dsimp only at h
  split at h
  · cases h
    exact hv.name
  · split at h
    next x hx =>
      split at h
      · cases h
        exact x.isPlaced_pos (hv.init x hx)
      · cases h
    next =>
      split at h
      · cases h
        exact hv.name
      · cases h

/-- A variable that is declared again fails at its name. -/
theorem located_declare {v : GlobalVar} {g : Globals} (hv : v.var.Placed) :
    Located (fun _ => True) (g.declare v).1 := by
  unfold Globals.declare
  dsimp only
  split
  · exact hv.name
  · trivial

/-- A global variable fails at a place only. -/
theorem located_add {Γ : Signatures} {v : GlobalVar} {g g' : Globals} {r : Except Failure Unit}
    (hv : v.var.Placed) (h : g.add Γ o v = .ok (r, g')) : Located (fun _ => True) r := by
  have hdeclare : ∀ g : Globals, Located (fun _ => True) (g.declare v).1 := fun _ =>
    located_declare hv
  cases adds_of_add h with
  | bad hbad => exact located_badGlobal? hv hbad
  | repeated => trivial
  | plain =>
    have hr := hdeclare g
    rcases hresult : (g.declare v).1 with failure | addr
    · rw [hresult] at hr
      exact hr
    · trivial
  | @failed x operand g₁ failure _ hinit hwalk hfail =>
    rcases hfail with hfail | rfl
    · have hr := hdeclare g₁
      rw [hfail] at hr
      exact hr
    · exact located_walk (α := Operand) (locates_expr (hv.init x hinit)) hwalk
  | @valued x operand _ _ _ _ _ hinit hwalk _ hstore =>
    have hoperand : operand.Placed := located_walk (locates_expr (hv.init x hinit)) hwalk
    exact located_walk (.bind (locates_initialValue hoperand) fun _ _ => .emit) hstore

/-- The problems of the round over global variables have places. -/
theorem AllLocated.addGlobals {Γ : Signatures} {vs : List GlobalVar} {g g' : Globals}
    {problems problems' : List Problem} (h : AllLocated problems) (hvs : ∀ v ∈ vs, v.var.Placed)
    (hrun : addGlobals Γ o g problems vs = .ok (g', problems')) : AllLocated problems' := by
  have hstep : ∀ (done : List GlobalVar) (v : GlobalVar) (g g' : Globals) problems r,
      ((∀ w ∈ done, w.var.Placed) → AllLocated problems) → g.add Γ o v = .ok (r, g') →
      (∀ w ∈ done ++ [v], w.var.Placed) →
      AllLocated (problems ++ noted (.global v.var.name.text) r) := by
    intro done v g g' problems r hdone hadd hplaced
    obtain ⟨hdone', hv⟩ := List.forall_mem_append.1 hplaced
    have hr := located_add (hv v List.mem_cons_self) hadd
    cases r with
    | error failure => exact (hdone hdone').add hr
    | ok _ =>
      rw [noted, List.append_nil]
      exact hdone hdone'
  obtain ⟨more, hmore, hall, -⟩ := addGlobals_induction
    (P := fun done _ problems => (∀ w ∈ done, w.var.Placed) → AllLocated problems) hstep
    [] (fun _ => h) hrun
  exact hall fun v hv => hvs v (hmore.subset hv)

/-- The implicit definition does not fail if it comes first. -/
theorem addGlobals_implicit {Γ : Signatures} {bound : List (Name × DataType)} {g' : Globals}
    {vs : List GlobalVar} {problems problems' : List Problem} (h : AllLocated problems)
    (hvs : ∀ v ∈ vs, v.var.Placed)
    (hrun : addGlobals Γ o { bound } problems (implicitPosition :: vs) = .ok (g', problems')) :
    AllLocated problems' := by
  unfold Lowering.addGlobals at hrun
  split at hrun
  · exact h.addGlobals hvs hrun
  · cases hrun
    exact h

theorem locates_bindParams {id : FuncId} : ∀ {ps : List Param} {i : Nat}, (∀ p ∈ ps, p.Placed) →
    Locates (bindParams id i ps) fun _ => True
  | [], _, _ => .pure trivial
  | p :: ps, i, hps => by
    obtain ⟨hp, hps⟩ := List.forall_mem_cons.1 hps
    unfold bindParams
    dsimp only
    split
    · refine .bind (P := fun _ => True) (.pure trivial) fun _ _ => ?_
      exact .bind (locates_declare hp.name) fun _ _ => locates_bindParams hps
    · refine .emitThen fun _ => ?_
      exact .bind (locates_declare hp.name) fun _ _ => locates_bindParams hps

theorem locates_bodyCode {c : Context} {f : FuncDecl} (hf : f.Proper) :
    Locates (bodyCode c f) fun _ => True := by
  refine .bind (locates_bindParams hf.params) fun _ _ => ?_
  split
  · exact .bind (.discard .emit) fun _ _ => locates_stmts hf.body
  · exact locates_stmts hf.body

/-- Closing the blocks of a body does not fail, so its failures are those of its code. -/
theorem located_lowerBody {c : Context} {f : FuncDecl} {r : Except Failure Unit} {g : Func}
    {bound : List (Name × DataType)} (hf : f.Proper) (h : lowerBody o c f = .ok (r, g, bound)) :
    Located (fun _ => True) r := by
  have hcode := Locates.inScope (locates_bodyCode (c := c) hf)
  change Except.bind ((inScope (bodyCode c f)).run _) _ = _ at h
  rcases hrun : (inScope (bodyCode c f)).run
      { draft := startDraft o (declaration f), scopes := c.scopes } with e | ⟨r', b⟩
  · rw [hrun] at h
    cases h
  · rw [hrun] at h
    change Except.bind ((closeBlocks f.result).run b.draft) _ = _ at h
    rcases hclose : (closeBlocks f.result).run b.draft with e | ⟨_, d⟩
    · rw [hclose] at h
      cases h
    · rw [hclose] at h
      cases h
      exact hcode _ _ _ hrun

/-- The problems of the round over bodies have places. -/
theorem AllLocated.lowerBodies {c : Context} : ∀ {fs : List FuncDecl} {out out' : Outcome},
    AllLocated out.problems → (∀ f ∈ fs, f.Proper) → lowerBodies o c out fs = .ok out' →
    AllLocated out'.problems
  | [], _, _, h, _, hrun => by
    cases hrun
    exact h
  | f :: fs, out, out', h, hfs, hrun => by
    obtain ⟨hf, hfs⟩ := List.forall_mem_cons.1 hfs
    unfold Lowering.lowerBodies at hrun
    split at hrun
    · rcases hbody : lowerBody o c f with e | ⟨r, g, bound⟩
      · rw [hbody] at hrun
        cases hrun
      · rw [hbody] at hrun
        have hr := located_lowerBody hf hbody
        refine AllLocated.lowerBodies ?_ hfs hrun
        cases r with
        | error failure => exact h.add hr
        | ok _ =>
          dsimp only
          rwa [List.append_nil]
    · cases hrun
      exact h

/-- The functions and global variables of a program are proper, but for the implicit definition if
that comes first. -/
structure ProgramProper (p : Program) : Prop where
  /-- its functions are proper -/
  funcs : ∀ f ∈ funcDecls p, f.Proper
  /-- its variables have a place -/
  globals : ∃ vs, (globalVars p = implicitPosition :: vs ∨ globalVars p = vs) ∧
    ∀ v ∈ vs, v.var.Placed

/-- All problems of a program stand at a place. -/
theorem allLocated_lower {p : Program} {out : Outcome} (hp : ProgramProper p)
    (h : lower o p = .ok out) : AllLocated out.problems := by
  obtain ⟨rounds⟩ := exists_rounds h
  have hdeclared : ∀ f ∈ rounds.declared, f.Proper := fun f hf => by
    have hmem := (Declarable.declareFuncs (o := o) (funcDecls p) [] .nil).2.1.mem (a := f)
    rw [rounds.signed] at hmem
    exact hp.funcs f (hmem hf)
  have hunsigned : AllLocated rounds.unsigned := by
    have hall : AllLocated (declareFuncs o [] [] (funcDecls p)).2 :=
      AllLocated.declareFuncs (List.forall_mem_nil _) hp.funcs
    rwa [rounds.signed] at hall
  have hproblems : AllLocated rounds.problems := by
    have hadded := rounds.added
    obtain ⟨vs, heq | heq, hvs⟩ := hp.globals
    · rw [heq] at hadded
      exact addGlobals_implicit hunsigned hvs hadded
    · rw [heq] at hadded
      exact hunsigned.addGlobals hvs hadded
  have hcoded : AllLocated rounds.coded.problems :=
    AllLocated.lowerBodies hproblems hdeclared rounds.bodies
  rw [rounds.outcome]
  exact hcoded

end

/-- What is parsed is proper, with or without the implicit definition. -/
theorem programProper_of_parse {s : Source} {p q : Program} (h : s.parse.program = some p)
    (hq : q = p ∨ q = { p with defs := p.defs.tail }) : ProgramProper q := by
  obtain ⟨ds, hdefs, hproper⟩ := Source.proper_parse h
  have hfuncs : ∀ f ∈ funcDecls { p with defs := ds }, f.Proper := fun f hf =>
    hproper _ (func_mem_defs hf)
  have hglobals : ∀ v ∈ globalVars { p with defs := ds }, v.var.Placed := fun v hv =>
    hproper _ (global_mem_defs hv)
  rcases hq with rfl | rfl
  · refine ⟨?_, _, .inl ?_, hglobals⟩
    · rw [funcDecls, hdefs]
      exact hfuncs
    · rw [globalVars, hdefs]
      rfl
  · refine ⟨?_, _, .inr ?_, hglobals⟩
    · rw [funcDecls, hdefs]
      exact hfuncs
    · rw [globalVars, hdefs]
      rfl

/-- Lowering a parsed program, with or without the implicit definition, meets no fault in any mode,
and every problem that it finds stands at a place of the text. -/
theorem faultless_lower {s : Source} {p q : Program} (o : Options)
    (hparse : s.parse.program = some p) (hq : q = p ∨ q = { p with defs := p.defs.tail }) :
    ∃ out, lower o q = .ok out ∧ ∀ e ∈ out.problems, e.failure.pos.isPlaced := by
  have hfree : NamesFree (funcDecls q) := by
    rcases hq with rfl | rfl
    · exact namesFree_of_parse hparse
    · intro f hf
      refine namesFree_of_parse hparse f ?_
      obtain ⟨d, hd, hfunc⟩ := List.mem_filterMap.1 hf
      exact List.mem_filterMap.2 ⟨d, List.mem_of_mem_tail hd, hfunc⟩
  obtain ⟨out, hrun, -⟩ := lower_finished (o := o) hfree
  exact ⟨out, hrun, allLocated_lower (programProper_of_parse hparse hq) hrun⟩

/-- A program in which a name is not declared. -/
def unknownName : Source where
  bytes := "int f() { return a; }".toUTF8.toList

theorem faultless_lower_unknownName : ∃ p out, unknownName.parse.program = some p ∧
    lower { strict := true } { p with defs := p.defs.tail } = .ok out ∧
    ∀ e ∈ out.problems, e.failure.pos.isPlaced := by
  have hreports : unknownName.scan.reports = [] := scan_reports_eq_nil (by decide +kernel)
  obtain ⟨p, hparse, -⟩ := exists_parsed (t := fun _ => true) hreports (by decide +kernel)
  obtain ⟨out, hrun, hlocated⟩ := faultless_lower { strict := true } hparse (.inr rfl)
  exact ⟨p, out, hparse, hrun, hlocated⟩

end Shader.Lowering
