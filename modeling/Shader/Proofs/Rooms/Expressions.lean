import Shader.Proofs.Grammar.Occurrences
import Shader.Proofs.Rooms.Walks

/-!
# Expressions keep to the rooms of variables

A name stands for the room that it has been declared with, and indices, selections, commas and
parentheses pass it on with what is known of it. So whatever an expression writes to, or hands over
to be written to, has room that is not that of a constant.
-/

namespace Shader.Lowering

open Ir

section

variable {E : Setting} {D : Demand E} {k : Ledger} {P : Func → Prop} {pos : Pos}

/-! ## Blocks -/

theorem traces_newBlock {hint : String} :
    Traces D k P (emit (Emit.newBlock hint)) fun l f => l ∈ f.ownLabels :=
  .emit fun _ _ _ hd _ hrun => hd.newBlock hrun

theorem traces_openPoint : Traces D k P (emit Emit.openPoint) fun _ _ => True := by
  refine .emit fun d l d' hd _ hrun => ?_
  obtain ⟨-, rfl⟩ := Emit.openPoint_cases hrun
  exact ⟨hd, .refl _, trivial⟩

/-- A block is ended, and what is returned is as it is asked for. -/
theorem traces_terminate {t : Term}
    (ht : ∀ v, t = .ret (some v) → ∀ f, P f → D.fit k f E.result v) :
    Traces D k P (emit (Emit.terminate t)) fun _ _ => True := by
  refine .emit fun d _ d' hd hp hrun => ?_
  obtain ⟨hd', hgrows⟩ := hd.terminate (fun v hv => ht v hv _ hp) hrun
  exact ⟨hd', hgrows, trivial⟩

theorem traces_setPoint {l : Label} (hl : ∀ f, P f → l ∈ f.ownLabels) :
    Traces D k P (emit (Emit.setPoint (some l))) fun _ _ => True := by
  refine .emit fun d _ d' hd hp hrun => ?_
  cases hrun
  refine ⟨hd.setPoint fun m hm => ?_, ⟨.refl _, fun _ => rfl⟩, trivial⟩
  obtain rfl := Option.some.inj hm
  exact hl _ hp

/-! ## Names and calls -/

/-- A name stands for the room of its declaration. -/
theorem traces_resolve {n : Name} :
    Traces D k P (resolve n) fun sym f => Room E k f sym.isConst sym.type sym.handle := by
  intro b sym b' hrun
  obtain ⟨_, b₁, hget, hrun⟩ := bind_succeeds hrun
  cases hget
  rcases hlookup : b.scopes.lookup? n.text with _ | found
  · rw [hlookup] at hrun
    cases hrun
  rw [hlookup] at hrun
  cases hrun
  exact ⟨D.seen_tail, fun _ hb _ => ⟨⟨hb.toTraced, hb.scopes⟩, .refl _, hb.scopes.lookup? hlookup⟩⟩

/-- The result of a call is as the signature says. -/
theorem traces_callResult {name : String} {sig : Signature} {args : List Value} (hD : Fitness D)
    [Lasts P] (hsig : E.sigs name = some sig)
    (hargs : ∀ f, P f → List.Forall₂ (Passing.Takes D k f) sig.params args) :
    Traces D k P (callResult pos sig args) fun y f => y.Traced D k f := by
  refine .bind (Q := fun v f => D.fit k f sig.result v) (.emit fun d v d' hd hp hrun => ?_)
    fun v => .pure fun f h => ?_
  · obtain ⟨hd', hgrows, hmem, τ, -, rfl⟩ := hd.append hrun
      (.inr ⟨name, sig, hsig, rfl, hargs _ hp⟩)
    exact ⟨hd', hgrows, hD.call hsig hmem rfl⟩
  · split
    · trivial
    · exact h.2

/-- An element of a variable is as constant as the variable. -/
theorem traces_element {base : Name} {sym : Symbol DataType Value} {index : Lower Value} [Lasts P]
    (hsym : ∀ f, P f → Room E k f sym.isConst sym.type sym.handle)
    (hindex : Traces D k P index fun _ _ => True) :
    Traces D k P (element base sym index) fun y f => y.Traced D k f := by
  rcases sym with ⟨name, type, handle, isConst⟩
  cases type with
  | vector s n => exact .bind hindex fun idx => .pure fun f h => hsym f h.1
  | matrix n =>
    refine .bind hindex fun idx => ?_
    refine .bind (Q := fun addr f => Room E k f isConst (.vector .float n) addr)
      (.emit fun d v d' hd hp hrun => ?_) fun addr => .pure fun f h => h.2
    obtain ⟨hd', hgrows, hmem, τ, hτ, rfl⟩ := hd.append hrun trivial
    exact ⟨hd', hgrows, .column ((hsym _ hp.1).mono (.refl k) hgrows.func) hmem rfl hτ⟩
  | _ => exact .fail

/-! ## Operators that evaluate an operand only sometimes -/

theorem traces_alternative {x : Operand} (hD : Fitness D) (hx : ∀ f, P f → x.Traced D k f) :
    Traces D k P (alternative? x) fun v f => ∀ w ∈ v, D.fit k f x.type w := by
  unfold alternative?
  split
  · exact .map (traces_valueOf hD hx) fun v f h w hw => Option.some.inj hw ▸ h
  · exact .pure fun _ _ => nofun

theorem traces_otherwise {x y : Operand} (hD : Fitness D) (hy : ∀ f, P f → y.Traced D k f) :
    Traces D k P (otherwise? pos x y) fun v f => ∀ w ∈ v, D.fit k f x.type w := by
  unfold otherwise?
  dsimp only
  split
  · exact .map (.insteadOf (traces_valueAs hD hy)) fun v f h w hw => Option.some.inj hw ▸ h
  · split
    · exact .fail
    · exact .pure fun _ _ => nofun

variable [Lasts P]

/-- Both operands keep to the rooms, on whichever way control gets to the second one. -/
theorem traces_logical {op : LogicOp} {l : Operand} {rhs : Lower Operand} (hD : Fitness D)
    (hrhs : ∀ {P : Func → Prop} [Lasts P], Traces D k P rhs fun y f => y.Traced D k f) :
    Traces D k P (logical pos op l rhs) fun y f => y.Traced D k f := by
  unfold logical
  refine .bind (stepwise_truthOf (evaluating_traces D k P)) fun lc => ?_
  split
  · refine .bind hrhs fun y => .bind (stepwise_truthOf (evaluating_traces D k _)) fun rc => ?_
    refine .bind (.compute (.bind (.append rfl) fun _ => .append rfl)) fun v => ?_
    exact .pure fun _ _ => hD.plain rfl
  · refine .bind traces_openPoint fun source => .bind traces_newBlock fun more => ?_
    refine .bind traces_newBlock fun done => ?_
    refine .bind (Q := fun _ _ => True) ?_ fun _ => ?_
    · split <;> exact traces_terminate nofun
    refine .bind (traces_setPoint fun _ h => h.1.1.2) fun _ => .bind hrhs fun y => ?_
    refine .bind (stepwise_truthOf (evaluating_traces D k _)) fun rc => ?_
    refine .bind traces_openPoint fun last => .bind (traces_terminate nofun) fun _ => ?_
    refine .bind (traces_setPoint fun _ h => h.1.1.1.1.1.1.2) fun _ => ?_
    refine .bind (.compute (.bind .phi fun _ => .append rfl)) fun v => ?_
    exact .pure fun _ _ => hD.plain rfl

/-- Both branches keep to the rooms, and so does the value that is chosen. -/
theorem traces_choice {c : Value} {yes no : Lower Operand} (hD : Fitness D)
    (hyes : ∀ {P : Func → Prop} [Lasts P], Traces D k P yes fun x f => x.Traced D k f)
    (hno : ∀ {P : Func → Prop} [Lasts P], Traces D k P no fun y f => y.Traced D k f) :
    Traces D k P (choice pos c yes no) fun z f => z.Traced D k f := by
  unfold choice
  refine .bind traces_newBlock fun whenTrue => .bind traces_newBlock fun whenFalse => ?_
  refine .bind traces_newBlock fun done => .bind (traces_terminate nofun) fun _ => ?_
  refine .bind (traces_setPoint fun _ h => by tauto) fun _ => .bind hyes fun x => ?_
  refine .bind (traces_alternative hD fun _ h => h.2) fun xv => ?_
  refine .bind traces_openPoint fun xEnd => ?_
  refine .bind (traces_terminate nofun) fun _ => ?_
  refine .bind (traces_setPoint fun _ h => by tauto) fun _ => .bind hno fun y => ?_
  refine .bind (traces_otherwise (x := x) hD fun _ h => h.2) fun yv => ?_
  refine .bind traces_openPoint fun yEnd => .bind (traces_terminate nofun) fun _ => ?_
  refine .bind (traces_setPoint fun _ h => by tauto) fun _ => ?_
  split
  next xv yv =>
    refine .bind (Q := fun v f => D.fit k f x.type v) (.emit fun d v d' hd h hrun => ?_) fun v =>
      .pure fun _ h => h.2
    obtain ⟨hd', hgrows⟩ := hd.evaluates .phi hrun
    have hx : D.fit k d.func x.type xv := by
      have hx : ∀ w ∈ some xv, D.fit k d.func x.type w := by tauto
      exact hx xv rfl
    have hy : D.fit k d.func x.type yv := by
      have hy : ∀ w ∈ some yv, D.fit k d.func x.type w := by tauto
      exact hy yv rfl
    refine ⟨hd', hgrows, hD.phi hd (fun i hi => ?_) hrun⟩
    rcases List.mem_cons.1 hi with rfl | hi
    · exact hx
    · obtain rfl := List.mem_singleton.1 hi
      exact hy
  · exact .pure fun _ _ => trivial

end

/-! ## Expressions -/

section

variable {E : Setting} {D : Demand E} {k : Ledger}

/-- Wherever an operator with one operand is applied in an expression, it may be. -/
def Permitted (D : Demand E) (x : Expr) : Prop :=
  ∀ pos op e, (Expr.unary pos op e).Occurs x → ∀ {b a b'},
    (expr E.sigs e).run b = .ok (.ok a, b') → D.seen b'.bound → D.allows op a.type

/-- What is permitted of an expression is permitted of its parts. -/
theorem Permitted.child {x e : Expr} (h : Permitted D x) (he : e ∈ x.children) : Permitted D e :=
  fun pos op e hoccurs => h pos op e (hoccurs.tail he)

mutual

/-- What an expression stands for has room, or is as it is asked for. -/
theorem traces_expr (hD : Fitness D) : ∀ {x : Expr}, Permitted D x → ∀ {P : Func → Prop} [Lasts P],
    Traces D k P (expr E.sigs x) fun y f => y.Traced D k f
  | .name n, _, P, _ => by
    unfold expr
    exact .bind traces_resolve fun sym => .pure fun _ h => h.2
  | .number pos kind text, _, P, _ => by
    unfold expr
    split
    · exact .fail
    · refine .pure fun _ _ => hD.plain ?_
      cases kind <;> rfl
  | .bool pos c, _, P, _ => by
    unfold expr
    exact .pure fun _ _ => hD.bool c
  | .call fn args, hx, P, _ => by
    unfold expr
    split
    · exact .fail
    next sig hsig =>
      refine .bind .bindName fun _ => .check fun hlength => ?_
      refine .bind (traces_arguments hD fun e (he : e ∈ args) => hx.child he) fun vs => ?_
      exact traces_callResult hD hsig fun _ h => h.2 (by simpa using hlength)
  | .construct pos type args, hx, P, _ => by
    unfold expr
    refine .check fun _ => .check fun _ => ?_
    refine .bind (traces_exprs hD fun e he => hx.child he) fun xs => ?_
    exact .bind (traces_build hD fun _ h => h.2) fun v => .pure fun _ h => h.2
  | .index base i, hx, P, _ => by
    unfold expr
    refine .bind traces_resolve fun sym => traces_element (fun _ h => h.2) ?_
    refine .bind (traces_expr hD (hx.child (by simp [Expr.children]))) fun y => ?_
    exact stepwise_indexValue (evaluating_traces D k _)
  | .member x sel selPos, hx, P, _ => by
    unfold expr
    refine .bind (traces_expr hD (hx.child (by simp [Expr.children]))) fun y => ?_
    exact traces_select hD fun _ h => h.2
  | .unary pos op x, hx, P, _ => by
    unfold expr
    refine .bind ((traces_expr hD (hx.child (by simp [Expr.children]))).also
      fun _ _ _ hrun hseen => hx pos op x .refl hrun hseen) fun y => ?_
    cases op with
    | step s => exact traces_step hD fun _ h => h.2.2
    | _ => exact traces_unary hD fun _ h => h.2
  | .postStep s x, hx, P, _ => by
    unfold expr
    refine .bind (traces_expr hD (hx.child (by simp [Expr.children]))) fun y => ?_
    exact traces_step hD fun _ h => h.2
  | .binary op x y, hx, P, _ => by
    have hleft : Permitted D x := hx.child (by simp [Expr.children])
    have hright : Permitted D y := hx.child (by simp [Expr.children])
    unfold expr
    refine .bind (traces_expr hD hleft) fun l => ?_
    cases op with
    | arith op =>
      refine .bind (traces_expr hD hright) fun r => ?_
      exact traces_arithExpr hD (fun _ h => h.1.2) fun _ h => h.2
    | rel op => exact .bind (traces_expr hD hright) fun r => traces_comparison hD
    | logic op => exact traces_logical hD (traces_expr hD hright)
  | .assign op x y, hx, P, _ => by
    have hleft : Permitted D x := hx.child (by simp [Expr.children])
    have hright : Permitted D y := hx.child (by simp [Expr.children])
    unfold expr
    refine .bind (traces_expr hD hleft) fun l => ?_
    exact traces_assign hD (fun _ h => h.2) (traces_expr hD hright)
  | .cond c x y, hx, P, _ => by
    have hcond : Permitted D c := hx.child (by simp [Expr.children])
    have hyes : Permitted D x := hx.child (by simp [Expr.children])
    have hno : Permitted D y := hx.child (by simp [Expr.children])
    unfold expr
    refine .bind (traces_expr hD hcond) fun z => ?_
    refine .bind (stepwise_truthOf (evaluating_traces D k _)) fun bit => ?_
    exact traces_choice hD (traces_expr hD hyes) (traces_expr hD hno)
  | .seq first rest, hx, P, _ => by
    unfold expr
    refine .bind (traces_expr hD (hx.child (by simp [Expr.children]))) fun y => ?_
    exact traces_sequence hD (fun e he => hx.child (by simp [Expr.children, he])) fun _ h => h.2

/-- Expressions one after another keep to the rooms. -/
theorem traces_exprs (hD : Fitness D) : ∀ {xs : List Expr}, (∀ x ∈ xs, Permitted D x) →
    ∀ {P : Func → Prop} [Lasts P],
      Traces D k P (exprs E.sigs xs) fun ys f => ∀ y ∈ ys, y.Traced D k f
  | [], _, P, _ => by
    unfold exprs
    exact .pure fun _ _ => List.forall_mem_nil _
  | x :: xs, hxs, P, _ => by
    unfold exprs
    refine .bind (traces_expr hD (hxs x List.mem_cons_self)) fun y => ?_
    refine .bind (traces_exprs hD fun x hx => hxs x (List.mem_cons_of_mem _ hx)) fun ys => ?_
    exact .pure fun _ h => List.forall_mem_cons.2 ⟨h.1.2, h.2⟩

/-- The arguments of a call are as its signature asks for. -/
theorem traces_arguments (hD : Fitness D) {func : String} : ∀ {xs : List Expr} {ps : List Passing},
    (∀ x ∈ xs, Permitted D x) → ∀ {P : Func → Prop} [Lasts P],
      Traces D k P (arguments E.sigs func xs ps) fun vs f =>
        xs.length = ps.length → List.Forall₂ (Passing.Takes D k f) ps vs
  | [], ps, _, P, _ => by
    unfold arguments
    refine .pure fun _ _ hlength => ?_
    rw [List.length_eq_zero_iff.1 hlength.symm]
    exact .nil
  | x :: xs, [], _, P, _ => by
    unfold arguments
    exact .pure fun _ _ => nofun
  | x :: xs, p :: ps, hxs, P, _ => by
    unfold arguments
    refine .bind (traces_expr hD (hxs x List.mem_cons_self)) fun y => ?_
    refine .bind (traces_argument hD fun _ h => h.2) fun v => ?_
    refine .bind (traces_arguments hD fun x hx => hxs x (List.mem_cons_of_mem _ hx)) fun vs => ?_
    exact .pure fun _ h hlength => .cons h.1.2 (h.2 (Nat.succ.inj hlength))

/-- Of expressions between commas the last operand counts. -/
theorem traces_sequence (hD : Fitness D) : ∀ {xs : List Expr} {before : Operand},
    (∀ x ∈ xs, Permitted D x) → ∀ {P : Func → Prop} [Lasts P],
      (∀ f, P f → before.Traced D k f) →
        Traces D k P (sequence E.sigs before xs) fun y f => y.Traced D k f
  | [], _, _, P, _, hbefore => by
    unfold sequence
    exact .pure hbefore
  | x :: xs, _, hxs, P, _, _ => by
    unfold sequence
    refine .bind (traces_expr hD (hxs x List.mem_cons_self)) fun y => ?_
    exact traces_sequence hD (fun x hx => hxs x (List.mem_cons_of_mem _ hx)) fun _ h => h.2

end

end

end Shader.Lowering
