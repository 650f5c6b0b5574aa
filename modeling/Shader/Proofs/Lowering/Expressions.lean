import Shader.Proofs.Lowering.Operations

/-!
# The walk over expressions

Where every declared variable has room of its type and every function is called as it is declared,
the walk over any expression meets no fault, and leads on to a sound operand unless it fails. The
proof follows the syntax tree, with one case for each kind of expression.
-/

namespace Shader.Lowering

open Ir

/-! ## Surroundings of an expression -/

/-- A declared variable can be used at every point. -/
theorem ScopesSound.lookup {O : Outside} {s : Site} {ρ : Realm} {σ : Scopes DataType Value}
    (h : ScopesSound O s.func σ) (hs : s.Ready ρ) {name : String} {sym : Symbol DataType Value}
    (hsym : σ.lookup? name = some sym) :
    sym.type ≠ .void ∧ s.Has O sym.handle (.pointer (Ty.ofData sym.type)) := by
  obtain ⟨frame, hframe, hfind⟩ := List.exists_of_findSome?_eq_some hsym
  have hsound := h frame hframe sym (List.mem_of_find?_eq_some hfind)
  obtain ⟨l, hl⟩ := hs.there
  exact ⟨hsound.noVoid, hsound.type, hsound.known, fun r hr => ⟨l, hl, .inr (hsound.slot r hr)⟩⟩

/-- Variables keep their room while code is written. -/
theorem ScopesSound.writes {O : Outside} {ρ : Realm} {x x' : Walk}
    (h : ScopesSound O x.site.func x.scopes) (hw : Writes O ρ x.site x'.site)
    (hscopes : x'.scopes = x.scopes) : ScopesSound O x'.site.func x'.scopes := by
  rw [hscopes]
  exact h.mono (Steps.le hw)

/-- The type of what is passed for a parameter. -/
def Passing.ty (p : Passing) : Ty :=
  if p.isOut then .pointer (Ty.ofData p.type) else Ty.ofData p.type

/-- Functions are called with the results and parameters that they have. -/
def SignaturesSound (O : Outside) (Γ : Signatures) : Prop :=
  ∀ name sig, Γ name = some sig →
    O.sigs ⟨sig.name, 0⟩ = some (Ty.ofData sig.result, sig.params.map Passing.ty)

section

variable {O : Outside} {ρ : Realm} {x : Walk}

/-! ## Names and calls -/

theorem lowers_resolve {n : Name} (hσ : ScopesSound O x.site.func x.scopes) :
    Lowers O ρ (resolve n) x fun sym x' =>
      sym.type ≠ .void ∧ x'.site.Has O sym.handle (.pointer (Ty.ofData sym.type)) := by
  intro hx
  have hget : ∀ {α : Type} {f : Body → Lower α} {Q : α → Walk → Prop},
      Walks O ρ (f x.body) x Q → Walks O ρ (get >>= f) x Q := fun h => h
  refine hget ?_
  rcases hlookup : x.scopes.lookup? n.text with _ | sym
  · exact Walks.fail hx
  · refine Lowers.bind (P := fun _ x' => x'.site = x.site) (Lowers.bindName fun x' hsite _ => hsite)
      (fun _ x' _ hsite => Lowers.pure ?_) hx
    rw [hsite]
    exact hσ.lookup hx hlookup

theorem lowers_argument {func : String} {p : Passing} {pos : Pos} {text : String} {a : Operand}
    (ha : a.Sound O x.site) :
    Lowers O ρ (argument func p pos text a) x fun v x' => x'.site.Has O v p.ty := by
  unfold argument Passing.ty
  split
  next =>
    cases a with
    | place q type addr name isConst =>
      dsimp only
      split
      next heq =>
        simp only [Bool.and_eq_true, decide_eq_true_eq] at heq
        exact Lowers.pure (heq.1 ▸ ha.2)
      next => exact Lowers.fail
    | _ => exact Lowers.fail
  next => exact (Lowers.insteadOf (Lowers.valueAs ha)).weaken fun v x' _ hv => hv.2

theorem lowers_callResult {pos : Pos} {sig : Signature} {args : List Value}
    (hsig : O.sigs ⟨sig.name, 0⟩ = some (Ty.ofData sig.result, sig.params.map Passing.ty))
    (hargs : args.map Value.type = sig.params.map Passing.ty)
    (hhas : ∀ v ∈ args, ∃ σ, x.site.Has O v σ) :
    Lowers O ρ (callResult pos sig args) x fun a x' => a.Sound O x'.site := by
  have hcall : Emits O ρ (Emit.call ⟨sig.name, 0⟩ (Ty.ofData sig.result) args) x.site
      fun v s' => s'.Has O v (Ty.ofData sig.result) :=
    Emits.append rfl rfl (by rw [Inst.WellTyped, hsig, hargs]) rfl hhas
  refine Lowers.bind (Lowers.emit hcall) fun v x' _ hv => Lowers.pure ?_
  split
  next => trivial
  next hvoid => exact ⟨hvoid, hv⟩

theorem lowers_element {base : Name} {sym : Symbol DataType Value} {index : Lower Value}
    (hsym : sym.type ≠ .void ∧ x.site.Has O sym.handle (.pointer (Ty.ofData sym.type)))
    (hindex : Lowers O ρ index x fun v x' => x'.site.Has O v .i32) :
    Lowers O ρ (element base sym index) x fun a x' => a.Sound O x'.site := by
  unfold element
  split
  next c n htype =>
    rw [htype] at hsym
    exact Lowers.bind hindex fun idx x' hlead hidx => Lowers.pure ⟨hlead.site.has hsym.2, hidx⟩
  next n htype =>
    refine Lowers.bind hindex fun idx x' hlead hidx => ?_
    have haddr := hlead.site.has hsym.2
    rw [htype] at haddr ⊢
    exact Lowers.bind (Lowers.emit (Emits.columnAddr haddr hidx)) fun addr x'' _ hcol =>
      Lowers.pure ⟨by simp, hcol⟩
  next => exact Lowers.fail

/-- The constant of a number. -/
theorem type_literal {kind : NumberKind} {text : String} {v : Value}
    (h : literal kind text = .ok v) : ∃ c, v = .const c ∧ c.type = Ty.ofScalar kind.type := by
  cases kind with
  | int | uint =>
    simp only [literal, intLiteral] at h
    split at h
    · cases h
    split at h
    · obtain rfl := Except.ok.inj h
      exact ⟨_, rfl, rfl⟩
    · cases h
  | float | double =>
    simp only [literal, floatLiteral] at h
    split at h
    · cases h
    · obtain rfl := Except.ok.inj h
      exact ⟨_, rfl, rfl⟩

end

/-! ## Expressions -/

variable {O : Outside} {Γ : Signatures}

mutual

theorem lowers_expr (hΓ : SignaturesSound O Γ) : ∀ (e : Expr) {ρ : Realm} {x : Walk},
    ScopesSound O x.site.func x.scopes →
    Lowers O ρ (expr Γ e) x fun a x' => a.Sound O x'.site
  | .name n, ρ, x, hσ => by
    unfold expr
    exact Lowers.bind (lowers_resolve hσ) fun sym x' _ hsym => Lowers.pure hsym
  | .number pos kind text, ρ, x, hσ => by
    unfold expr
    split
    next => exact Lowers.fail
    next v hv =>
      obtain ⟨c, rfl, hc⟩ := type_literal hv
      have hhas := Site.Has.const x.site O c
      rw [hc] at hhas
      exact Lowers.pure ⟨by simp, hhas⟩
  | .bool pos b, ρ, x, hσ => by
    unfold expr
    exact Lowers.pure ⟨by simp, Site.Has.int _ O _⟩
  | .call fn args, ρ, x, hσ => by
    unfold expr
    split
    next => exact Lowers.fail
    next sig hsig =>
      refine Lowers.bind (P := fun _ x' => x'.site = x.site ∧ x'.scopes = x.scopes)
        (Lowers.bindName fun x' hsite hscopes => ⟨hsite, hscopes⟩) fun _ x₁ h₁ hx₁ => ?_
      refine Lowers.check fun hcount => ?_
      -- noting the name of the function changes neither the site nor the scopes
      have hσ₁ : ScopesSound O x₁.site.func x₁.scopes := by
        rw [hx₁.1, hx₁.2]
        exact hσ
      refine Lowers.bind (lowers_arguments hΓ args sig.params (by simpa using hcount) hσ₁)
        fun vs x₂ h₂ hvs => ?_
      exact lowers_callResult (hΓ _ sig hsig) hvs.1 hvs.2
  | .construct pos type args, ρ, x, hσ => by
    unfold expr
    refine Lowers.check fun hvoid => Lowers.check fun _ => ?_
    refine Lowers.bind (lowers_exprs hΓ args hσ) fun xs x₁ h₁ hxs => ?_
    exact Lowers.bind (Lowers.build hxs) fun v x₂ _ hv => Lowers.pure hv
  | .index base i, ρ, x, hσ => by
    unfold expr
    refine Lowers.bind (lowers_resolve hσ) fun sym x₁ h₁ hsym => lowers_element hsym ?_
    exact Lowers.bind (lowers_expr hΓ i (h₁.scopesSound hσ)) fun a x₂ _ ha => lowers_indexValue ha
  | .member e sel selPos, ρ, x, hσ => by
    unfold expr
    exact Lowers.bind (lowers_expr hΓ e hσ) fun a x₁ _ ha => lowers_select ha
  | .unary pos op e, ρ, x, hσ => by
    unfold expr
    refine Lowers.bind (lowers_expr hΓ e hσ) fun a x₁ _ ha => ?_
    cases op with
    | step s => exact lowers_step ha
    | _ => exact lowers_unary ha
  | .postStep s e, ρ, x, hσ => by
    unfold expr
    exact Lowers.bind (lowers_expr hΓ e hσ) fun a x₁ _ ha => lowers_step ha
  | .binary op e e', ρ, x, hσ => by
    unfold expr
    refine Lowers.bind (lowers_expr hΓ e hσ) fun a x₁ h₁ ha => ?_
    have hσ₁ := h₁.scopesSound hσ
    cases op with
    | arith op =>
      exact Lowers.bind (lowers_expr hΓ e' hσ₁) fun b x₂ h₂ hb =>
        Lowers.arithExpr (ha.mono h₂.site) hb
    | rel op =>
      exact Lowers.bind (lowers_expr hΓ e' hσ₁) fun b x₂ h₂ hb =>
        Lowers.comparison (ha.mono h₂.site) hb
    | logic op =>
      exact lowers_logical ha fun ρ' x' hw hscopes => lowers_expr hΓ e' (hσ₁.writes hw hscopes)
  | .assign op e e', ρ, x, hσ => by
    unfold expr
    refine Lowers.bind (lowers_expr hΓ e hσ) fun a x₁ h₁ ha => ?_
    exact lowers_assign ha fun ρ' x' hw hscopes =>
      lowers_expr hΓ e' ((h₁.scopesSound hσ).writes hw hscopes)
  | .cond c e e', ρ, x, hσ => by
    unfold expr
    refine Lowers.bind (lowers_expr hΓ c hσ) fun a x₁ h₁ ha => ?_
    refine Lowers.bind (Lowers.truthOf ha) fun bit x₂ h₂ hbit => ?_
    have hσ₂ := (h₁.trans h₂).scopesSound hσ
    exact lowers_alternatives hbit
      (fun ρ' x' hw hscopes => lowers_expr hΓ e (hσ₂.writes hw hscopes))
      fun ρ' x' hw hscopes => lowers_expr hΓ e' (hσ₂.writes hw hscopes)
  | .seq first rest, ρ, x, hσ => by
    unfold expr
    refine Lowers.bind (lowers_expr hΓ first hσ) fun a x₁ h₁ ha =>
      lowers_sequence hΓ rest ha (h₁.scopesSound hσ)

theorem lowers_exprs (hΓ : SignaturesSound O Γ) : ∀ (es : List Expr) {ρ : Realm} {x : Walk},
    ScopesSound O x.site.func x.scopes →
    Lowers O ρ (exprs Γ es) x fun as x' => ∀ a ∈ as, a.Sound O x'.site
  | [], ρ, x, hσ => by
    unfold exprs
    exact Lowers.pure fun _ h => by cases h
  | e :: es, ρ, x, hσ => by
    unfold exprs
    refine Lowers.bind (lowers_expr hΓ e hσ) fun a x₁ h₁ ha => ?_
    exact Lowers.bind (lowers_exprs hΓ es (h₁.scopesSound hσ)) fun as x₂ h₂ has =>
      Lowers.pure (List.forall_mem_cons.2 ⟨ha.mono h₂.site, has⟩)

theorem lowers_arguments (hΓ : SignaturesSound O Γ) : ∀ (es : List Expr) (ps : List Passing)
    {ρ : Realm} {x : Walk} {func : String}, es.length = ps.length →
    ScopesSound O x.site.func x.scopes →
    Lowers O ρ (arguments Γ func es ps) x fun vs x' =>
      vs.map Value.type = ps.map Passing.ty ∧ ∀ v ∈ vs, ∃ σ, x'.site.Has O v σ
  | [], [], ρ, x, func, _, hσ => by
    unfold arguments
    exact Lowers.pure ⟨rfl, fun _ h => by cases h⟩
  | [], _ :: _, ρ, x, func, hlen, hσ => by cases hlen
  | _ :: _, [], ρ, x, func, hlen, hσ => by cases hlen
  | e :: es, p :: ps, ρ, x, func, hlen, hσ => by
    unfold arguments
    refine Lowers.bind (lowers_expr hΓ e hσ) fun a x₁ h₁ ha => ?_
    refine Lowers.bind (lowers_argument ha) fun v x₂ h₂ hv => ?_
    have hσ₂ := (h₁.trans h₂).scopesSound hσ
    refine Lowers.bind (lowers_arguments hΓ es ps (Nat.succ.inj hlen) hσ₂) fun vs x₃ h₃ hvs => ?_
    refine Lowers.pure ⟨?_, List.forall_mem_cons.2 ⟨⟨_, h₃.site.has hv⟩, hvs.2⟩⟩
    rw [List.map_cons, List.map_cons, hv.type, hvs.1]

theorem lowers_sequence (hΓ : SignaturesSound O Γ) : ∀ (es : List Expr) {ρ : Realm} {x : Walk}
    {before : Operand}, before.Sound O x.site → ScopesSound O x.site.func x.scopes →
    Lowers O ρ (sequence Γ before es) x fun a x' => a.Sound O x'.site
  | [], ρ, x, before, hbefore, hσ => by
    unfold sequence
    exact Lowers.pure hbefore
  | e :: es, ρ, x, before, hbefore, hσ => by
    unfold sequence
    refine Lowers.bind (lowers_expr hΓ e hσ) fun a x₁ h₁ ha =>
      lowers_sequence hΓ es ha (h₁.scopesSound hσ)

end

end Shader.Lowering
