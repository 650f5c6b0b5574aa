import Shader.Proofs.Lowering.Stepwise

/-!
# What walks leave alone

`Frames` says that a relation between states holds from the start of a walk to its end, whether it
fails or not. It is shown step by step. It gives that expressions declare nothing, and that no block
is made for an expression in which everything is evaluated.
-/

namespace Shader.Lowering

open Ir

/-- A relation between the states of walks that instructions keep. -/
structure Framing (R : Body → Body → Prop) : Prop where
  /-- nothing needs to change -/
  refl : ∀ b, R b b
  /-- it goes on -/
  trans : ∀ {b b' b''}, R b b' → R b' b'' → R b b''
  /-- it holds of an instruction -/
  append : ∀ {inst : Inst} (b : Body) {v d'}, Emit.append inst b.draft = .ok (v, d') →
    R b { b with draft := d' }

/-- It does not matter for the relation which types of names are noted. -/
def Noting (R : Body → Body → Prop) : Prop :=
  ∀ (b : Body) n t, R b { b with bound := (n, t) :: b.bound }

/-- Besides, blocks and the point do not matter for the relation. -/
structure Forking (R : Body → Body → Prop) : Prop extends Framing R where
  /-- the code does not matter -/
  draft : ∀ (b : Body) d, R b { b with draft := d }

/-- A relation holds between the states before and after a walk. -/
def Frames {α : Type} (R : Body → Body → Prop) (act : Lower α) : Prop :=
  ∀ b r b', act.run b = .ok (r, b') → R b b'

section

variable {α β : Type} {R : Body → Body → Prop}

/-- A walk followed by another: the first one fails, or the second goes on where it ends. -/
theorem bind_cases {act : Lower α} {f : α → Lower β} {b b' : Body} {r : Except Failure β}
    (h : (act >>= f).run b = .ok (r, b')) :
    (∃ e, act.run b = .ok (.error e, b') ∧ r = .error e) ∨
      ∃ a b₁, act.run b = .ok (.ok a, b₁) ∧ (f a).run b₁ = .ok (r, b') := by
  change Except.bind (act.run b) _ = _ at h
  rcases hact : act.run b with e | ⟨r₁, b₁⟩
  · rw [hact] at h
    cases h
  · rw [hact] at h
    cases r₁ with
    | error e =>
      cases h
      exact .inl ⟨e, rfl, rfl⟩
    | ok a => exact .inr ⟨a, b₁, rfl, h⟩

/-- A walk followed by another has succeeded. -/
theorem bind_succeeds {act : Lower α} {f : α → Lower β} {c : β} {b'' : Body}
    (h : (act >>= f).run b = .ok (.ok c, b'')) :
    ∃ a b', act.run b = .ok (.ok a, b') ∧ (f a).run b' = .ok (.ok c, b'') := by
  obtain ⟨_, -, hr⟩ | hrest := bind_cases h
  · cases hr
  · exact hrest

/-- Writing changes the code and does not fail. -/
theorem emit_cases {act : Emit α} {b b' : Body} {r : Except Failure α}
    (h : (Lowering.emit act).run b = .ok (r, b')) :
    ∃ a d, act b.draft = .ok (a, d) ∧ r = .ok a ∧ b' = { b with draft := d } := by
  change Except.bind (act b.draft) _ = _ at h
  rcases hact : act b.draft with e | ⟨a, d⟩
  · rw [hact] at h
    cases h
  · rw [hact] at h
    cases h
    exact ⟨a, d, rfl, rfl, rfl⟩

/-- A walk whose failures have another cause ends where it would end with its own. -/
theorem insteadOf_cases {act : Lower α} {pos : Pos} {cause : Cause} {b b' : Body}
    {r : Except Failure α} (h : (Lowering.insteadOf act pos cause).run b = .ok (r, b')) :
    (∃ e, act.run b = .ok (.error e, b') ∧ r = .error ⟨pos, cause⟩) ∨
      ∃ a, act.run b = .ok (.ok a, b') ∧ r = .ok a := by
  change Except.bind (act.run b) _ = _ at h
  rcases hact : act.run b with e | ⟨r₁, b₁⟩
  · rw [hact] at h
    cases h
  · rw [hact] at h
    cases r₁ with
    | error e =>
      cases h
      exact .inl ⟨e, rfl, rfl⟩
    | ok a =>
      cases h
      exact .inr ⟨a, rfl, rfl⟩

/-- A name that is declared, or has been declared before. -/
theorem declare_cases {n : Name} {t : DataType} {addr : Value} {isConst : Bool} {b b' : Body}
    {r : Except Failure Unit} (h : (declare n t addr isConst).run b = .ok (r, b')) :
    (r = .error ⟨n.pos, .redeclared n.text⟩ ∧ b' = b) ∨
      ∃ σ, b.scopes.declare ⟨n.text, t, addr, isConst⟩ = .ok σ ∧ r = .ok () ∧
        b' = { b with scopes := σ, bound := (n, t) :: b.bound } := by
  rw [ExceptT.run, declare, get_bind] at h
  rcases hσ : b.scopes.declare ⟨n.text, t, addr, isConst⟩ with earlier | σ
  · rw [hσ] at h
    cases h
    exact .inl ⟨rfl, rfl⟩
  · rw [hσ] at h
    cases h
    exact .inr ⟨σ, rfl, rfl, rfl⟩

/-- A name has been declared. -/
theorem declare_succeeds {n : Name} {t : DataType} {addr : Value} {isConst : Bool} {b b' : Body}
    {u : Unit} (h : (declare n t addr isConst).run b = .ok (.ok u, b')) :
    ∃ σ, b.scopes.declare ⟨n.text, t, addr, isConst⟩ = .ok σ ∧
      b' = { b with scopes := σ, bound := (n, t) :: b.bound } := by
  obtain ⟨hr, -⟩ | ⟨σ, hσ, -, rfl⟩ := declare_cases h
  · cases hr
  · exact ⟨σ, hσ, rfl⟩

/-- A walk in a scope of its own, which is closed in the end. -/
theorem inScope_cases {act : Lower α} {b b' : Body} {r : Except Failure α}
    (h : (Lowering.inScope act).run b = .ok (r, b')) :
    ∃ b₁ σ, act.run { b with scopes := b.scopes.enter } = .ok (r, b₁) ∧
      b₁.scopes.exit? = some σ ∧ b' = { b₁ with scopes := σ } := by
  change Except.bind (act.run { b with scopes := b.scopes.enter }) _ = _ at h
  rcases hact : act.run { b with scopes := b.scopes.enter } with e | ⟨r₁, b₁⟩
  · rw [hact] at h
    cases h
  · rw [hact] at h
    dsimp only [Except.bind] at h
    split at h
    · cases h
    next σ hσ =>
      cases h
      exact ⟨b₁, σ, rfl, hσ, rfl⟩

namespace Frames

variable {act : Lower α}

theorem pure (hR : Framing R) {a : α} : Frames R (Pure.pure a) := by
  rintro b _ _ ⟨⟩
  exact hR.refl b

theorem fail (hR : Framing R) {pos : Pos} {cause : Cause} :
    Frames R (Lowering.fail pos cause : Lower α) := by
  rintro b _ _ ⟨⟩
  exact hR.refl b

theorem bind (hR : Framing R) {f : α → Lower β} (h : Frames R act) (hf : ∀ a, Frames R (f a)) :
    Frames R (act >>= f) := by
  intro b r b' hrun
  obtain ⟨e, hact, -⟩ | ⟨a, b₁, hact, hrest⟩ := bind_cases hrun
  · exact h b _ b' hact
  · exact hR.trans (h b _ b₁ hact) (hf a b₁ r b' hrest)

theorem insteadOf {pos : Pos} {cause : Cause} (h : Frames R act) :
    Frames R (Lowering.insteadOf act pos cause) := by
  intro b r b' hrun
  obtain ⟨e, hact, -⟩ | ⟨a, hact, -⟩ := insteadOf_cases hrun
  · exact h b _ b' hact
  · exact h b _ b' hact

/-- Writing only changes the code. -/
theorem of_draft {act : Emit α}
    (h : ∀ b a d, act b.draft = .ok (a, d) → R b { b with draft := d }) :
    Frames R (Lowering.emit act) := by
  intro b r b' hrun
  obtain ⟨a, d, hact, -, rfl⟩ := emit_cases hrun
  exact h b a d hact

theorem emit (hR : Framing R) {act : Emit α} (h : Appends act) : Frames R (Lowering.emit act) := by
  refine of_draft fun b a d hact => ?_
  refine h.keeps (R := fun d d' => ∀ b : Body, b.draft = d → R b { b with draft := d' }) ?_ hact
    b rfl
  refine ⟨?_, fun h₁ h₂ b hb => ?_, ?_⟩
  · rintro _ b rfl
    exact hR.refl b
  · exact hR.trans (h₁ b hb) (h₂ _ rfl)
  · rintro inst _ v d' - hrun b rfl
    exact hR.append b hrun

/-- Writing of any kind. -/
theorem fork (hR : Forking R) {act : Emit α} : Frames R (Lowering.emit act) :=
  of_draft fun b _ d _ => hR.draft b d

theorem bindName (hN : Noting R) {n : Name} {t : DataType} :
    Frames R (Lowering.bindName n t) := by
  rintro b _ _ ⟨⟩
  exact hN b n t

theorem getThen {f : Body → Lower β} (h : ∀ b, Frames R (f b)) : Frames R (get >>= f) :=
  fun b r b' hrun => h b b r b' hrun

end Frames

/-- What instructions keep is kept by walks, step by step. -/
theorem Framing.stepwise (hR : Framing R) : Stepwise (Frames R) where
  pure := .pure hR
  fail := .fail hR
  emit := .emit hR
  bind := .bind hR
  insteadOf := .insteadOf

theorem Framing.resolving (hR : Framing R) (hN : Noting R) : Resolving (Frames R) where
  bindName := .bindName hN
  resolve := by
    refine .getThen fun b => ?_
    split
    · exact .fail hR
    · exact .bind hR (.bindName hN) fun _ => .pure hR

theorem Forking.branching (hR : Forking R) : Branching (Frames R) where
  toStepwise := hR.stepwise
  fork := .fork hR

end

/-- The same names are in scope, and types of names have only been added. -/
structure Settles (b b' : Body) : Prop where
  /-- nothing is declared -/
  scopes : b'.scopes = b.scopes
  /-- what is noted stays -/
  bound : b.bound <:+ b'.bound

theorem forking_settles : Forking Settles where
  refl _ := ⟨rfl, List.suffix_rfl⟩
  trans h₁ h₂ := ⟨h₂.scopes.trans h₁.scopes, h₁.bound.trans h₂.bound⟩
  append _ _ _ _ := ⟨rfl, List.suffix_rfl⟩
  draft _ _ := ⟨rfl, List.suffix_rfl⟩

theorem noting_settles : Noting Settles := fun _ _ _ => ⟨rfl, List.suffix_cons _ _⟩

/-- Expressions declare nothing. -/
theorem settles_expr {Γ : Signatures} {e : Expr} : Frames Settles (expr Γ e) :=
  stepwise_expr forking_settles.stepwise (forking_settles.resolving noting_settles)
    (.inr forking_settles.branching.splitting)

/-! ## Blocks -/

theorem draft_openPoint {d d' : Draft} {l : Label} (h : Emit.openPoint d = .ok (l, d')) :
    d' = d := by
  unfold Emit.openPoint at h
  rcases hpoint : d.point with _ | l'
  · simp [get, getThe, MonadStateOf.get, StateT.get, bind, StateT.bind, Except.bind, pure,
      Except.pure, hpoint] at h
    cases h
  · simp only [get, getThe, MonadStateOf.get, StateT.get, bind, StateT.bind, Except.bind, pure,
      Except.pure, hpoint] at h
    split at h
    · cases h
    · cases h
      rfl

/-- An instruction makes no block. -/
theorem labels_append {inst : Inst} {d d' : Draft} {v : Value}
    (h : Emit.append inst d = .ok (v, d')) : d'.func.labels = d.func.labels := by
  simp only [Emit.append] at h
  rcases htype : inst.type? with _ | τ
  · rw [htype] at h
    cases h
  · rw [htype] at h
    change Except.bind (Emit.openPoint d) _ = _ at h
    rcases hpoint : Emit.openPoint d with e | ⟨l, d₁⟩
    · rw [hpoint] at h
      cases h
    · obtain rfl := draft_openPoint hpoint
      rw [hpoint] at h
      cases h
      rfl

theorem framing_labels :
    Framing fun b b' => b'.draft.func.labels = b.draft.func.labels where
  refl _ := rfl
  trans h₁ h₂ := h₂.trans h₁
  append _ _ _ h := labels_append h

/-- No block is made for an expression in which everything is evaluated. -/
theorem labels_expr {Γ : Signatures} {e : Expr} (he : isStraight e = true) :
    Frames (fun b b' => b'.draft.func.labels = b.draft.func.labels) (expr Γ e) :=
  stepwise_expr framing_labels.stepwise (framing_labels.resolving fun _ _ _ => rfl) (.inl he)

end Shader.Lowering
