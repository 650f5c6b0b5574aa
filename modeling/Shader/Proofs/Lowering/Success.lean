import Shader.Proofs.Ir.Growth
import Shader.Proofs.Lowering.Frames

/-!
# Walks that succeed

A program that is accepted is lowered without a failure, so what matters of a walk is what holds
when it has succeeded. `Brings P act Q` says that it leads from states with one property to states
and results with another: a triple of partial correctness, for which a fault or a failure counts as
no end. The rules follow the ways in which walks are composed.

What the primitives of writing do to a draft is known exactly, so that nothing has to be assumed of
the function that is written.
-/

namespace Shader.Ir.Emit

open Lowering (draft_openPoint)

variable {α β : Type} {d d' : Draft}

/-- Writing one thing after another. -/
theorem bind_cases {act : Emit α} {f : α → Emit β} {b : β} (h : (act >>= f) d = .ok (b, d')) :
    ∃ a d₁, act d = .ok (a, d₁) ∧ f a d₁ = .ok (b, d') := by
  change Except.bind (act d) _ = _ at h
  rcases hact : act d with e | ⟨a, d₁⟩
  · rw [hact] at h
    cases h
  · rw [hact] at h
    exact ⟨a, d₁, rfl, h⟩

theorem discard_cases {act : Emit α} {u : Unit} (h : discard act d = .ok (u, d')) :
    ∃ a, act d = .ok (a, d') := by
  obtain ⟨a, d₁, hact, hpure⟩ := bind_cases (f := fun _ => pure ()) h
  cases hpure
  exact ⟨a, hact⟩

/-- The block at the point is where writing goes on, and nothing has been written. -/
theorem openPoint_cases {l : Label} (h : openPoint d = .ok (l, d')) :
    d.point = some l ∧ d' = d := by
  obtain rfl := draft_openPoint h
  refine ⟨?_, rfl⟩
  rcases hk : d'.point with _ | k
  · simp [openPoint, get, getThe, MonadStateOf.get, StateT.get, bind, StateT.bind, Except.bind,
      pure, Except.pure, hk] at h
    cases h
  · simp only [openPoint, get, getThe, MonadStateOf.get, StateT.get, bind, StateT.bind,
      Except.bind, pure, Except.pure, hk] at h
    split at h
    · cases h
    · cases h
      rfl

/-- An instruction that has been put at the point. -/
theorem append_cases {inst : Inst} {v : Value} (h : append inst d = .ok (v, d')) :
    ∃ l τ, d.point = some l ∧ inst.type? = some τ ∧ v = .result d.func.id d.func.regs "" τ ∧
      d' = { d with func := d.func.put l inst } := by
  simp only [append] at h
  rcases hτ : inst.type? with _ | τ
  · rw [hτ] at h
    cases h
  · rw [hτ] at h
    obtain ⟨l, d₁, hpoint, hset⟩ := bind_cases h
    obtain ⟨hl, rfl⟩ := openPoint_cases hpoint
    cases hset
    exact ⟨l, τ, hl, rfl, rfl, rfl⟩

/-- The block at the point has been ended. -/
theorem terminate_cases {term : Term} {u : Unit} (h : terminate term d = .ok (u, d')) :
    ∃ l, d.point = some l ∧ d' = { d with func := d.func.close l term } := by
  obtain ⟨l, d₁, hpoint, hmodify⟩ := bind_cases h
  obtain ⟨hl, rfl⟩ := openPoint_cases hpoint
  cases hmodify
  exact ⟨l, hl, rfl⟩

/-- An open block has been added. -/
theorem newBlock_cases {hint : String} {l : Label} (h : newBlock hint d = .ok (l, d')) :
    l = (d.func.addBlock hint).1 ∧ d' = { d with func := (d.func.addBlock hint).2 } := by
  cases h
  exact ⟨rfl, rfl⟩

/-- Room that has been reserved. -/
theorem alloca_cases {t : DataType} {hint : String} {v : Value}
    (h : alloca t hint d = .ok (v, d')) :
    d.func.blocks ≠ [] ∧ v = .result d.func.id d.func.regs (d.func.claimName hint).1
      (.pointer (Ty.ofData t)) ∧ d' = { d with func := d.func.reserve t hint } := by
  obtain ⟨_, _, hget, hrun⟩ := bind_cases h
  cases hget
  rcases hblocks : d.func.blocks with _ | ⟨entry, blocks⟩
  · simp only [hblocks] at hrun
    cases hrun
  · simp only [hblocks] at hrun
    cases hrun
    refine ⟨by simp, rfl, ?_⟩
    simp only [Func.reserve, hblocks]
    rfl

end Shader.Ir.Emit

namespace Shader.Lowering

open Ir

/-- From states with one property, a walk that succeeds brings results and states with another. -/
def Brings {α : Type} (P : Body → Prop) (act : Lower α) (Q : α → Body → Prop) : Prop :=
  ∀ b a b', P b → act.run b = .ok (.ok a, b') → Q a b'

namespace Brings

variable {α β : Type} {P P' : Body → Prop} {act : Lower α} {Q Q' : α → Body → Prop}

theorem weaken (h : Brings P act Q) (hP : ∀ b, P' b → P b) (hQ : ∀ a b, Q a b → Q' a b) :
    Brings P' act Q' := fun b a b' hb hrun => hQ a b' (h b a b' (hP b hb) hrun)

theorem pure {a : α} (h : ∀ b, P b → Q a b) : Brings P (Pure.pure a) Q := by
  intro b _ _ hb hrun
  cases hrun
  exact h b hb

theorem fail {pos : Pos} {cause : Cause} : Brings P (Lowering.fail pos cause) Q := by
  intro b _ _ _ hrun
  cases hrun

theorem bind {f : α → Lower β} {R : β → Body → Prop} (h : Brings P act Q)
    (hf : ∀ a, Brings (Q a) (f a) R) : Brings P (act >>= f) R := by
  intro b c b'' hb hrun
  obtain ⟨a, b₁, hact, hrest⟩ := bind_succeeds hrun
  exact hf a b₁ c b'' (h b a b₁ hb hact) hrest

theorem discard {R : Unit → Body → Prop} (h : Brings P act fun _ => R ()) :
    Brings P (Functor.discard act) R := bind h fun _ => pure fun _ hb => hb

/-- Another cause for a failure, of which there is none. -/
theorem insteadOf {pos : Pos} {cause : Cause} (h : Brings P act Q) :
    Brings P (Lowering.insteadOf act pos cause) Q := by
  intro b a b' hb hrun
  obtain ⟨_, _, herror⟩ | ⟨a', hact, heq⟩ := insteadOf_cases hrun
  · cases herror
  · cases heq
    exact h b a b' hb hact

theorem check {p : Prop} {_ : Decidable p} {pos : Pos} {cause : Cause} {rest : Unit → Lower α}
    (h : ¬ p → Brings P (rest ()) Q) :
    Brings P (if p then Lowering.fail pos cause >>= rest else rest ()) Q := by
  split
  · exact bind (Q := fun _ _ => False) fail fun _ _ _ _ hfalse => hfalse.elim
  next hp => exact h hp

theorem assuming {p : Prop} (h : p → Brings P act Q) : Brings (fun b => p ∧ P b) act Q :=
  fun b a b' hb hrun => h hb.1 b a b' hb.2 hrun

theorem getThen {f : Body → Lower α} (h : ∀ b, Brings (fun b' => P b' ∧ b' = b) (f b) Q) :
    Brings P (get >>= f) Q :=
  fun b a b' hb hrun => h b b a b' ⟨hb, rfl⟩ hrun

theorem bindName {n : Name} {t : DataType} {R : Unit → Body → Prop}
    (h : ∀ b, P b → R () { b with bound := (n, t) :: b.bound }) :
    Brings P (Lowering.bindName n t) R := by
  intro b _ _ hb hrun
  cases hrun
  exact h b hb

/-- Writing changes the code alone. -/
theorem emit {act : Emit α}
    (h : ∀ b a d, P b → act b.draft = .ok (a, d) → Q a { b with draft := d }) :
    Brings P (Lowering.emit act) Q := by
  intro b a b' hb hrun
  obtain ⟨a', d, hact, heq, rfl⟩ := emit_cases hrun
  cases heq
  exact h b a d hb hact

/-- A walk in a scope of its own. -/
theorem inScope (h : Brings (fun b => ∃ b₀, P b₀ ∧ b = { b₀ with scopes := b₀.scopes.enter }) act
      fun a b => ∀ σ, b.scopes.exit? = some σ → Q a { b with scopes := σ }) :
    Brings P (Lowering.inScope act) Q := by
  intro b a b' hb hrun
  obtain ⟨b₁, σ, hact, hexit, rfl⟩ := inScope_cases hrun
  exact h _ a b₁ ⟨b, hb, rfl⟩ hact σ hexit

/-- What is said of drafts does not depend on the scope. -/
theorem inScope_draft {D : Draft → Prop} {D' : α → Draft → Prop}
    (h : Brings (fun b => D b.draft) act fun a b => D' a b.draft) :
    Brings (fun b => D b.draft) (Lowering.inScope act) fun a b => D' a b.draft := by
  refine .inScope (h.weaken ?_ fun _ _ hb _ _ => hb)
  rintro _ ⟨b, hb, rfl⟩
  exact hb

end Brings

/-! ## Properties of drafts that are kept -/

/-- A walk that succeeds keeps a property of drafts. -/
def Maintains {α : Type} (D : Draft → Prop) (act : Lower α) : Prop :=
  Brings (fun b => D b.draft) act fun _ b => D b.draft

section

variable {D : Draft → Prop}

/-- What instructions keep is shown of walks step by step. -/
theorem stepwise_maintains
    (happend : ∀ {inst d v d'}, D d → Emit.append inst d = .ok (v, d') → D d') :
    Stepwise (Maintains D) where
  pure := .pure fun _ hb => hb
  fail := .fail
  emit hact := .emit fun _ _ _ hb hrun =>
    hact.keeps (R := fun d d' => D d → D d')
      ⟨fun _ => id, fun h₁ h₂ h => h₂ (h₁ h), fun _ hput h => happend h hput⟩ hrun hb
  bind h hf := .bind h hf
  insteadOf h := .insteadOf h

theorem resolving_maintains : Resolving (Maintains D) where
  bindName := .bindName fun _ hb => hb
  resolve := by
    refine .getThen fun b => ?_
    split
    · exact .fail
    · exact .bind (Q := fun _ b => D b.draft) (.bindName fun _ hb => hb.1)
        fun _ => .pure fun _ hb => hb

/-- Where instructions go on is asked for. -/
theorem maintains_openPoint : Maintains D (emit Emit.openPoint) := by
  refine .emit fun b l d hb hrun => ?_
  obtain ⟨-, rfl⟩ := Emit.openPoint_cases hrun
  exact hb

/-- Names may be declared. -/
theorem maintains_declare {n : Name} {t : DataType} {addr : Value} {isConst : Bool} :
    Maintains D (declare n t addr isConst) := by
  intro b _ b' hb hrun
  obtain ⟨σ, -, rfl⟩ := declare_succeeds hrun
  exact hb

end

end Shader.Lowering
