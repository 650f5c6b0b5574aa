import Shader.Proofs.Lowering.Rounds

/-!
# Types that have been noted

A walk notes the types of the names that it resolves, and no walk reads them again. `Oblivious`
says so of one walk: from states that differ in what has been noted, it comes to the same result,
the same code and the same declarations. It is shown step by step, and the round over global
variables inherits it.
-/

namespace Shader.Lowering

open Ir

/-! ## Walks -/

section

variable {α β : Type}

/-- Two runs end in the same way, except for the types of names that they have noted. -/
inductive Alike : Except Fault (Except Failure α × Body) →
    Except Fault (Except Failure α × Body) → Prop where
  /-- with the same fault -/
  | fault (e : Fault) : Alike (.error e) (.error e)
  /-- with the same result, and the same code and declarations -/
  | ended (r : Except Failure α) (b : Body) (bound : List (Name × DataType)) :
    Alike (.ok (r, b)) (.ok (r, { b with bound }))

/-- The types of names that have been noted do not matter for the walk. -/
def Oblivious (act : Lower α) : Prop :=
  ∀ (b : Body) (bound : List (Name × DataType)), Alike (act.run b) (act.run { b with bound })

theorem Alike.bind {x y : Except Fault (Except Failure α × Body)}
    {f : Except Failure α × Body → Except Fault (Except Failure β × Body)} (h : Alike x y)
    (hf : ∀ r (b : Body) (bound : List (Name × DataType)),
      Alike (f (r, b)) (f (r, { b with bound }))) :
    Alike (x.bind f) (y.bind f) := by
  cases h with
  | fault e => exact .fault e
  | ended r b bound => exact hf r b bound

theorem oblivious_emit {act : Emit α} : Oblivious (emit act) := by
  intro b bound
  change Alike (Except.bind (act b.draft) _) (Except.bind (act b.draft) _)
  cases act b.draft with
  | error e => exact .fault e
  | ok a => exact .ended _ _ bound

theorem stepwise_oblivious : Stepwise Oblivious where
  pure _ bound := .ended _ _ bound
  fail _ bound := .ended _ _ bound
  emit _ := oblivious_emit
  bind h hf b bound := by
    refine (h b bound).bind fun r b bound => ?_
    cases r with
    | error e => exact .ended _ _ bound
    | ok a => exact hf a b bound
  insteadOf h b bound := by
    refine (h b bound).bind fun r b bound => ?_
    cases r with
    | error e => exact .ended _ _ bound
    | ok a => exact .ended _ _ bound

theorem Oblivious.getThen {f : Body → Lower β}
    (hf : ∀ (b : Body) (bound : List (Name × DataType)), f { b with bound } = f b)
    (h : ∀ b, Oblivious (f b)) : Oblivious (get >>= f) := by
  intro b bound
  change Alike ((f b).run b) ((f { b with bound }).run { b with bound })
  rw [hf b bound]
  exact h b b bound

theorem resolving_oblivious : Resolving Oblivious where
  bindName _ bound := .ended _ _ _
  resolve := by
    refine .getThen (fun b bound => rfl) fun b => ?_
    split
    · exact stepwise_oblivious.fail
    · exact stepwise_oblivious.bind (fun _ bound => .ended _ _ _) fun _ => stepwise_oblivious.pure

theorem branching_oblivious : Branching Oblivious where
  toStepwise := stepwise_oblivious
  fork := oblivious_emit

theorem oblivious_expr {Γ : Signatures} {e : Expr} : Oblivious (expr Γ e) :=
  stepwise_expr stepwise_oblivious resolving_oblivious (.inr branching_oblivious.splitting)

theorem oblivious_initStore {t : DataType} {x : Operand} {addr : Value} : Oblivious (do
    let value ← initialValue t x
    emit (Emit.store value addr)) :=
  stepwise_oblivious.bind (stepwise_initialValue stepwise_oblivious.evaluating) fun _ =>
    oblivious_emit

end

/-! ## Global variables -/

section

variable {Γ : Signatures} {o : Options} {v : GlobalVar}

/-- What a walk does to the global variables does not depend on the types that have been noted. -/
theorem walk_oblivious {α : Type} {act : Lower α} (hact : Oblivious act) {g g' : Globals}
    {r : Except Failure α} (h : g.walk o act = .ok (r, g')) (bound : List (Name × DataType)) :
    ∃ bound', ({ g with bound } : Globals).walk o act = .ok (r, { g' with bound := bound' }) := by
  obtain ⟨b, hrun, rfl⟩ := walk_cases h
  have halike := hact { draft := g.initDraft o, scopes := g.scopes, bound := g.bound } bound
  rw [hrun] at halike
  change ∃ bound', Except.bind (act.run { draft := g.initDraft o, scopes := g.scopes, bound }) _ = _
  generalize act.run { draft := g.initDraft o, scopes := g.scopes, bound } = run at halike
  cases halike with
  | ended _ _ bound' => exact ⟨bound', rfl⟩

/-- Rounds that differ in the types that have been noted keep in step. -/
theorem parallel_oblivious : Parallel Γ o o fun g h => ∃ bound, h = { g with bound } where
  scopes := by
    rintro g _ ⟨bound, rfl⟩
    rfl
  globals := by
    rintro g _ ⟨bound, rfl⟩
    rfl
  note := by
    rintro g _ ⟨bound, rfl⟩ n
    exact ⟨n :: bound, rfl⟩
  added := by
    rintro g _ ⟨bound, rfl⟩ gs
    exact ⟨bound, rfl⟩
  declared := by
    rintro g _ ⟨bound, rfl⟩ σ
    exact ⟨bound, rfl⟩
  expr := by
    rintro g _ ⟨bound, rfl⟩ e r g' h
    obtain ⟨bound', hwalk⟩ := walk_oblivious oblivious_expr h bound
    exact ⟨_, hwalk, bound', rfl⟩
  store := by
    rintro g _ ⟨bound, rfl⟩ t x addr r g' h
    obtain ⟨bound', hwalk⟩ := walk_oblivious oblivious_initStore h bound
    exact ⟨_, hwalk, bound', rfl⟩

theorem declare_oblivious (g : Globals) (v : GlobalVar) (bound : List (Name × DataType)) :
    ∃ bound', ({ g with bound } : Globals).declare v =
      ((g.declare v).1, { (g.declare v).2 with bound := bound' }) := by
  obtain ⟨hresult, bound', hdeclare⟩ :=
    (parallel_oblivious (Γ := fun _ => none) (o := {})).declare (g := g) ⟨bound, rfl⟩ v
  exact ⟨bound', Prod.ext hresult hdeclare⟩

theorem add_oblivious {g g' : Globals} {r : Except Failure Unit} (h : g.add Γ o v = .ok (r, g'))
    (bound : List (Name × DataType)) :
    ∃ bound', ({ g with bound } : Globals).add Γ o v = .ok (r, { g' with bound := bound' }) := by
  obtain ⟨_, hadd, bound', rfl⟩ := parallel_oblivious.add ⟨bound, rfl⟩ h
  exact ⟨bound', hadd⟩

/-! ## The round -/

theorem owner_of_mem_noted {α : Type} {owner : Owner} {r : Except Failure α} {e : Problem}
    (h : e ∈ noted owner r) : e.owner = owner := by
  cases r with
  | error failure =>
    rw [List.mem_singleton.1 h]
  | ok _ => cases h

theorem addGlobals_oblivious (hlenient : o.strict = false) {vs : List GlobalVar} :
    ∀ {g g' : Globals} {problems problems' : List Problem} (base : List Problem)
      (bound : List (Name × DataType)), addGlobals Γ o g problems vs = .ok (g', problems') →
      ∃ found bound', problems' = problems ++ found ∧
        (∀ e ∈ found, ∃ name, e.owner = .global name) ∧
        addGlobals Γ o { g with bound } base vs =
          .ok ({ g' with bound := bound' }, base ++ found) := by
  have hgo : ∀ problems, o.goesOn problems = true := by simp [Options.goesOn, hlenient]
  induction vs with
  | nil =>
    intro g g' problems problems' base bound h
    obtain ⟨rfl, rfl⟩ := Prod.mk.inj (Except.ok.inj h)
    refine ⟨[], bound, (List.append_nil _).symm, List.forall_mem_nil _, ?_⟩
    rw [List.append_nil]
    rfl
  | cons v vs ih =>
    intro g g' problems problems' base bound h
    rw [addGlobals_cons (hgo _)] at h ⊢
    rcases hadd : g.add Γ o v with e | ⟨r, g₁⟩
    · rw [hadd] at h
      cases h
    rw [hadd] at h
    obtain ⟨bound₁, hadd'⟩ := add_oblivious hadd bound
    rw [hadd']
    obtain ⟨found, bound', rfl, howner, hrun⟩ :=
      ih (base ++ noted (.global v.var.name.text) r) bound₁ h
    refine ⟨noted (.global v.var.name.text) r ++ found, bound', by simp, ?_, ?_⟩
    · intro e he
      rcases List.mem_append.1 he with he | he
      · exact ⟨v.var.name.text, owner_of_mem_noted he⟩
      · exact howner e he
    · rw [← List.append_assoc]
      exact hrun

/-- The end of the function that computes the values of global variables. -/
theorem finish_oblivious {g g' : Globals} (h : (g.synthesize o).finish = .ok g')
    (bound : List (Name × DataType)) :
    (({ g with bound } : Globals).synthesize o).finish = .ok { g' with bound } := by
  have hsynthesize : ({ g with bound } : Globals).synthesize o = { g.synthesize o with bound } := by
    obtain ⟨bound', hdeclare⟩ := declare_oblivious g implicitPosition bound
    unfold Globals.synthesize
    rw [hdeclare]
    dsimp only
    split <;> rfl
  rw [hsynthesize]
  unfold Globals.finish at h ⊢
  dsimp only
  split at h
  next hinit =>
    cases h
    rfl
  next d hinit =>
    change Except.bind ((Emit.ret none).run d) _ = _ at h
    change Except.bind ((Emit.ret none).run d) _ = _
    rcases hret : (Emit.ret none).run d with e | ⟨_, d'⟩
    · rw [hret] at h
      cases h
    · rw [hret] at h
      cases h
      rfl

end

end Shader.Lowering
