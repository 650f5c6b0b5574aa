import Shader.Proofs.Lowering.ExprTypes

/-!
# Parts of the lowering of a program

Lowering walks over the values of global variables and over the bodies of functions, and these walks
consist of others. `Within` says of a walk from a state that it is a part of another one, and
`Rounds.Reaches` that it is a part of lowering a program.

Notes are only added. So the notes at the end of a part are among those at the end of the program,
which is what `type?_expr` asks of the walk over an expression.
-/

namespace Shader.Lowering

open Ir

/-! ## Parts of walks -/

/-- A walk from a state is a part of another one. -/
inductive Within {α : Type} (part : Lower α) (b : Body) : {β : Type} → Lower β → Body → Prop where
  /-- it is all of it -/
  | self : Within part b part b
  /-- it is a part of the first of two walks, the second of which notes types of names -/
  | first {β γ : Type} {act : Lower β} {f : β → Lower γ} {b₀ : Body} (h : Within part b act b₀)
      (hf : ∀ a, ∃ as, Records as (f a)) : Within part b (act >>= f) b₀
  /-- it is a part of the second of two walks -/
  | later {β γ : Type} {act : Lower β} {f : β → Lower γ} {b₀ b₁ : Body} {a : β}
      (hact : act.run b₀ = .ok (.ok a, b₁)) (h : Within part b (f a) b₁) :
      Within part b (act >>= f) b₀
  /-- it is a part of a walk in a scope of its own -/
  | scope {β : Type} {act : Lower β} {b₀ : Body}
      (h : Within part b act { b₀ with scopes := b₀.scopes.enter }) :
      Within part b (inScope act) b₀

/-- What a part of a walk has noted is still noted at the end of the walk. -/
theorem Within.suffix {α β : Type} {part : Lower α} {act : Lower β} {b b' b₀ : Body}
    {r : Except Failure α} (h : Within part b act b₀) (hpart : part.run b = .ok (r, b')) :
    ∀ r₀ b₁, act.run b₀ = .ok (r₀, b₁) → b'.bound <:+ b₁.bound := by
  induction h with
  | self =>
    intro r₀ b₁ hrun
    cases hpart.symm.trans hrun
    exact List.suffix_rfl
  | first _ hf ih =>
    intro r₀ b₁ hrun
    obtain ⟨e, hact, -⟩ | ⟨a, b₂, hact, hrest⟩ := bind_cases hrun
    · exact ih _ _ hact
    · obtain ⟨as, hrecords⟩ := hf a
      obtain ⟨notes, hnotes, -⟩ := hrecords b₂ r₀ b₁ hrest
      exact (ih _ _ hact).trans ⟨notes, hnotes.bound.symm⟩
  | later hact _ ih =>
    intro r₀ b₁ hrun
    obtain ⟨e, hact', -⟩ | ⟨a, b₂, hact', hrest⟩ := bind_cases hrun
    · cases hact.symm.trans hact'
    · cases hact.symm.trans hact'
      exact ih _ _ hrest
  | scope _ ih =>
    intro r₀ b₁ hrun
    obtain ⟨b₂, σ, hact, -, rfl⟩ := inScope_cases hrun
    exact ih _ b₂ hact

/-- A statement that is got to is walked over as a part of the statements among which it stands. -/
theorem Within.of_stmt {α : Type} {part : Lower α} {b b₁ : Body} {Γ : Signatures} {want : DataType}
    {loop : Option Loop} {s : Stmt} {rest : List Stmt} (hopen : b₁.draft.point.isSome = true)
    (h : Within part b (stmt Γ want loop s) b₁) : ∀ {done : List Stmt} {b₀ : Body},
      (stmts Γ want loop done).run b₀ = .ok (.ok (), b₁) →
      Within part b (stmts Γ want loop (done ++ s :: rest)) b₀
  | [], b₀, hrun => by
    unfold stmts at hrun
    cases hrun
    rw [List.nil_append, stmts]
    have hhere : (emit Emit.isReachable).run b₁ = .ok (.ok true, b₁) := by
      change Except.ok (Except.ok b₁.draft.point.isSome, b₁) = _
      rw [hopen]
    exact .later hhere (h.first fun _ => ⟨_, records_stmts rest⟩)
  | t :: done, b₀, hrun => by
    rw [stmts] at hrun
    rw [List.cons_append, stmts]
    obtain ⟨here, b₂, hhere, hrun⟩ := bind_succeeds hrun
    refine .later hhere ?_
    cases hhere
    by_cases hpoint : b₀.draft.point.isSome = true
    · rw [if_pos hpoint] at hrun ⊢
      obtain ⟨_, b₂, ht, hdone⟩ := bind_succeeds hrun
      exact .later ht (h.of_stmt hopen hdone)
    · rw [if_neg hpoint] at hrun
      cases hrun
      exact absurd hopen hpoint

/-! ## Parts of programs -/

section

variable {Γ : Signatures} {o : Options} {g g' : Globals} {v : GlobalVar}

/-- The value of a variable that is added is walked over, and the notes of that walk are kept. -/
theorem suffix_add {r : Except Failure Unit} {x : Expr} (hbad : badGlobal? v = none)
    (hinit : v.var.init = some x) (h : g.add Γ o v = .ok (r, g')) :
    ∃ r₁ b, (expr Γ x).run (g.body o) = .ok (r₁, b) ∧ b.bound <:+ g'.bound := by
  have hdeclared : ∀ {r₁ : Except Failure Operand} {g₁ : Globals},
      g.walk o (expr Γ x) = .ok (r₁, g₁) → ∃ b, (expr Γ x).run (g.body o) = .ok (r₁, b) ∧
        b.bound <:+ (g₁.declare v).2.bound := by
    intro r₁ g₁ hwalk
    obtain ⟨notes, hnotes⟩ := notes_declare (g := g₁) (o := o) (ne_void_of_badGlobal? hbad)
    obtain ⟨b, hrun, rfl⟩ := walk_cases hwalk
    exact ⟨b, hrun, notes, hnotes.bound.symm⟩
  cases adds_of_add h with
  | bad hbad' => cases hbad.symm.trans hbad'
  | repeated _ hrepeated => simp [Globals.isRepeated, hinit] at hrepeated
  | plain _ hinit' => cases hinit.symm.trans hinit'
  | failed _ hinit' hwalk =>
    cases hinit.symm.trans hinit'
    obtain ⟨b, hrun, hkept⟩ := hdeclared hwalk
    exact ⟨_, b, hrun, hkept⟩
  | valued _ hinit' hwalk _ hstore =>
    cases hinit.symm.trans hinit'
    obtain ⟨b, hrun, hkept⟩ := hdeclared hwalk
    have hquiet : g'.bound = _ := (frames_walk (frames_initStore framing_quiet) hstore).bound
    exact ⟨_, b, hrun, hquiet ▸ hkept⟩

theorem suffix_addGlobals {vs : List GlobalVar} {problems problems' : List Problem}
    (h : addGlobals Γ o g problems vs = .ok (g', problems')) : g.bound <:+ g'.bound := by
  obtain ⟨notes, hnotes⟩ := notes_addGlobals h
  exact ⟨notes, hnotes.bound.symm⟩

end

namespace Rounds

variable {o : Options} {p : Program} {out : Outcome} (r : Rounds o p out)

/-- A walk from a state is a part of lowering a program. -/
inductive Reaches {α : Type} (act : Lower α) (b : Body) : Prop where
  /-- it is a part of the walk over the value of a global variable -/
  | value {done rest : List GlobalVar} {v : GlobalVar} {x : Expr} {g : Globals}
      {problems : List Problem} (hvars : globalVars p = done ++ v :: rest)
      (hdone : addGlobals (signatures r.declared) o
        { bound := r.declared.map fun f => (f.name, f.result) } r.unsigned done =
          .ok (g, problems))
      (hgo : o.goesOn problems = true) (hbad : badGlobal? v = none) (hinit : v.var.init = some x)
      (h : Within act b (expr (signatures r.declared) x) (g.body o))
  /-- it is a part of the walk over the body of a function -/
  | body {done rest : List FuncDecl} {f : FuncDecl} {coded : Outcome}
      (hfuncs : r.declared = done ++ f :: rest)
      (hdone : lowerBodies o r.context (.ofGlobals r.final r.problems) done = .ok coded)
      (hgo : o.goesOn coded.problems = true)
      (h : Within act b (inScope (bodyCode r.context f))
        { draft := startDraft o (declaration f), scopes := r.context.scopes })

/-- The notes at the end of a walk that is a part of lowering a program are among the notes of the
program. -/
theorem Reaches.infix_bound {α : Type} {act : Lower α} {b b' : Body} {res : Except Failure α}
    (h : r.Reaches act b) (hrun : act.run b = .ok (res, b')) : b'.bound <:+: out.bound := by
  cases h with
  | @value _ _ v _ g _ hvars hdone hgo hbad hinit h =>
    have hadded := r.added
    rw [hvars, addGlobals_append hdone, addGlobals_cons hgo] at hadded
    rcases hadd : g.add (signatures r.declared) o v with e | ⟨r₁, g₁⟩
    · rw [hadd] at hadded
      cases hadded
    rw [hadd] at hadded
    obtain ⟨r₀, b₁, hwalk, hkept⟩ := suffix_add hbad hinit hadd
    have hglobals : b'.bound <:+ r.globals.bound :=
      ((h.suffix hrun _ _ hwalk).trans hkept).trans (suffix_addGlobals hadded)
    exact (hglobals.trans r.bound_grow).isInfix
  | @body _ _ f coded hfuncs hdone hgo h =>
    have hbodies : lowerBodies o r.context (.ofGlobals r.final r.problems) r.declared =
        .ok r.coded := r.bodies
    rw [hfuncs, lowerBodies_append hgo hdone, lowerBodies_cons hgo] at hbodies
    rcases hbody : lowerBody o r.context f with e | ⟨r₁, func, bound⟩
    · rw [hbody] at hbodies
      cases hbodies
    rw [hbody] at hbodies
    obtain ⟨b₁, d, hwalk, -, -, rfl⟩ := lowerBody_ends hbody
    rw [r.bound_eq]
    -- what the body notes stands in front of what has been noted before it
    have hnoted := (h.suffix hrun _ _ hwalk).isInfix.trans
      (List.prefix_append _ coded.bound).isInfix
    exact hnoted.trans (lowerBodies_frame hbodies).2.2.2.isInfix

end Rounds

end Shader.Lowering
