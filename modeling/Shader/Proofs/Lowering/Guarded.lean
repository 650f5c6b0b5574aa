import Shader.Proofs.Lowering.Soundness
import Shader.Proofs.Lowering.Success
import Shader.Proofs.Lowering.Walking

/-!
# Guarded runs

A guarded draft refuses to be written elsewhere than at the end of an open block of its function. So
if every run on guarded drafts comes to the end that it has without a guard, then no run writes
anywhere else: no terminator is replaced, and nothing is written behind one.

That guarded runs meet no fault is known of all runs. `Unhindered` says that what a guard lets pass
is the same without it, which is shown step by step, and every round of lowering inherits it.
-/

namespace Shader.Ir

/-! ## Guarded drafts -/

/-- The point is at the end of a block of the function that has no terminator yet. -/
def Draft.AtOpenBlock (d : Draft) : Prop :=
  ∃ l, d.point = some l ∧ ∃ b ∈ d.func.blocks, b.label = l ∧ b.term = none

/-- The draft without a guard. -/
def Draft.bare (d : Draft) : Draft := { d with guarded := false }

theorem Draft.AtOpenBlock.exists_at {d : Draft} (h : d.AtOpenBlock) (ht : d.func.Tidy) :
    ∃ l b, d.point = some l ∧ d.func.At l b ∧ b.term = none := by
  obtain ⟨l, hl, b, hb, rfl, ho⟩ := h
  exact ⟨b.label, b, hl, ht.at_of_mem hb, ho⟩

namespace Emit

variable {α β : Type} {d d' : Draft}

/-- Without a guard it is enough that there is a point. -/
theorem openPoint_bare {l : Label} (h : d.point = some l) : openPoint d.bare = .ok (l, d.bare) := by
  simp only [openPoint, bind, StateT.bind, get, getThe, MonadStateOf.get, StateT.get, pure,
    Except.pure, Except.bind, Draft.bare, h]
  rfl

/-- A guarded draft lets pass what is written at an open block. -/
theorem atOpenBlock_of_openPoint (hguarded : d.guarded = true) {l : Label}
    (h : openPoint d = .ok (l, d')) : d.AtOpenBlock := by
  obtain ⟨hl, rfl⟩ := openPoint_cases h
  by_cases hopen : d'.isOpen l = true
  · obtain ⟨b, hb, ho⟩ := (Option.any_eq_true _ _).1 hopen
    exact ⟨l, hl, b, List.mem_of_find?_eq_some hb, by simpa using List.find?_some hb,
      Option.isNone_iff_eq_none.1 ho⟩
  · simp only [openPoint, bind, StateT.bind, get, getThe, MonadStateOf.get, StateT.get, pure,
      Except.pure, Except.bind, hl, hguarded, hopen] at h
    cases h

theorem atOpenBlock_of_append (hguarded : d.guarded = true) {inst : Inst} {v : Value}
    (h : append inst d = .ok (v, d')) : d.AtOpenBlock := by
  simp only [append] at h
  rcases hτ : inst.type? with _ | τ
  · rw [hτ] at h
    cases h
  · rw [hτ] at h
    obtain ⟨l, d₁, hpoint, -⟩ := bind_cases h
    exact atOpenBlock_of_openPoint hguarded hpoint

theorem atOpenBlock_of_terminate (hguarded : d.guarded = true) {term : Term}
    (h : terminate term d = .ok ((), d')) : d.AtOpenBlock := by
  obtain ⟨l, d₁, hpoint, -⟩ := bind_cases h
  exact atOpenBlock_of_openPoint hguarded hpoint

/-- What is written if a guard lets it pass is written without the guard. -/
def Unhindered (act : Emit α) : Prop :=
  ∀ d a d', act d = .ok (a, d') → act d.bare = .ok (a, d'.bare)

namespace Unhindered

theorem bind {act : Emit α} {f : α → Emit β} (h : Unhindered act) (hf : ∀ a, Unhindered (f a)) :
    Unhindered (act >>= f) := by
  intro d b d' hrun
  obtain ⟨a, d₁, hact, hrest⟩ := bind_cases hrun
  change Except.bind (act d.bare) _ = _
  rw [h _ _ _ hact]
  exact hf a _ _ _ hrest

theorem openPoint : Unhindered Emit.openPoint := by
  intro d l d' h
  obtain ⟨hl, rfl⟩ := openPoint_cases h
  exact openPoint_bare hl

theorem append {inst : Inst} : Unhindered (Emit.append inst) := by
  intro d v d' h
  obtain ⟨l, τ, hl, hτ, rfl, rfl⟩ := append_cases h
  simp only [Emit.append, hτ]
  change Except.bind (Emit.openPoint d.bare) _ = _
  rw [openPoint_bare hl]
  rfl

theorem terminate {term : Term} : Unhindered (Emit.terminate term) := by
  intro d u d' h
  obtain ⟨l, hl, rfl⟩ := terminate_cases h
  change Except.bind (Emit.openPoint d.bare) _ = _
  rw [openPoint_bare hl]
  rfl

theorem newBlock {hint : String} : Unhindered (Emit.newBlock hint) := by
  intro d l d' h
  obtain ⟨rfl, rfl⟩ := newBlock_cases h
  rfl

theorem alloca {t : DataType} {hint : String} : Unhindered (Emit.alloca t hint) := by
  intro d v d' h
  obtain ⟨⟨id, result, params, blocks, _, _, _, _, _, _⟩, point, guarded⟩ := d
  cases blocks with
  | nil => cases h
  | cons entry blocks =>
    cases h
    rfl

theorem setPoint {p : Option Label} : Unhindered (Emit.setPoint p) := by
  rintro d _ _ ⟨⟩
  rfl

theorem isReachable : Unhindered Emit.isReachable := by
  rintro d _ _ ⟨⟩
  rfl

theorem openBlocks : Unhindered Emit.openBlocks := by
  rintro d _ _ ⟨⟩
  rfl

theorem composed {P : Inst → Prop} {act : Emit α} (h : Composed P act) : Unhindered act := by
  induction h with
  | pure =>
    rintro d _ _ ⟨⟩
    rfl
  | throw =>
    rintro d a d' ⟨⟩
  | append => exact append
  | bind _ _ ih ihf => exact bind ih ihf

end Unhindered

end Emit

end Shader.Ir

namespace Shader.Lowering

open Ir

/-! ## Walks -/

/-- The state of a walk on a draft without a guard. -/
def Body.bare (b : Body) : Body := { b with draft := b.draft.bare }

/-- What a guard lets pass, the walk does without the guard. -/
def Unhindered {α : Type} (act : Lower α) : Prop :=
  ∀ b r b', act.run b = .ok (r, b') → act.run b.bare = .ok (r, b'.bare)

namespace Unhindered

variable {α β : Type}

theorem emit {act : Emit α} (h : Emit.Unhindered act) : Unhindered (Lowering.emit act) := by
  intro b r b' hrun
  obtain ⟨a, d, hact, rfl, rfl⟩ := emit_cases hrun
  change Except.bind (act b.draft.bare) _ = _
  rw [h _ _ _ hact]
  rfl

theorem bind {act : Lower α} {f : α → Lower β} (h : Unhindered act) (hf : ∀ a, Unhindered (f a)) :
    Unhindered (act >>= f) := by
  intro b r b' hrun
  obtain ⟨e, hact, rfl⟩ | ⟨a, b₁, hact, hrest⟩ := bind_cases hrun
  · change Except.bind (act.run b.bare) _ = _
    rw [h _ _ _ hact]
    rfl
  · change Except.bind (act.run b.bare) _ = _
    rw [h _ _ _ hact]
    exact hf a _ _ _ hrest

theorem insteadOf {act : Lower α} {pos : Pos} {cause : Cause} (h : Unhindered act) :
    Unhindered (Lowering.insteadOf act pos cause) := by
  intro b r b' hrun
  obtain ⟨e, hact, rfl⟩ | ⟨a, hact, rfl⟩ := insteadOf_cases hrun <;>
  · change Except.bind (act.run b.bare) _ = _
    rw [h _ _ _ hact]
    rfl

theorem bindName {n : Name} {t : DataType} : Unhindered (Lowering.bindName n t) := by
  rintro b _ _ ⟨⟩
  rfl

theorem resolve {n : Name} : Unhindered (Lowering.resolve n) := by
  intro b r b' hrun
  rw [ExceptT.run, Lowering.resolve, get_bind] at hrun ⊢
  have hsame : b.bare.scopes = b.scopes := rfl
  rw [hsame]
  rcases hlookup : b.scopes.lookup? n.text with _ | sym
  · rw [hlookup] at hrun
    cases hrun
    rfl
  · rw [hlookup] at hrun
    cases hrun
    rfl

theorem declare {n : Name} {t : DataType} {addr : Value} {isConst : Bool} :
    Unhindered (Lowering.declare n t addr isConst) := by
  intro b r b' hrun
  rw [ExceptT.run, Lowering.declare, get_bind] at hrun ⊢
  have hsame : b.bare.scopes = b.scopes := rfl
  rw [hsame]
  rcases hσ : b.scopes.declare ⟨n.text, t, addr, isConst⟩ with earlier | σ
  · rw [hσ] at hrun
    cases hrun
    rfl
  · rw [hσ] at hrun
    cases hrun
    rfl

theorem inScope {act : Lower α} (h : Unhindered act) : Unhindered (Lowering.inScope act) := by
  intro b r b' hrun
  obtain ⟨b₁, σ, hact, hexit, rfl⟩ := inScope_cases hrun
  change Except.bind (act.run (Body.bare { b with scopes := b.scopes.enter })) _ = _
  rw [h _ _ _ hact]
  have hbare : b₁.bare.scopes.exit? = some σ := hexit
  simp only [Except.bind, hbare]
  rfl

end Unhindered

/-- A walk that only writes. -/
theorem unhindered_of_emit {α : Type} {act : Emit α} (h : Unhindered (Lowering.emit act)) :
    Emit.Unhindered act := by
  intro d a d' hact
  have hrun : (Lowering.emit act).run ⟨d, .empty, []⟩ = .ok (.ok a, ⟨d', .empty, []⟩) := by
    change Except.bind (act d) _ = _
    rw [hact]
    rfl
  obtain ⟨_, _, hact', heq, hd⟩ := emit_cases (h _ _ _ hrun)
  cases heq
  rw [(Body.mk.inj hd).1]
  exact hact'

/-- What a guard lets pass, no step of a walk does in another way without it. -/
theorem walking_unhindered : Walking (fun _ => True) Unhindered where
  pure := by
    rintro _ _ b _ _ ⟨⟩
    rfl
  fail := by
    rintro _ _ _ b _ _ ⟨⟩
    rfl
  emit h := .emit (.composed h)
  bind := .bind
  insteadOf := .insteadOf
  bindName := .bindName
  resolve := .resolve
  openPoint := .emit .openPoint
  newBlock _ := .emit .newBlock
  setPoint := .emit .setPoint
  setNone := .emit .setPoint
  br := .emit .terminate
  condBr := .emit .terminate
  isReachable := .emit .isReachable
  openBlocks := .emit .openBlocks
  alloca _ := .emit .alloca
  ret := .emit .terminate
  declare := .declare
  inScope := .inScope

/-! ## Blocks that have been ended -/

/-- A guarded draft of a function stays guarded, and every block that has been ended stays as it is,
except for room that is reserved at the entry. -/
def Seals (d d' : Draft) : Prop :=
  d.guarded = true → d.func.Tidy → d'.guarded = true ∧ d'.func.Tidy ∧ d.func.Le d'.func

/-- No step of writing on a guarded draft changes a block that has been ended. -/
theorem drafting_seals : Drafting (fun _ => True) Seals where
  refl d hguarded ht := ⟨hguarded, ht, .refl _⟩
  trans h₁ h₂ hguarded ht := by
    obtain ⟨hguarded₁, ht₁, hle₁⟩ := h₁ hguarded ht
    obtain ⟨hguarded₂, ht₂, hle₂⟩ := h₂ hguarded₁ ht₁
    exact ⟨hguarded₂, ht₂, hle₁.trans hle₂⟩
  move d p hguarded ht := ⟨hguarded, ht, .refl _⟩
  append h hguarded ht := by
    obtain ⟨k, c, hk, hc, ho⟩ := (Emit.atOpenBlock_of_append hguarded h).exists_at ht
    obtain ⟨l, τ, hl, -, -, rfl⟩ := Emit.append_cases h
    cases hl.symm.trans hk
    exact ⟨hguarded, ht.put, Func.le_put hc ho⟩
  terminate h hguarded ht := by
    obtain ⟨k, c, hk, hc, ho⟩ := (Emit.atOpenBlock_of_terminate hguarded h).exists_at ht
    obtain ⟨l, hl, rfl⟩ := Emit.terminate_cases h
    cases hl.symm.trans hk
    exact ⟨hguarded, ht.close, Func.le_close hc ho⟩
  newBlock _ h hguarded ht := by
    obtain ⟨-, rfl⟩ := Emit.newBlock_cases h
    exact ⟨hguarded, ht.addBlock, Func.le_addBlock⟩
  alloca _ h hguarded ht := by
    obtain ⟨-, -, rfl⟩ := Emit.alloca_cases h
    exact ⟨hguarded, ht.reserve, Func.le_reserve⟩

/-! ## Rounds -/

/-- The options without a guard. -/
def Options.bare (o : Options) : Options := { o with guarded := false }

/-- The state of the round over global variables without a guard. -/
def Globals.bare (g : Globals) : Globals := { g with init := g.init.map Draft.bare }

section

variable {Γ : Signatures} {o : Options} {v : GlobalVar} {g g' : Globals}

theorem initDraft_bare : g.bare.initDraft o.bare = (g.initDraft o).bare := by
  rcases hinit : g.init with _ | d <;> simp [Globals.initDraft, Globals.bare, hinit]
  rfl

theorem walk_bare {α : Type} {act : Lower α} {r : Except Failure α} (hact : Unhindered act)
    (h : g.walk o act = .ok (r, g')) : g.bare.walk o.bare act = .ok (r, g'.bare) := by
  obtain ⟨b, hrun, rfl⟩ := walk_cases h
  change Except.bind (act.run ⟨g.bare.initDraft o.bare, g.scopes, g.bound⟩) _ = _
  have hbare : act.run ⟨(g.initDraft o).bare, g.scopes, g.bound⟩ = .ok (r, b.bare) :=
    hact _ _ _ hrun
  rw [initDraft_bare, hbare]
  rfl

/-- The rounds with and without a guard keep in step. -/
theorem parallel_bare : Parallel Γ o o.bare fun g h => h = g.bare where
  scopes := by
    rintro g _ rfl
    rfl
  globals := by
    rintro g _ rfl
    rfl
  note := by
    rintro g _ rfl n
    rfl
  added := by
    rintro g _ rfl gs
    rfl
  declared := by
    rintro g _ rfl σ
    rfl
  expr := by
    rintro g _ rfl e r g' h
    exact ⟨_, walk_bare walking_unhindered.expr h, rfl⟩
  store := by
    rintro g _ rfl t x addr r g' h
    refine ⟨_, walk_bare ?_ h, rfl⟩
    refine walking_unhindered.bind (stepwise_initialValue walking_unhindered.evaluating) fun _ => ?_
    exact walking_unhindered.emit .store

theorem addGlobals_bare : ∀ {vs : List GlobalVar} {g g' : Globals}
    {problems problems' : List Problem}, addGlobals Γ o g problems vs = .ok (g', problems') →
      addGlobals Γ o.bare g.bare problems vs = .ok (g'.bare, problems')
  | [], _, _, _, _, h => by
    cases h
    rfl
  | v :: vs, g, g', problems, problems', h => by
    by_cases hgo : o.goesOn problems = true
    · have hgo' : o.bare.goesOn problems = true := hgo
      rw [addGlobals_cons hgo] at h
      rw [addGlobals_cons hgo']
      rcases hadd : g.add Γ o v with e | ⟨r, g₁⟩
      · rw [hadd] at h
        cases h
      rw [hadd] at h
      obtain ⟨_, hadd', rfl⟩ := parallel_bare.add rfl hadd
      rw [hadd']
      exact addGlobals_bare h
    · have hgo' : ¬ o.bare.goesOn problems = true := hgo
      rw [addGlobals, if_neg hgo] at h
      rw [addGlobals, if_neg hgo']
      cases h
      rfl

theorem synthesize_bare : g.bare.synthesize o.bare = (g.synthesize o).bare := by
  obtain ⟨-, hdeclare⟩ := (parallel_bare (Γ := fun _ => none) (o := o)).declare (g := g) rfl
    implicitPosition
  unfold Globals.synthesize
  rw [hdeclare, apply_ite Globals.bare]
  rfl

theorem finish_bare (h : g.finish = .ok g') : g.bare.finish = .ok g'.bare := by
  unfold Globals.finish
  obtain ⟨hinit, rfl⟩ | ⟨d, d', hinit, hret, rfl⟩ := finish_cases h
  · rw [Globals.bare, hinit]
    rfl
  · rw [Globals.bare, hinit]
    change Except.bind ((Emit.ret none).run d.bare) _ = _
    have hbare : (Emit.ret none).run d.bare = .ok ((), d'.bare) :=
      Emit.Unhindered.terminate _ _ _ hret
    rw [hbare]
    rfl

theorem lowerBody_bare {c : Context} {f : FuncDecl} {r : Except Failure Unit} {func : Func}
    {bound : List (Name × DataType)} (h : lowerBody o c f = .ok (r, func, bound)) :
    lowerBody o.bare c f = .ok (r, func, bound) := by
  obtain ⟨b, d, hbody, hclose, rfl, rfl⟩ := lowerBody_ends h
  have hwalk : Unhindered (inScope (bodyCode c f)) :=
    .inScope (walking_bodyCode walking_unhindered fun _ _ => trivial)
  have hbody' : (inScope (bodyCode c f)).run
      { draft := startDraft o.bare (declaration f), scopes := c.scopes } = .ok (r, b.bare) :=
    hwalk _ _ _ hbody
  have hclose' : (closeBlocks f.result).run b.draft.bare = .ok ((), d.bare) :=
    unhindered_of_emit (walking_closeBlocks walking_unhindered) _ _ _ hclose
  change Except.bind ((inScope (bodyCode c f)).run _) _ = _
  rw [hbody']
  change Except.bind ((closeBlocks f.result).run b.draft.bare) _ = _
  rw [hclose']
  rfl

theorem lowerBodies_bare {c : Context} : ∀ {fs : List FuncDecl} {out out' : Outcome},
    lowerBodies o c out fs = .ok out' → lowerBodies o.bare c out fs = .ok out'
  | [], _, _, h => h
  | f :: fs, out, out', h => by
    by_cases hgo : o.goesOn out.problems = true
    · have hgo' : o.bare.goesOn out.problems = true := hgo
      rw [lowerBodies_cons hgo] at h
      rw [lowerBodies_cons hgo']
      rcases hbody : lowerBody o c f with e | ⟨r, func, bound⟩
      · rw [hbody] at h
        cases h
      rw [hbody] at h
      rw [lowerBody_bare hbody]
      exact lowerBodies_bare h
    · have hgo' : ¬ o.bare.goesOn out.problems = true := hgo
      rw [lowerBodies, if_neg hgo] at h
      rw [lowerBodies, if_neg hgo']
      exact h

theorem declareFuncs_bare : ∀ {fs declared : List FuncDecl} {problems : List Problem},
    declareFuncs o.bare declared problems fs = declareFuncs o declared problems fs
  | [], _, _ => rfl
  | f :: fs, declared, problems => by
    have hgo : o.bare.goesOn problems = o.goesOn problems := rfl
    rw [declareFuncs, declareFuncs, hgo]
    split
    · split <;> exact declareFuncs_bare
    · rfl

end

/-- What a guard lets pass is lowered to the same module without it. -/
def Rounds.bare {o : Options} {p : Program} {out : Outcome} (r : Rounds o p out) :
    Rounds o.bare p out where
  declared := r.declared
  unsigned := r.unsigned
  signed := declareFuncs_bare.trans r.signed
  globals := r.globals.bare
  problems := r.problems
  added := addGlobals_bare r.added
  final := r.final.bare
  finished := by
    have hgo : o.bare.goesOn r.problems = o.goesOn r.problems := rfl
    have hfinished := r.finished
    rw [hgo]
    split at hfinished
    next h =>
      rw [if_pos h, synthesize_bare]
      exact finish_bare hfinished
    next h =>
      rw [if_neg h, ← Except.ok.inj hfinished]
      rfl
  coded := r.coded
  bodies := by
    have hinit : r.final.bare.init.isSome = r.final.init.isSome := Option.isSome_map
    rw [hinit]
    exact lowerBodies_bare r.bodies
  outcome := by
    have hinit : r.final.bare.init.map Draft.func = r.final.init.map Draft.func := by
      rw [Globals.bare, Option.map_map]
      rfl
    rw [hinit]
    exact r.outcome

/-- Every parsed program, whether it is accepted or not, is lowered in every mode on guarded drafts,
with the same outcome as without a guard. A guarded draft is written only at the end of a block of
its function that has no terminator, so that walks over statements and expressions leave every block
as it is that has been ended before. -/
theorem lower_guarded {s : Source} {p : Program} (hparse : s.parse.program = some p)
    (o : Options) :
    (∃ out, lower { o with guarded := true } p = .ok out ∧
      lower { o with guarded := false } p = .ok out) ∧
    (∀ d d' : Draft, d.guarded = true → ((∃ inst v, Emit.append inst d = .ok (v, d')) ∨
      ∃ term, Emit.terminate term d = .ok ((), d')) → d.AtOpenBlock) ∧
    (∀ Γ want loop st, Frames (fun b b' => Seals b.draft b'.draft) (stmt Γ want loop st)) ∧
    ∀ Γ e, Frames (fun b b' => Seals b.draft b'.draft) (expr Γ e) := by
  refine ⟨?_, ?_, fun Γ want loop st => ?_, fun Γ e => drafting_seals.walking.expr⟩
  · obtain ⟨out, hlower, -⟩ := lower_coded (o := { o with guarded := true })
      (namesFree_of_parse hparse)
    obtain ⟨rounds⟩ := exists_rounds hlower
    exact ⟨out, hlower, rounds.bare.lower_eq⟩
  · rintro d d' hguarded (⟨inst, v, h⟩ | ⟨term, h⟩)
    · exact Emit.atOpenBlock_of_append hguarded h
    · exact Emit.atOpenBlock_of_terminate hguarded h
  · exact walking_stmt drafting_seals.walking fun _ _ => trivial

/-- A program that fails in the second operand of an operator, behind which the function for the
values of global variables is resumed, and in a loop that has been left before. -/
def failsInside : Source where
  bytes := ("int a = 1 && b; int c = 2; int f(int x) " ++
    "{ while (x > 0) { if (x == 3) break; else continue; x -= 1; } return y; }").toUTF8.toList

/-- It has two problems, and is lowered on guarded drafts all the same. -/
theorem lower_guarded_failsInside : ∃ p out, failsInside.parse.program = some p ∧
    lower { guarded := true } p = .ok out ∧ lower {} p = .ok out ∧ out.problems.length = 2 := by
  have hreports : failsInside.scan.reports = [] := scan_reports_eq_nil (by decide +kernel)
  obtain ⟨p, hparse, htest⟩ := exists_parsed (t := fun p =>
    (lower { guarded := true } p).toOption.any fun out => out.problems.length = 2) hreports
    (by decide +kernel)
  obtain ⟨⟨out, hguarded, hbare⟩, -⟩ := lower_guarded hparse {}
  rw [hguarded] at htest
  exact ⟨p, out, hparse, hguarded, hbare, of_decide_eq_true htest⟩

end Shader.Lowering
