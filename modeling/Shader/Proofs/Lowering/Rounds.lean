import Shader.Proofs.Lowering.Frames

/-!
# The rounds of lowering

A program that is lowered without a fault has gone through its rounds. `Adds` says in which ways a
global variable can have been declared, `addGlobals_induction` carries what every declaration keeps
over the whole round, and `Rounds` has the states between the rounds.
-/

namespace Shader.Lowering

open Ir

/-- The problems that a result makes. -/
def noted {α : Type} (owner : Owner) : Except Failure α → List Problem
  | .error failure => [⟨owner, failure⟩]
  | .ok _ => []

theorem length_noted {α : Type} {owner : Owner} (r : Except Failure α) :
    (noted owner r).length ≤ 1 := by
  cases r <;> simp [noted]

section

variable {Γ : Signatures} {o : Options}

/-! ## Global variables -/

/-- The entry of a variable behind those that have been added. -/
def Globals.entry (g : Globals) (v : GlobalVar) : Global :=
  ⟨nextGlobal g.globals v.var.name.text, v.var.type, v.storage, v.layout⟩

/-- What the name of a variable stands for. -/
def Globals.symbol (g : Globals) (v : GlobalVar) : Symbol DataType Value :=
  ⟨v.var.name.text, v.var.type, (g.entry v).addr, v.var.isConst⟩

/-- A variable is added, and its name declared unless it is in scope already. -/
theorem Globals.declare_cases (g : Globals) (v : GlobalVar) :
    (∃ earlier, g.scopes.declare (g.symbol v) = .error earlier ∧
      g.declare v = (.error ⟨v.var.name.pos, .redeclared v.var.name.text⟩,
        { g with globals := g.globals ++ [g.entry v] })) ∨
    ∃ σ, g.scopes.declare (g.symbol v) = .ok σ ∧
      g.declare v = (.ok (g.entry v).addr, { g with
        globals := g.globals ++ [g.entry v], scopes := σ
        bound := (v.var.name, v.var.type) :: g.bound }) := by
  rcases hdeclare : g.scopes.declare (g.symbol v) with earlier | σ
  · refine .inl ⟨earlier, rfl, ?_⟩
    simp only [symbol, entry] at hdeclare
    simp only [declare, entry, hdeclare]
  · refine .inr ⟨σ, rfl, ?_⟩
    simp only [symbol, entry] at hdeclare
    simp only [declare, entry, hdeclare]

theorem globals_declare (g : Globals) (v : GlobalVar) :
    (g.declare v).2.globals = g.globals ++ [g.entry v] := by
  obtain ⟨earlier, -, heq⟩ | ⟨σ, -, heq⟩ := g.declare_cases v <;> rw [heq]

/-- A variable whose name is declared. -/
theorem Globals.declare_eq_of_ok {g : Globals} {v : GlobalVar} {addr : Value}
    (hok : (g.declare v).1 = .ok addr) : addr = (g.entry v).addr ∧
      ∃ σ, g.scopes.declare (g.symbol v) = .ok σ ∧ (g.declare v).2 = { g with
        globals := g.globals ++ [g.entry v], scopes := σ
        bound := (v.var.name, v.var.type) :: g.bound } := by
  obtain ⟨earlier, -, heq⟩ | ⟨σ, hσ, heq⟩ := g.declare_cases v
  · rw [heq] at hok
    cases hok
  · rw [heq] at hok
    rw [heq]
    exact ⟨(Except.ok.inj hok).symm, σ, hσ, rfl⟩

/-- The ways in which a global variable is declared. -/
inductive Adds (Γ : Signatures) (o : Options) (v : GlobalVar) (g : Globals) :
    Except Failure Unit → Globals → Prop where
  /-- it fails at once -/
  | bad {failure : Failure} (hbad : badGlobal? v = some failure) : Adds Γ o v g (.error failure) g
  /-- it declares the implicit output again -/
  | repeated (hbad : badGlobal? v = none) (hrepeated : g.isRepeated v = true) :
    Adds Γ o v g (.ok ()) { g with bound := (v.var.name, v.var.type) :: g.bound }
  /-- it has no value to compute -/
  | plain (hbad : badGlobal? v = none) (hinit : v.var.init = none) :
    Adds Γ o v g ((g.declare v).1.map fun _ => ()) (g.declare v).2
  /-- its value or its name fails -/
  | failed {x : Expr} {operand : Except Failure Operand} {g₁ : Globals} {failure : Failure}
      (hbad : badGlobal? v = none) (hinit : v.var.init = some x)
      (hwalk : g.walk o (expr Γ x) = .ok (operand, g₁))
      (hfail : (g₁.declare v).1 = .error failure ∨ operand = .error failure) :
    Adds Γ o v g (.error failure) (g₁.declare v).2
  /-- its value is kept -/
  | valued {x : Expr} {operand : Operand} {addr : Value} {g₁ g₂ : Globals}
      {r : Except Failure Unit} (hbad : badGlobal? v = none) (hinit : v.var.init = some x)
      (hwalk : g.walk o (expr Γ x) = .ok (.ok operand, g₁))
      (hdeclare : (g₁.declare v).1 = .ok addr)
      (hstore : (g₁.declare v).2.walk o (do
        let value ← initialValue v.var.type operand
        emit (Emit.store value addr)) = .ok (r, g₂)) :
    Adds Γ o v g r g₂

theorem adds_of_add {v : GlobalVar} {g g' : Globals} {r : Except Failure Unit}
    (h : g.add Γ o v = .ok (r, g')) : Adds Γ o v g r g' := by
  unfold Globals.add at h
  dsimp only at h
  split at h
  next failure hbad =>
    cases h
    exact .bad hbad
  next hbad =>
    split at h
    next hrepeated =>
      cases h
      exact .repeated hbad hrepeated
    next =>
      split at h
      next hinit =>
        cases h
        exact .plain hbad hinit
      next x hinit =>
        rcases hwalk : g.walk o (expr Γ x) with e | ⟨operand, g₁⟩
        · rw [hwalk] at h
          cases h
        rw [hwalk] at h
        dsimp only [bind, Except.bind] at h
        split at h
        next failure g₂ heq =>
          cases h
          have hg₂ : (g₁.declare v).2 = g' := congrArg Prod.snd heq
          exact hg₂ ▸ .failed hbad hinit hwalk (.inl (congrArg Prod.fst heq))
        next addr g₂ failure heq =>
          cases h
          have hg₂ : (g₁.declare v).2 = g' := congrArg Prod.snd heq
          exact hg₂ ▸ .failed hbad hinit hwalk (.inr rfl)
        next addr g₂ operand heq =>
          have hg₂ : (g₁.declare v).2 = g₂ := congrArg Prod.snd heq
          exact .valued hbad hinit hwalk (congrArg Prod.fst heq) (hg₂ ▸ h)

/-- A walk in the function that computes the values of global variables. -/
theorem walk_cases {α : Type} {act : Lower α} {g g' : Globals} {r : Except Failure α}
    (h : g.walk o act = .ok (r, g')) :
    ∃ b, act.run { draft := g.initDraft o, scopes := g.scopes, bound := g.bound } = .ok (r, b) ∧
      g' = { g with init := some b.draft, scopes := b.scopes, bound := b.bound } := by
  change Except.bind (act.run _) _ = _ at h
  rcases hrun : act.run { draft := g.initDraft o, scopes := g.scopes, bound := g.bound } with
    e | ⟨r', b⟩
  · rw [hrun] at h
    cases h
  · rw [hrun] at h
    cases h
    exact ⟨b, rfl, rfl⟩

/-- A walk changes no global variable. -/
theorem globals_walk {α : Type} {act : Lower α} {g g' : Globals} {r : Except Failure α}
    (h : g.walk o act = .ok (r, g')) : g'.globals = g.globals := by
  obtain ⟨b, -, rfl⟩ := walk_cases h
  rfl

/-- What holds between the states before and after a walk holds in the round. -/
theorem frames_walk {α : Type} {R : Body → Body → Prop} {act : Lower α} {g g' : Globals}
    {r : Except Failure α} (hact : Frames R act) (h : g.walk o act = .ok (r, g')) :
    R ⟨g.initDraft o, g.scopes, g.bound⟩ ⟨g'.initDraft o, g'.scopes, g'.bound⟩ := by
  obtain ⟨b, hrun, rfl⟩ := walk_cases h
  exact hact _ _ _ hrun

theorem frames_initStore {R : Body → Body → Prop} (hR : Framing R) {t : DataType} {x : Operand}
    {addr : Value} : Frames R (do
      let value ← initialValue t x
      emit (Emit.store value addr)) :=
  .bind hR (stepwise_initialValue hR.stepwise.evaluating) fun _ => .emit hR .store

/-! ### Rounds side by side -/

/-- A relation between the states of two rounds over global variables that keep in step. -/
structure Parallel (Γ : Signatures) (o o' : Options) (S : Globals → Globals → Prop) : Prop where
  /-- the same names are in scope -/
  scopes : ∀ {g h}, S g h → h.scopes = g.scopes
  /-- and the same variables have been added -/
  globals : ∀ {g h}, S g h → h.globals = g.globals
  /-- a type of a name may be noted in both -/
  note : ∀ {g h}, S g h → ∀ n : Name × DataType,
    S { g with bound := n :: g.bound } { h with bound := n :: h.bound }
  /-- variables may be added to both -/
  added : ∀ {g h}, S g h → ∀ gs, S { g with globals := gs } { h with globals := gs }
  /-- and names declared -/
  declared : ∀ {g h}, S g h → ∀ σ, S { g with scopes := σ } { h with scopes := σ }
  /-- first values are resolved alike -/
  expr : ∀ {g h}, S g h → ∀ {e r g'}, g.walk o (expr Γ e) = .ok (r, g') →
    ∃ h', h.walk o' (Lowering.expr Γ e) = .ok (r, h') ∧ S g' h'
  /-- and kept alike -/
  store : ∀ {g h}, S g h → ∀ {t x addr r g'}, g.walk o (do
      let value ← initialValue t x
      emit (Emit.store value addr)) = .ok (r, g') → ∃ h', h.walk o' (do
        let value ← initialValue t x
        emit (Emit.store value addr)) = .ok (r, h') ∧ S g' h'

namespace Parallel

variable {o' : Options} {S : Globals → Globals → Prop} (hS : Parallel Γ o o' S) {g g' h : Globals}
include hS

theorem declare (hgh : S g h) (v : GlobalVar) :
    (h.declare v).1 = (g.declare v).1 ∧ S (g.declare v).2 (h.declare v).2 := by
  have hentry : h.entry v = g.entry v := by rw [Globals.entry, Globals.entry, hS.globals hgh]
  have hsymbol : h.symbol v = g.symbol v := by rw [Globals.symbol, Globals.symbol, hentry]
  have hadded := hS.added hgh (g.globals ++ [g.entry v])
  obtain ⟨earlier, hdeclare, heq⟩ | ⟨σ, hdeclare, heq⟩ := g.declare_cases v <;>
  obtain ⟨earlier', hdeclare', heq'⟩ | ⟨σ', hdeclare', heq'⟩ := h.declare_cases v <;>
  rw [hsymbol, hS.scopes hgh, hdeclare] at hdeclare' <;> cases hdeclare' <;>
  rw [heq, heq', hentry, hS.globals hgh]
  · exact ⟨rfl, hadded⟩
  · exact ⟨rfl, hS.note (hS.declared hadded σ) (v.var.name, v.var.type)⟩

theorem add (hgh : S g h) {v : GlobalVar} {r : Except Failure Unit}
    (hadd : g.add Γ o v = .ok (r, g')) : ∃ h', h.add Γ o' v = .ok (r, h') ∧ S g' h' := by
  have hrepeated : h.isRepeated v = g.isRepeated v := by
    rw [Globals.isRepeated, Globals.isRepeated, hS.scopes hgh]
  unfold Globals.add at hadd ⊢
  dsimp only at hadd ⊢
  rw [hrepeated]
  split at hadd
  next failure hbad =>
    cases hadd
    exact ⟨h, rfl, hgh⟩
  next hbad =>
    split at hadd
    next hagain =>
      cases hadd
      rw [if_pos hagain]
      exact ⟨_, rfl, hS.note hgh _⟩
    next hagain =>
      rw [if_neg hagain]
      split at hadd
      next hinit =>
        cases hadd
        obtain ⟨hresult, hdeclare⟩ := hS.declare hgh v
        exact ⟨_, by rw [← hresult]; rfl, hdeclare⟩
      next x hinit =>
        rcases hwalk : g.walk o (Lowering.expr Γ x) with e | ⟨operand, g₁⟩
        · rw [hwalk] at hadd
          cases hadd
        rw [hwalk] at hadd
        obtain ⟨h₁, hwalk', hgh₁⟩ := hS.expr hgh hwalk
        obtain ⟨hresult, hdeclare⟩ := hS.declare hgh₁ v
        rw [hwalk']
        dsimp only [bind, Except.bind] at hadd ⊢
        generalize g₁.declare v = declared at hadd hresult hdeclare
        generalize h₁.declare v = declared' at hresult hdeclare
        obtain ⟨failure | addr, g₂⟩ := declared <;> obtain ⟨_, h₂⟩ := declared' <;> cases hresult
        · cases hadd
          exact ⟨h₂, rfl, hdeclare⟩
        · cases operand with
          | error failure =>
            cases hadd
            exact ⟨h₂, rfl, hdeclare⟩
          | ok operand => exact hS.store hdeclare hadd

end Parallel

/-! ### The round -/

theorem addGlobals_cons {g : Globals} {problems : List Problem} {v : GlobalVar}
    {vs : List GlobalVar} (hgo : o.goesOn problems = true) :
    addGlobals Γ o g problems (v :: vs) = (g.add Γ o v).bind fun out =>
      addGlobals Γ o out.2 (problems ++ noted (.global v.var.name.text) out.1) vs := by
  rw [addGlobals, if_pos hgo]
  rcases g.add Γ o v with e | ⟨r, g'⟩
  · rfl
  cases r with
  | error failure => rfl
  | ok _ => simp [noted, bind, Except.bind]

/-- The round over the first variables, and then over the others. -/
theorem addGlobals_append {vs : List GlobalVar} {problems' : List Problem} :
    ∀ {done : List GlobalVar} {g : Globals} {problems : List Problem},
      addGlobals Γ o g problems done = .ok (g', problems') →
      addGlobals Γ o g problems (done ++ vs) = addGlobals Γ o g' problems' vs
  | [], _, _, h => by
    cases h
    rfl
  | v :: done, g, problems, h => by
    by_cases hgo : o.goesOn problems = true
    · rw [addGlobals_cons hgo] at h
      rw [List.cons_append, addGlobals_cons hgo]
      rcases hadd : g.add Γ o v with e | ⟨r, g₁⟩
      · rw [hadd] at h
        cases h
      · rw [hadd] at h
        exact addGlobals_append h
    · rw [addGlobals, if_neg hgo] at h
      cases h
      rw [List.cons_append, addGlobals, if_neg hgo]
      cases vs with
      | nil => rfl
      | cons => rw [addGlobals, if_neg hgo]

/-- What holds before the round over global variables and is kept by each of them holds afterwards,
of those that have been declared by then: all of them, unless problems ended the round. -/
theorem addGlobals_induction {P : List GlobalVar → Globals → List Problem → Prop}
    (hstep : ∀ done v g g' problems r, P done g problems → g.add Γ o v = .ok (r, g') →
      P (done ++ [v]) g' (problems ++ noted (.global v.var.name.text) r)) :
    ∀ {vs : List GlobalVar} (done : List GlobalVar) {g g' : Globals}
      {problems problems' : List Problem}, P done g problems →
      addGlobals Γ o g problems vs = .ok (g', problems') →
      ∃ more, more <+: vs ∧ P (done ++ more) g' problems' ∧
        (o.goesOn problems' = true → more = vs)
  | [], done, _, _, _, _, h, hrun => by
    cases hrun
    exact ⟨[], List.prefix_rfl, by rwa [List.append_nil], fun _ => rfl⟩
  | v :: vs, done, g, g', problems, problems', h, hrun => by
    by_cases hgo : o.goesOn problems = true
    · rw [addGlobals_cons hgo] at hrun
      rcases hadd : g.add Γ o v with e | ⟨r, g₁⟩
      · rw [hadd] at hrun
        cases hrun
      rw [hadd] at hrun
      have h₁ := hstep done v g g₁ problems r h hadd
      obtain ⟨more, hmore, h', hall⟩ := addGlobals_induction hstep (done ++ [v]) h₁ hrun
      refine ⟨v :: more, (List.prefix_cons_inj v).2 hmore, ?_, fun hgo => by rw [hall hgo]⟩
      rwa [List.append_assoc, List.singleton_append] at h'
    · rw [addGlobals, if_neg hgo] at hrun
      cases hrun
      exact ⟨[], List.nil_prefix, by rwa [List.append_nil], fun h' => absurd h' hgo⟩

/-- What is kept by every variable that does not fail holds of all variables if none of them
fails. -/
theorem addGlobals_induction_ok {P : List GlobalVar → Globals → Prop}
    (hstep : ∀ done v g g', P done g → g.add Γ o v = .ok (.ok (), g') → P (done ++ [v]) g')
    {vs : List GlobalVar} {g g' : Globals} {problems : List Problem} (h : P [] g)
    (hrun : addGlobals Γ o g problems vs = .ok (g', [])) : P vs g' := by
  have hstep' : ∀ (done : List GlobalVar) (v : GlobalVar) (g g' : Globals) problems r,
      (problems = [] → P done g) → g.add Γ o v = .ok (r, g') →
      problems ++ noted (.global v.var.name.text) r = [] → P (done ++ [v]) g' := by
    intro done v g g' problems r hdone hadd hnil
    obtain ⟨rfl, hnoted⟩ := List.append_eq_nil_iff.1 hnil
    cases r with
    | error failure => cases hnoted
    | ok _ => exact hstep done v g g' (hdone rfl) hadd
  obtain ⟨more, -, hall, hmore⟩ := addGlobals_induction
    (P := fun done g problems => problems = [] → P done g) hstep' [] (fun _ => h) hrun
  rw [hmore (by simp [Options.goesOn]), List.nil_append] at hall
  exact hall rfl

/-- Problems are only added. -/
theorem addGlobals_grows {g g' : Globals} {problems problems' : List Problem}
    {vs : List GlobalVar} (h : addGlobals Γ o g problems vs = .ok (g', problems')) :
    problems <+: problems' := by
  obtain ⟨-, -, hgrows, -⟩ := addGlobals_induction (P := fun _ _ found => problems <+: found)
    (fun _ _ _ _ _ _ hfound _ => hfound.trans (List.prefix_append _ _)) [] List.prefix_rfl h
  exact hgrows

/-- The function that computes the values of global variables is ended, if it is there. -/
theorem finish_cases {g g' : Globals} (h : g.finish = .ok g') : (g.init = none ∧ g' = g) ∨
    ∃ d d', g.init = some d ∧ (Emit.ret none).run d = .ok ((), d') ∧
      g' = { g with init := some d' } := by
  unfold Globals.finish at h
  split at h
  next hnone =>
    cases h
    exact .inl ⟨hnone, rfl⟩
  next d hd =>
    change Except.bind ((Emit.ret none).run d) _ = _ at h
    rcases hret : (Emit.ret none).run d with e | ⟨_, d'⟩
    · rw [hret] at h
      cases h
    · rw [hret] at h
      cases h
      exact .inr ⟨d, d', hd, hret, rfl⟩

/-- Its end changes nothing else. -/
theorem finish_frame {g g' : Globals} (h : g.finish = .ok g') :
    g'.globals = g.globals ∧ g'.scopes = g.scopes ∧ g'.bound = g.bound ∧
      g'.init.isSome = g.init.isSome := by
  obtain ⟨-, rfl⟩ | ⟨d, d', hd, -, rfl⟩ := finish_cases h
  · exact ⟨rfl, rfl, rfl, rfl⟩
  · exact ⟨rfl, rfl, rfl, by rw [hd]; rfl⟩

/-! ## Bodies -/

/-- A body that is lowered is walked over, and then its open blocks are ended. -/
theorem lowerBody_ends {c : Context} {f : FuncDecl} {r : Except Failure Unit} {g : Func}
    {bound : List (Name × DataType)} (h : lowerBody o c f = .ok (r, g, bound)) :
    ∃ b d, (inScope (bodyCode c f)).run
        { draft := startDraft o (declaration f), scopes := c.scopes } = .ok (r, b) ∧
      (closeBlocks f.result).run b.draft = .ok ((), d) ∧ g = d.func ∧ bound = b.bound := by
  change Except.bind ((inScope (bodyCode c f)).run _) _ = _ at h
  rcases hscope : (inScope (bodyCode c f)).run
      { draft := startDraft o (declaration f), scopes := c.scopes } with e | ⟨r', b⟩
  · rw [hscope] at h
    cases h
  rw [hscope] at h
  change Except.bind ((closeBlocks f.result).run b.draft) _ = _ at h
  rcases hclose : (closeBlocks f.result).run b.draft with e | ⟨_, d⟩
  · rw [hclose] at h
    cases h
  rw [hclose] at h
  cases h
  exact ⟨b, d, rfl, hclose, rfl, rfl⟩

theorem lowerBodies_cons {c : Context} {out : Outcome} {f : FuncDecl} {fs : List FuncDecl}
    (hgo : o.goesOn out.problems = true) :
    lowerBodies o c out (f :: fs) = (lowerBody o c f).bind fun body =>
      lowerBodies o c
        { module := { out.module with funcs := out.module.funcs ++ [body.2.1] }
          problems := out.problems ++ noted (.func f.name.text) body.1
          bound := body.2.2 ++ out.bound } fs := by
  rw [lowerBodies, if_pos hgo]
  rcases lowerBody o c f with e | ⟨r, func, bound⟩
  · rfl
  · cases r <;> rfl

/-- The round over the first functions, and then over the others. -/
theorem lowerBodies_append {c : Context} {fs : List FuncDecl} {out' : Outcome}
    (hgo : o.goesOn out'.problems = true) : ∀ {done : List FuncDecl} {out : Outcome},
      lowerBodies o c out done = .ok out' →
      lowerBodies o c out (done ++ fs) = lowerBodies o c out' fs
  | [], _, h => by
    cases h
    rfl
  | f :: done, out, h => by
    by_cases hgo' : o.goesOn out.problems = true
    · rw [lowerBodies_cons hgo'] at h
      rw [List.cons_append, lowerBodies_cons hgo']
      rcases hbody : lowerBody o c f with e | body
      · rw [hbody] at h
        cases h
      · rw [hbody] at h
        exact lowerBodies_append hgo h
    · rw [lowerBodies, if_neg hgo'] at h
      cases h
      exact absurd hgo hgo'

/-- Bodies add functions, problems and types of names, and change nothing else. -/
theorem lowerBodies_frame {c : Context} : ∀ {fs : List FuncDecl} {out out' : Outcome},
    lowerBodies o c out fs = .ok out' → out'.module.globals = out.module.globals ∧
      out'.module.numbers = out.module.numbers ∧ out.problems <+: out'.problems ∧
      out.bound <:+ out'.bound
  | [], _, _, h => by
    cases h
    exact ⟨rfl, rfl, List.prefix_rfl, List.suffix_rfl⟩
  | f :: fs, out, out', h => by
    by_cases hgo : o.goesOn out.problems = true
    · rw [lowerBodies_cons hgo] at h
      rcases hbody : lowerBody o c f with e | ⟨r, g, bound⟩
      · rw [hbody] at h
        cases h
      · rw [hbody] at h
        obtain ⟨hglobals, hnumbers, hprefix, hsuffix⟩ := lowerBodies_frame h
        exact ⟨hglobals, hnumbers, (List.prefix_append _ _).trans hprefix,
          (List.suffix_append _ _).trans hsuffix⟩
    · rw [lowerBodies, if_neg hgo] at h
      cases h
      exact ⟨rfl, rfl, List.prefix_rfl, List.suffix_rfl⟩

end

/-! ## Programs -/

theorem func_mem_defs {p : Program} {f : FuncDecl} (hf : f ∈ funcDecls p) : .func f ∈ p.defs := by
  obtain ⟨d, hd, hfunc⟩ := List.mem_filterMap.1 hf
  cases d with
  | global => cases hfunc
  | func f' =>
    obtain rfl := Option.some.inj hfunc
    exact hd

theorem global_mem_defs {p : Program} {v : GlobalVar} (hv : v ∈ globalVars p) :
    .global v ∈ p.defs := by
  obtain ⟨d, hd, hglobal⟩ := List.mem_filterMap.1 hv
  cases d with
  | func => cases hglobal
  | global v' =>
    obtain rfl := Option.some.inj hglobal
    exact hd

/-- The states between the rounds in which a program is lowered. -/
structure Rounds (o : Options) (p : Program) (out : Outcome) where
  /-- the functions that are declared -/
  declared : List FuncDecl
  /-- the problems of their signatures -/
  unsigned : List Problem
  /-- the round over signatures -/
  signed : declareFuncs o [] [] (funcDecls p) = (declared, unsigned)
  /-- the global variables -/
  globals : Globals
  /-- the problems up to the global variables -/
  problems : List Problem
  /-- the round over global variables -/
  added : addGlobals (signatures declared) o
    { bound := declared.map fun f => (f.name, f.result) } unsigned (globalVars p) =
      .ok (globals, problems)
  /-- the global variables when the function that computes their values has been ended -/
  final : Globals
  /-- the end of that function, unless problems ended the work -/
  finished : (if o.goesOn problems then (globals.synthesize o).finish else pure globals) = .ok final
  /-- what becomes of the program without that function -/
  coded : Outcome
  /-- the round over bodies -/
  bodies : lowerBodies o ⟨signatures declared, final.scopes, final.init.isSome⟩
    { module := { globals := final.globals }, problems, bound := final.bound } declared = .ok coded
  /-- what becomes of the program -/
  outcome : out = { coded with module := { coded.module with
    funcs := coded.module.funcs ++ (final.init.map Draft.func).toList } }

/-- What the bodies of the functions of a program have in common. -/
def Rounds.context {o : Options} {p : Program} {out : Outcome} (r : Rounds o p out) : Context :=
  ⟨signatures r.declared, r.final.scopes, r.final.init.isSome⟩

/-- What becomes of a program before the round over bodies. -/
def Outcome.ofGlobals (g : Globals) (problems : List Problem) : Outcome :=
  { module := { globals := g.globals }, problems, bound := g.bound }

/-- A program that is lowered has gone through all rounds. -/
theorem exists_rounds {o : Options} {p : Program} {out : Outcome} (h : lower o p = .ok out) :
    Nonempty (Rounds o p out) := by
  unfold lower at h
  rcases hsigned : declareFuncs o [] [] (funcDecls p) with ⟨declared, unsigned⟩
  rw [hsigned] at h
  dsimp only at h
  rcases hadded : addGlobals (signatures declared) o
      { bound := declared.map fun f => (f.name, f.result) } unsigned (globalVars p) with
    e | ⟨globals, problems⟩
  · rw [hadded] at h
    cases h
  rw [hadded] at h
  dsimp only [bind, Except.bind] at h
  obtain ⟨final, hfinished, h⟩ : ∃ final, (if o.goesOn problems then (globals.synthesize o).finish
      else pure globals) = .ok final ∧ (do
        let coded ← lowerBodies o ⟨signatures declared, final.scopes, final.init.isSome⟩
          { module := { globals := final.globals }, problems, bound := final.bound } declared
        return { coded with module := { coded.module with
          funcs := coded.module.funcs ++ (final.init.map Draft.func).toList } }) = .ok out := by
    split at h
    next hgo =>
      rw [if_pos hgo]
      rcases hfinish : (globals.synthesize o).finish with e | final
      · rw [hfinish] at h
        cases h
      · rw [hfinish] at h
        exact ⟨final, rfl, h⟩
    next hstop =>
      rw [if_neg hstop]
      exact ⟨globals, rfl, h⟩
  rcases hbodies : lowerBodies o ⟨signatures declared, final.scopes, final.init.isSome⟩
      { module := { globals := final.globals }, problems, bound := final.bound } declared with
    e | coded
  · rw [hbodies] at h
    cases h
  rw [hbodies] at h
  exact ⟨⟨declared, unsigned, hsigned, globals, problems, hadded, final, hfinished, coded, hbodies,
    (Except.ok.inj h).symm⟩⟩

namespace Rounds

variable {o : Options} {p : Program} {out : Outcome} (r : Rounds o p out)
include r

theorem globals_eq : out.module.globals = r.final.globals :=
  (congrArg (fun out => out.module.globals) r.outcome).trans (lowerBodies_frame r.bodies).1

theorem numbers_eq : out.module.numbers = [] :=
  (congrArg (fun out => out.module.numbers) r.outcome).trans (lowerBodies_frame r.bodies).2.1

theorem problems_grow : r.problems <+: out.problems :=
  (lowerBodies_frame r.bodies).2.2.1.trans
    (congrArg Outcome.problems r.outcome ▸ List.prefix_rfl)

/-- The round over global variables is finished, or problems have ended the work. -/
theorem final_cases :
    (o.goesOn r.problems = true ∧ (r.globals.synthesize o).finish = .ok r.final) ∨
      (o.goesOn r.problems = false ∧ r.final = r.globals) := by
  have hfinished := r.finished
  split at hfinished
  next hgo => exact .inl ⟨hgo, hfinished⟩
  next hstop => exact .inr ⟨by simpa using hstop, (Except.ok.inj hfinished).symm⟩

/-- Ending the function that computes the values of global variables notes nothing. -/
theorem bound_final : r.final.bound = r.globals.bound := by
  rcases r.final_cases with ⟨-, hfinish⟩ | ⟨-, hfinal⟩
  · obtain ⟨-, -, hbound, -⟩ := finish_frame hfinish
    rw [hbound]
    unfold Globals.synthesize
    split <;> rfl
  · rw [hfinal]

theorem bound_eq : out.bound = r.coded.bound := (congrArg Outcome.bound r.outcome).trans rfl

/-- The notes of the round over global variables are among those of the program. -/
theorem bound_grow : r.globals.bound <:+ out.bound := by
  rw [← r.bound_final, r.bound_eq]
  exact (lowerBodies_frame r.bodies).2.2.2

/-- A program that has gone through all rounds is lowered. -/
theorem lower_eq : lower o p = .ok out := by
  have hbodies : (do
      let coded ← lowerBodies o ⟨signatures r.declared, r.final.scopes, r.final.init.isSome⟩
        { module := { globals := r.final.globals }, problems := r.problems, bound := r.final.bound }
        r.declared
      return { coded with module := { coded.module with
        funcs := coded.module.funcs ++ (r.final.init.map Draft.func).toList } }) = .ok out := by
    rw [r.bodies]
    exact congrArg Except.ok r.outcome.symm
  rw [lower, r.signed]
  dsimp only
  rw [r.added]
  dsimp only [bind, Except.bind]
  rcases r.final_cases with ⟨hgo, hfinish⟩ | ⟨hstop, hfinal⟩
  · rw [if_pos hgo, hfinish]
    exact hbodies
  · rw [if_neg (by simp [hstop]), ← hfinal]
    exact hbodies

end Rounds

end Shader.Lowering
