import Shader.Proofs.Lowering.Recovery

/-!
# Strict and lenient mode

A program is lowered in the same way in both modes until something goes wrong. Then the strict run
ends, and the lenient one goes on with the other definitions, which may go wrong as well.

`Abreast` compares what a round has come to in the two modes. It holds at the start, every round
keeps it, and at the end it says that the strict run finds the first problem of the lenient run, or
that both found none and have the same outcome.
-/

namespace Shader.Lowering

open Ir

variable {o : Options}

@[simp] theorem Options.goesOn_strict {problems : List Problem} :
    ({ o with strict := true } : Options).goesOn problems = problems.isEmpty := by
  simp [Options.goesOn]

@[simp] theorem Options.goesOn_lenient {problems : List Problem} :
    ({ o with strict := false } : Options).goesOn problems = true := by
  simp [Options.goesOn]

/-- What the strict run has come to, beside what the lenient run has come to. -/
structure Abreast {σ : Type} (strict lenient : σ × List Problem) : Prop where
  /-- the strict run has found the first problem of the lenient run, if there is one -/
  problems : strict.2 = lenient.2.take 1
  /-- as long as there is none, the runs are in the same state -/
  state : lenient.2 = [] → strict.1 = lenient.1

namespace Abreast

variable {σ : Type} {strict lenient : σ × List Problem}

/-- Either nothing went wrong, or both runs have found the same problem first. -/
theorem cases (h : Abreast strict lenient) :
    (lenient.2 = [] ∧ strict = lenient) ∨
      ∃ e more, lenient.2 = e :: more ∧ strict.2 = [e] := by
  rcases hlenient : lenient.2 with _ | ⟨e, more⟩
  · left
    have hproblems := h.problems
    rw [hlenient, List.take_nil] at hproblems
    exact ⟨rfl, Prod.ext (h.state hlenient) (hproblems.trans hlenient.symm)⟩
  · right
    refine ⟨e, more, rfl, ?_⟩
    rw [h.problems, hlenient]
    rfl

theorem refl (state : σ) (problems : List Problem) (h : problems.length ≤ 1) :
    Abreast (state, problems) (state, problems) where
  problems := (List.take_of_length_le h).symm
  state _ := rfl

/-- The strict run has ended, and what the lenient run still finds does not matter. -/
theorem behind {e : Problem} {more : List Problem} (hstrict : strict.2 = [e])
    (hlenient : e :: more <+: lenient.2) : Abreast strict lenient := by
  obtain ⟨found, hfound⟩ := hlenient
  constructor
  · rw [hstrict, ← hfound]
    rfl
  · intro hnil
    rw [hnil] at hfound
    cases hfound

end Abreast

/-! ## Signatures -/

/-- The strict round over signatures does nothing once there is a problem. -/
theorem declareFuncs_stopped {declared : List FuncDecl} {e : Problem} (fs : List FuncDecl) :
    declareFuncs { o with strict := true } declared [e] fs = (declared, [e]) := by
  cases fs with
  | nil => rfl
  | cons f fs => simp [declareFuncs]

theorem abreast_declareFuncs (fs : List FuncDecl) {strict lenient : List FuncDecl × List Problem}
    (h : Abreast strict lenient) :
    Abreast (declareFuncs { o with strict := true } strict.1 strict.2 fs)
      (declareFuncs { o with strict := false } lenient.1 lenient.2 fs) := by
  induction fs generalizing strict lenient with
  | nil => exact h
  | cons f fs ih =>
    rcases h.cases with ⟨hnil, rfl⟩ | ⟨e, more, hlenient, hstrict⟩
    · simp only [declareFuncs, hnil, Options.goesOn_strict, Options.goesOn_lenient,
        List.isEmpty_nil, if_true, List.nil_append]
      cases declareFunc strict.1 f with
      | error failure => exact ih (.refl strict.1 [⟨.signature, failure⟩] (Nat.le_refl 1))
      | ok declared => exact ih (.refl declared [] (Nat.zero_le 1))
    · have hstopped : ∀ fs,
          declareFuncs { o with strict := true } strict.1 strict.2 fs = strict := fun fs => by
        rw [hstrict, declareFuncs_stopped, ← hstrict]
      rw [hstopped]
      simp only [declareFuncs, Options.goesOn_lenient, if_true]
      cases declareFunc lenient.1 f with
      | error failure =>
        have hnext : Abreast strict (lenient.1, lenient.2 ++ [⟨.signature, failure⟩]) :=
          .behind hstrict (by rw [← hlenient]; exact List.prefix_append _ _)
        simpa only [hstopped] using ih hnext
      | ok declared =>
        have hnext : Abreast strict (declared, lenient.2) :=
          .behind hstrict (by rw [← hlenient])
        simpa only [hstopped] using ih hnext

/-! ## Global variables -/

/-- The strict round over global variables does nothing once there is a problem. -/
theorem addGlobals_stopped {Γ : Signatures} {g : Globals} {e : Problem} (vs : List GlobalVar) :
    addGlobals Γ { o with strict := true } g [e] vs = .ok (g, [e]) := by
  cases vs with
  | nil => rfl
  | cons v vs => simp [addGlobals, pure, Except.pure]

/-- If the lenient round over global variables meets no fault, the strict one does not either. -/
theorem abreast_addGlobals {Γ Γ' : Signatures} (vs : List GlobalVar)
    {strict lenient lenient' : Globals × List Problem} (h : Abreast strict lenient)
    (hΓ : lenient.2 = [] → Γ = Γ')
    (hrun : addGlobals Γ' { o with strict := false } lenient.1 lenient.2 vs = .ok lenient') :
    ∃ strict', addGlobals Γ { o with strict := true } strict.1 strict.2 vs = .ok strict' ∧
      Abreast strict' lenient' := by
  induction vs generalizing strict lenient with
  | nil =>
    cases hrun
    exact ⟨strict, rfl, h⟩
  | cons v vs ih =>
    rcases h.cases with ⟨hnil, rfl⟩ | ⟨e, more, hlenient, hstrict⟩
    · obtain rfl := hΓ hnil
      rw [addGlobals_cons (by simp)] at hrun
      rw [addGlobals_cons (by simp [hnil])]
      -- the mode does not matter for a single variable
      change (strict.1.add Γ { o with strict := false } v).bind _ = _ at hrun
      change ∃ strict', (strict.1.add Γ { o with strict := false } v).bind _ = _ ∧ _
      rcases hadd : strict.1.add Γ { o with strict := false } v with fault | ⟨r, g⟩
      · rw [hadd] at hrun
        cases hrun
      · rw [hadd] at hrun
        rw [hnil] at hrun ⊢
        exact ih (.refl g (noted (.global v.var.name.text) r) (length_noted r)) (fun _ => rfl) hrun
    · refine ⟨strict, ?_, .behind hstrict (hlenient ▸ addGlobals_grows hrun)⟩
      rw [hstrict, addGlobals_stopped, ← hstrict]

/-- The function that computes the values of global variables is ended only if nothing went wrong
in the strict run. -/
theorem abreast_finish {strict lenient : Globals × List Problem} {final' : Globals}
    (h : Abreast strict lenient) (hfinish : (lenient.1.synthesize o).finish = .ok final') :
    ∃ final, (if Options.goesOn { o with strict := true } strict.2 then
        (strict.1.synthesize { o with strict := true }).finish else pure strict.1) = .ok final ∧
      Abreast (final, strict.2) (final', lenient.2) := by
  rcases h.cases with ⟨hnil, rfl⟩ | ⟨e, more, hlenient, hstrict⟩
  · refine ⟨final', ?_, .refl final' strict.2 (by simp [hnil])⟩
    rw [if_pos (by simp [hnil])]
    exact hfinish
  · refine ⟨strict.1, ?_, .behind hstrict (by rw [← hlenient])⟩
    rw [if_neg (by simp [hstrict])]
    rfl

/-! ## Bodies -/

/-- The strict round over bodies finds nothing more once there is a problem. -/
theorem lowerBodies_stopped {c : Context} {out : Outcome} {e : Problem} (h : out.problems = [e])
    (fs : List FuncDecl) : ∃ out', lowerBodies { o with strict := true } c out fs = .ok out' ∧
      out'.problems = [e] := by
  cases fs with
  | nil => exact ⟨out, rfl, h⟩
  | cons f fs =>
    rw [lowerBodies, if_neg (by simp [h])]
    exact ⟨_, rfl, h⟩

/-- A round over bodies in which the strict run has ended before the lenient one meets no fault. -/
theorem behind_lowerBodies {c c' : Context} {fs fs' : List FuncDecl} {e : Problem}
    {more : List Problem} {strict lenient lenient' : Outcome} (hstrict : strict.problems = [e])
    (hlenient : lenient.problems = e :: more)
    (hrun : lowerBodies { o with strict := false } c' lenient fs' = .ok lenient') :
    ∃ strict', lowerBodies { o with strict := true } c strict fs = .ok strict' ∧
      Abreast (strict', strict'.problems) (lenient', lenient'.problems) := by
  obtain ⟨strict', hstopped, hproblems⟩ := lowerBodies_stopped (o := o) (c := c) hstrict fs
  have hgrows : lenient.problems <+: lenient'.problems := (lowerBodies_frame hrun).2.2.1
  rw [hlenient] at hgrows
  exact ⟨strict', hstopped, .behind hproblems hgrows⟩

/-- If the lenient round over bodies meets no fault, the strict one does not either. -/
theorem abreast_lowerBodies {c c' : Context} {fs fs' : List FuncDecl}
    {strict lenient lenient' : Outcome}
    (h : Abreast (strict, strict.problems) (lenient, lenient.problems))
    (heq : lenient.problems = [] → c = c' ∧ fs = fs')
    (hrun : lowerBodies { o with strict := false } c' lenient fs' = .ok lenient') :
    ∃ strict', lowerBodies { o with strict := true } c strict fs = .ok strict' ∧
      Abreast (strict', strict'.problems) (lenient', lenient'.problems) := by
  induction fs' generalizing fs strict lenient with
  | nil =>
    rcases h.cases with ⟨hnil, hsame⟩ | ⟨e, more, hlenient, hstrict⟩
    · cases hrun
      obtain ⟨-, rfl⟩ := heq hnil
      exact ⟨strict, rfl, h⟩
    · exact behind_lowerBodies hstrict hlenient hrun
  | cons f fs' ih =>
    rcases h.cases with ⟨hnil, hsame⟩ | ⟨e, more, hlenient, hstrict⟩
    · obtain ⟨rfl, rfl⟩ := heq hnil
      obtain rfl : strict = lenient := congrArg Prod.fst hsame
      change strict.problems = [] at hnil
      rw [lowerBodies_cons (by simp)] at hrun
      rw [lowerBodies_cons (by simp [hnil])]
      -- the mode does not matter for a single body
      change (lowerBody { o with strict := false } c f).bind _ = _ at hrun
      change ∃ strict', (lowerBody { o with strict := false } c f).bind _ = _ ∧ _
      rcases hbody : lowerBody { o with strict := false } c f with fault | ⟨r, func, bound⟩
      · rw [hbody] at hrun
        cases hrun
      · rw [hbody] at hrun
        refine ih (.refl _ _ ?_) (fun _ => ⟨rfl, rfl⟩) hrun
        rw [hnil]
        exact length_noted r
    · exact behind_lowerBodies hstrict hlenient hrun

/-! ## Programs -/

/-- If a program is lowered in lenient mode, then it is in strict mode. -/
theorem abreast_lower {p : Program} {lenient : Outcome}
    (hlower : lower { o with strict := false } p = .ok lenient) :
    ∃ strict, lower { o with strict := true } p = .ok strict ∧
      Abreast (strict, strict.problems) (lenient, lenient.problems) := by
  obtain ⟨r⟩ := exists_rounds hlower
  -- signatures
  rcases hsigned : declareFuncs { o with strict := true } [] [] (funcDecls p) with
    ⟨declared, unsigned⟩
  have hdeclared : Abreast (declared, unsigned) (r.declared, r.unsigned) := by
    rw [← hsigned, ← r.signed]
    exact abreast_declareFuncs (funcDecls p) (.refl [] [] (Nat.zero_le 1))
  -- global variables
  have hstart : Abreast
      ({ bound := declared.map fun f => (f.name, f.result) : Globals }, unsigned)
      ({ bound := r.declared.map fun f => (f.name, f.result) : Globals }, r.unsigned) :=
    ⟨hdeclared.problems, fun hnil => by rw [show declared = r.declared from hdeclared.state hnil]⟩
  obtain ⟨⟨globals, problems⟩, hadded, hglobals⟩ := abreast_addGlobals (Γ := signatures declared)
    (globalVars p) hstart (fun hnil => congrArg signatures (hdeclared.state hnil)) r.added
  have hunsigned : r.problems = [] → r.unsigned = [] := fun hnil =>
    List.prefix_nil.1 (hnil ▸ addGlobals_grows r.added)
  have hlast : (r.globals.synthesize { o with strict := false }).finish = .ok r.final := by
    rw [← r.finished, if_pos Options.goesOn_lenient]
  obtain ⟨final, hfinished, hfinal⟩ := abreast_finish hglobals hlast
  -- bodies
  have hdone : r.problems = [] → final = r.final := hfinal.state
  have hbefore : Abreast (Outcome.ofGlobals final problems, problems)
      (Outcome.ofGlobals r.final r.problems, r.problems) :=
    ⟨hglobals.problems, fun hnil => by
      have hnone : problems = [] := hglobals.problems.trans (congrArg (List.take 1) hnil)
      have hnil : r.problems = [] := hnil
      dsimp only
      rw [hdone hnil, hnone, hnil]⟩
  have hcontext : r.problems = [] →
      (⟨signatures declared, final.scopes, final.init.isSome⟩ : Context) =
        ⟨signatures r.declared, r.final.scopes, r.final.init.isSome⟩ ∧ declared = r.declared := by
    intro hnil
    have hsame : declared = r.declared := hdeclared.state (hunsigned hnil)
    rw [hdone hnil, hsame]
    exact ⟨rfl, rfl⟩
  obtain ⟨coded, hbodies, hcoded⟩ := abreast_lowerBodies hbefore hcontext r.bodies
  refine ⟨_, Rounds.lower_eq ⟨declared, unsigned, hsigned, globals, problems, hadded, final,
    hfinished, coded, hbodies, rfl⟩, ?_⟩
  have hproblems : lenient.problems = r.coded.problems :=
    congrArg (fun out => out.problems) r.outcome
  constructor
  · rw [hproblems]
    exact hcoded.problems
  · intro hnil
    have hsame : coded = r.coded := hcoded.state (hproblems ▸ hnil)
    have hnone : r.problems = [] := List.prefix_nil.1 (hnil ▸ r.problems_grow)
    rw [hdone hnone, hsame]
    exact r.outcome.symm

/-- What a caller is told of a program that fails: the text of the first problem and its place. -/
def Outcome.error? (out : Outcome) : Option (String × Pos) :=
  out.problems.head?.map fun e => (e.text, e.failure.pos)

/-- In strict mode a parsed program has the first of the problems that it has in lenient mode, and
the same error for the caller; and if it has none, it becomes the same in both modes. -/
theorem strict_lower {s : Source} {p : Program} (o : Options)
    (hparse : s.parse.program = some p) :
    ∃ strict lenient, lower { o with strict := true } p = .ok strict ∧
      lower { o with strict := false } p = .ok lenient ∧
      strict.problems = lenient.problems.take 1 ∧ strict.error? = lenient.error? ∧
      (lenient.problems = [] → strict = lenient) := by
  obtain ⟨lenient, hlenient, -⟩ :=
    lower_coded (o := { o with strict := false }) (namesFree_of_parse hparse)
  obtain ⟨strict, hstrict, habreast⟩ := abreast_lower hlenient
  refine ⟨strict, lenient, hstrict, hlenient, habreast.problems, ?_, habreast.state⟩
  have hproblems : strict.problems = lenient.problems.take 1 := habreast.problems
  cases hlenient : lenient.problems <;> simp [Outcome.error?, hproblems, hlenient]

/-- Two definitions of the program fail, and only the first of them is found in strict mode. -/
theorem strict_manyFailures : ∃ p strict lenient, manyFailures.parse.program = some p ∧
    lower { strict := true } p = .ok strict ∧ lower { strict := false } p = .ok lenient ∧
    lenient.problems.length = 2 ∧ strict.problems = lenient.problems.take 1 ∧
    strict.error? = lenient.error? := by
  have hreports : manyFailures.scan.reports = [] := scan_reports_eq_nil (by decide +kernel)
  obtain ⟨p, hparse, htest⟩ := exists_parsed (t := fun p => (lower {} p).toOption.any fun out =>
    out.problems.length == 2) hreports (by decide +kernel)
  obtain ⟨strict, lenient, hstrict, hlenient, hproblems, herror, -⟩ := strict_lower {} hparse
  rw [show lower {} p = .ok lenient from hlenient] at htest
  have hcount : lenient.problems.length = 2 := by simpa [Except.toOption] using htest
  exact ⟨p, strict, lenient, hparse, hstrict, hlenient, hcount, hproblems, herror⟩

end Shader.Lowering
