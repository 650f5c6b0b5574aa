import Shader.Proofs.Lowering.Naming
import Shader.Proofs.Lowering.Success

/-!
# The rounds of accepted programs

A program without problems goes through all rounds in which it is lowered, and each of them is
complete: all functions are declared, all global variables, and the code of every function is there,
written from what the rounds before have left.
-/

namespace Shader.Lowering

open Ir

variable {o : Options} {p : Program} {out : Outcome}

/-- Bodies without problems are all there. -/
theorem exists_lowerBody {c : Context} : ∀ {fs : List FuncDecl} {out out' : Outcome},
    lowerBodies o c out fs = .ok out' → out'.problems = [] →
      ∃ gs, out'.module.funcs = out.module.funcs ++ gs ∧
        List.Forall₂ (fun f g => ∃ bound, lowerBody o c f = .ok (.ok (), g, bound) ∧
          bound <:+: out'.bound) fs gs
  | [], out, _, h, _ => by
    cases h
    exact ⟨[], by simp, .nil⟩
  | f :: fs, out, out', h, hok => by
    have hgo : o.goesOn out.problems = true := by
      have hnil := List.prefix_nil.1 (hok ▸ (lowerBodies_frame h).2.2.1)
      simp [Options.goesOn, hnil]
    rw [lowerBodies_cons hgo] at h
    rcases hbody : lowerBody o c f with e | ⟨r, g, bound⟩
    · rw [hbody] at h
      cases h
    rw [hbody] at h
    have hnoted := List.prefix_nil.1 (hok ▸ (lowerBodies_frame h).2.2.1)
    obtain ⟨gs, hfuncs, hgs⟩ := exists_lowerBody h hok
    cases r with
    | error failure => simp [noted] at hnoted
    | ok _ =>
      refine ⟨g :: gs, by simp [hfuncs], .cons ⟨bound, hbody, ?_⟩ hgs⟩
      exact (List.prefix_append bound out.bound).isInfix.trans (lowerBodies_frame h).2.2.2.isInfix

/-- The code of a function of the program has its name. -/
theorem id_lowerBody {O : Outside} {c : Context} {f : FuncDecl} {g : Func} {r : Except Failure Unit}
    {bound : List (Name × DataType)} (hc : ContextSound O c)
    (hvoid : ∀ p ∈ f.params, p.type ≠ .void) (h : lowerBody o c f = .ok (r, g, bound)) :
    g.id = ⟨f.name.text, 0⟩ := by
  obtain ⟨r', g', bound', hrun, -, hid, -⟩ := lowerBody_finished (o := o) hc hvoid
  obtain ⟨-, hg⟩ := Prod.mk.inj (Except.ok.inj (h.symm.trans hrun))
  obtain ⟨rfl, -⟩ := Prod.mk.inj hg
  exact hid.symm

namespace Rounds

variable (r : Rounds o p out)

section

variable (hok : out.problems = [])
include hok

theorem problems_eq_nil : r.problems = [] := List.prefix_nil.1 (hok ▸ r.problems_grow)

theorem unsigned_eq_nil : r.unsigned = [] :=
  List.prefix_nil.1 (r.problems_eq_nil hok ▸ addGlobals_grows r.added)

/-- All functions are declared. -/
theorem declared_eq : r.declared = funcDecls p := by
  have hall := (Declarable.declareFuncs (o := o) (funcDecls p) [] .nil).2.2.2
  rw [r.signed] at hall
  simpa using hall (r.unsigned_eq_nil hok)

include r in
theorem declarable : Declarable (funcDecls p) := by
  have hdeclared := (Declarable.declareFuncs (o := o) (funcDecls p) [] .nil).1
  rw [r.signed] at hdeclared
  exact r.declared_eq hok ▸ hdeclared

theorem context_declared :
    r.context = ⟨signatures (funcDecls p), r.final.scopes, r.final.init.isSome⟩ := by
  rw [context, r.declared_eq hok]

theorem goesOn : o.goesOn r.problems = true := by
  simp [Options.goesOn, r.problems_eq_nil hok]

theorem added_eq : addGlobals (signatures (funcDecls p)) o
    { bound := (funcDecls p).map fun f => (f.name, f.result) } [] (globalVars p) =
      .ok (r.globals, []) := by
  have hadded := r.added
  rwa [r.declared_eq hok, r.unsigned_eq_nil hok, r.problems_eq_nil hok] at hadded

/-- The functions of the program have their code in the module, and so has the one that computes the
values of global variables. -/
theorem exists_funcs : ∃ gs, out.module.funcs = gs ++ (r.final.init.map Draft.func).toList ∧
    List.Forall₂ (fun f g => ∃ bound, lowerBody o r.context f = .ok (.ok (), g, bound) ∧
      bound <:+: out.bound) (funcDecls p) gs := by
  have hcoded : r.coded.problems = [] := (congrArg Outcome.problems r.outcome).symm.trans hok
  obtain ⟨gs, hfuncs, hgs⟩ := exists_lowerBody r.bodies hcoded
  rw [← r.bound_eq, r.declared_eq hok] at hgs
  refine ⟨gs, (congrArg (fun out => out.module.funcs) r.outcome).trans ?_, ?_⟩
  · simp [hfuncs]
  · rwa [r.context_declared hok]

/-- Every function of the program has its code in the module. -/
theorem exists_func {f : FuncDecl} (hf : f ∈ funcDecls p) : ∃ g ∈ out.module.funcs, ∃ bound,
    lowerBody o r.context f = .ok (.ok (), g, bound) := by
  obtain ⟨gs, hfuncs, hbodies⟩ := r.exists_funcs hok
  obtain ⟨i, hi, rfl⟩ := List.mem_iff_getElem.1 hf
  have hi' : i < gs.length := hbodies.length_eq ▸ hi
  obtain ⟨bound, hrun, -⟩ := hbodies.get hi hi'
  exact ⟨gs[i], hfuncs ▸ List.mem_append_left _ (List.getElem_mem hi'), bound, hrun⟩

/-- So has the function that computes the values of global variables. -/
theorem init_mem {d : Draft} (hd : r.final.init = some d) : d.func ∈ out.module.funcs := by
  obtain ⟨gs, hfuncs, -⟩ := r.exists_funcs hok
  rw [hfuncs, hd]
  simp

variable {s : Source} (hparse : s.parse.program = some p)
include hparse

/-- The output for positions is declared, so that none is made up. -/
theorem synthesize_eq : r.globals.synthesize o = r.globals := by
  have hnamed : Named (globalVars p) r.globals := (Named.start _).addGlobals (r.added_eq hok)
  rw [Globals.synthesize, hnamed.isNone_lookup? (exists_position hparse), Bool.and_false]
  rfl

theorem ended_eq : r.globals.finish = .ok r.final := by
  rcases r.final_cases with ⟨-, hfinish⟩ | ⟨hstop, -⟩
  · rwa [r.synthesize_eq hok hparse] at hfinish
  · rw [r.goesOn hok] at hstop
    cases hstop

theorem exists_globalsSound : ∃ clean, GlobalsSound (funcDecls p) o clean r.globals := by
  obtain ⟨g, problems, hadd, hg, -⟩ := GlobalsSound.addGlobals (o := o) (namesFree_of_parse hparse)
    (globalVars p) [] (show GlobalsSound (funcDecls p) o True _ from .start _)
  rw [r.added_eq hok] at hadd
  obtain ⟨rfl, -⟩ := Prod.mk.inj (Except.ok.inj hadd)
  exact ⟨_, hg⟩

theorem id_init {d : Draft} (hd : r.final.init = some d) : d.func.id = ⟨initName, 0⟩ := by
  obtain ⟨clean, hg⟩ := r.exists_globalsSound hok hparse
  obtain ⟨g, hfinish, -, -, -, hinit⟩ := hg.finish
  obtain rfl := Except.ok.inj (hfinish.symm.trans (r.ended_eq hok hparse))
  exact (hinit d hd).1

/-- What the bodies of functions rely on is there. -/
theorem contextSound : ContextSound
    (outsideOf (funcDecls p) out.module.globals r.final.init.isSome) r.context := by
  obtain ⟨clean, hg⟩ := r.exists_globalsSound hok hparse
  obtain ⟨hglobals, hscopes, -, -⟩ := finish_frame (r.ended_eq hok hparse)
  rw [r.globals_eq, r.context_declared hok, hglobals, hscopes]
  refine ⟨signatures_sound (namesFree_of_parse hparse),
    fun f => hg.scopesSound (fun _ h => h) f, hg.outermost, fun hhas => ?_⟩
  dsimp only at hhas
  simp [outsideOf, hhas]

/-- A function of the module is one of the program, or computes the values of global variables. -/
theorem func_cases {g : Func} (hg : g ∈ out.module.funcs) :
    (∃ f ∈ funcDecls p, g.id = ⟨f.name.text, 0⟩ ∧ ∃ bound,
      lowerBody o r.context f = .ok (.ok (), g, bound) ∧ bound <:+: out.bound) ∨
      ∃ d, r.final.init = some d ∧ d.func = g := by
  obtain ⟨gs, hfuncs, hbodies⟩ := r.exists_funcs hok
  rcases List.mem_append.1 (hfuncs ▸ hg) with hg | hg
  · obtain ⟨i, hi, rfl⟩ := List.mem_iff_getElem.1 hg
    have hi' : i < (funcDecls p).length := hbodies.length_eq ▸ hi
    obtain ⟨bound, hrun, hamong⟩ := hbodies.get hi' hi
    have hf := List.getElem_mem hi'
    have hid := id_lowerBody (r.contextSound hok hparse) ((r.declarable hok).params _ hf) hrun
    exact .inl ⟨_, hf, hid, bound, hrun, hamong⟩
  · exact .inr (by simpa using hg)

end

end Rounds

end Shader.Lowering
