import Shader.Proofs.Grammar.Shaders
import Shader.Proofs.Ir.Pruning
import Shader.Proofs.Lowering.Programs

/-!
# The code of accepted programs

A program that is parsed and lowered without a failure becomes a module in which nothing is wrong:
its functions are well formed and stay so when they are pruned, their instructions take the types of
their operands, and every result is computed before it is used.
-/

namespace Shader.Lowering

open Shader.Ir

/-- No function of a parsed program has the name of the one that computes the values of global
variables, since that is no word. -/
theorem namesFree_of_parse {s : Source} {p : Program} (h : s.parse.program = some p) :
    NamesFree (funcDecls p) := by
  intro f hf hname
  obtain ⟨ds, hdefs, hproper⟩ := Source.proper_parse h
  have hd := func_mem_defs hf
  rw [hdefs] at hd
  have hword : IsWord f.name.text := (hproper _ ((List.mem_cons.1 hd).resolve_left nofun)).isWord
  rw [hname] at hword
  exact absurd (hword '.' (by decide)) (by decide)

/-- An accepted program is lowered completely. -/
theorem exists_lowered {s : Source} {p : Program} {o : Options} {out : Outcome}
    (hparse : s.parse.program = some p) (hlower : lower o p = .ok out) (hok : out.problems = []) :
    ∃ c gs values, Lowered o p out c gs values := by
  obtain ⟨out', hrun, hlowered⟩ := lower_finished (o := o) (namesFree_of_parse hparse)
  obtain rfl := Except.ok.inj (hlower.symm.trans hrun)
  exact hlowered hok

theorem finished_of_bodies {O : Outside} {o : Options} {c : Context} {fs : List FuncDecl}
    {gs : List Func} (h : List.Forall₂ (BodyOf O o c) fs gs) : ∀ g ∈ gs, g.Finished O := by
  induction h with
  | nil => exact nofun
  | cons hbody _ ih => exact List.forall_mem_cons.2 ⟨hbody.finished, ih⟩

/-- Every function of the program has its code in the module. -/
theorem Lowered.exists_body {p : Program} {o : Options} {out : Outcome} {c : Context}
    {gs : List Func} {values : Option Func} (h : Lowered o p out c gs values) {f : FuncDecl}
    (hf : f ∈ funcDecls p) : ∃ g ∈ gs, BodyOf out.module.outside o c f g := by
  obtain ⟨i, hi, rfl⟩ := List.mem_iff_getElem.1 hf
  have hi' : i < gs.length := h.bodies.length_eq ▸ hi
  exact ⟨gs[i], List.getElem_mem hi', h.bodies.get hi hi'⟩

/-- All functions of a module are finished: those of the program and, unless a value failed, the one
that computes the values of global variables. -/
theorem Coded.finished {o : Options} {declared : List FuncDecl} {clean : Prop} {out : Outcome}
    {c : Context} {gs : List Func} {values : Option Func}
    (h : Coded o declared clean out c gs values) (hclean : clean) :
    ∀ f ∈ out.module.funcs, f.Finished out.module.outside := by
  intro f hf
  rw [h.funcs, List.mem_append] at hf
  rcases hf with hf | hf
  · exact finished_of_bodies h.bodies f hf
  · exact (h.init f (by simpa using hf)).2 hclean

/-! ## Verification -/

/-- Verification finds nothing wrong with the module of an accepted program, neither before nor
after the passes; and these end well. -/
theorem verify_module {s : Source} {p : Program} {o : Options} {out : Outcome}
    (hparse : s.parse.program = some p) (hlower : lower o p = .ok out) (hok : out.problems = []) :
    out.module.verify = none ∧ (∀ f ∈ out.module.funcs, f.WellFormed) ∧
      ∃ after, out.module.runPasses defaultPasses { verify := true } = (.ok (), after) ∧
        after.module.verify = none ∧ ∀ f ∈ after.module.funcs, f.WellFormed := by
  obtain ⟨c, gs, values, hlowered⟩ := exists_lowered hparse hlower hok
  have hregular : out.module.Regular := fun f hf => (hlowered.finished trivial f hf).regular
  obtain ⟨after, hrun, hafter⟩ := hregular.runPasses
  exact ⟨hregular.verify_eq_none, fun f hf => (hregular f hf).toWellFormed, after, hrun,
    hafter.verify_eq_none, fun f hf => (hafter f hf).toWellFormed⟩

/-- A program with a global variable whose value is computed, a choice and a loop. -/
def sample : Source where
  bytes := "int n = 2; int f(int a) { while (n < a && a < 7) a++; return a; }".toUTF8.toList

/-- An outcome that a program is seen to have when it is parsed and lowered. -/
theorem exists_accepted {s : Source} (hreports : s.scan.reports = [])
    {t : Program → Outcome → Bool}
    (hrun : ((parseItems s.scan.items).program.bind fun p =>
      (lower {} p).toOption.map fun out => out.problems.isEmpty && t p out) = some true) :
    ∃ p out, s.parse.program = some p ∧ lower {} p = .ok out ∧ out.problems = [] ∧
      t p out = true := by
  obtain ⟨p, hp, hlower⟩ := Option.bind_eq_some_iff.1 hrun
  obtain ⟨out, hout, hok⟩ := Option.map_eq_some_iff.1 hlower
  obtain ⟨hok, htest⟩ := Bool.and_eq_true_iff.1 hok
  rw [← parse_eq_parseItems hreports] at hp
  refine ⟨p, out, hp, ?_, List.isEmpty_iff.1 hok, htest⟩
  rcases hrun : lower {} p with _ | out'
  · rw [hrun] at hout
    cases hout
  · rw [hrun] at hout
    exact congrArg _ (Option.some.inj hout)

theorem accepted_sample : ∃ p out, sample.parse.program = some p ∧ lower {} p = .ok out ∧
    out.problems = [] := by
  have hreports : sample.scan.reports = [] := scan_reports_eq_nil (by decide +kernel)
  obtain ⟨p, out, hparse, hlower, hok, -⟩ :=
    exists_accepted (t := fun _ _ => true) hreports (by decide +kernel)
  exact ⟨p, out, hparse, hlower, hok⟩

theorem verify_module_sample : ∃ p out, sample.parse.program = some p ∧ lower {} p = .ok out ∧
    out.module.verify = none := by
  obtain ⟨p, out, hparse, hlower, hok⟩ := accepted_sample
  exact ⟨p, out, hparse, hlower, (verify_module hparse hlower hok).1⟩

/-! ## Types -/

/-- Every instruction of the module of an accepted program takes its operands, and every operand has
the type of what it refers to. -/
theorem wellTyped_module {s : Source} {p : Program} {o : Options} {out : Outcome}
    (hparse : s.parse.program = some p) (hlower : lower o p = .ok out) (hok : out.problems = []) :
    out.module.WellTyped := by
  obtain ⟨c, gs, values, hlowered⟩ := exists_lowered hparse hlower hok
  exact fun f hf => (hlowered.finished trivial f hf).wellTyped

theorem wellTyped_module_sample : ∃ p out, sample.parse.program = some p ∧
    lower {} p = .ok out ∧ out.module.WellTyped := by
  obtain ⟨p, out, hparse, hlower, hok⟩ := accepted_sample
  exact ⟨p, out, hparse, hlower, wellTyped_module hparse hlower hok⟩

/-! ## Dominance -/

/-- In every function of the module of an accepted program, every use of the result of an
instruction is dominated by the instruction. -/
theorem dominated_module {s : Source} {p : Program} {o : Options} {out : Outcome}
    (hparse : s.parse.program = some p) (hlower : lower o p = .ok out) (hok : out.problems = []) :
    ∀ f ∈ out.module.funcs, f.Dominated := by
  obtain ⟨c, gs, values, hlowered⟩ := exists_lowered hparse hlower hok
  exact fun f hf => (hlowered.finished trivial f hf).dominated

theorem dominated_module_sample : ∃ p out, sample.parse.program = some p ∧
    lower {} p = .ok out ∧ ∀ f ∈ out.module.funcs, f.Dominated := by
  obtain ⟨p, out, hparse, hlower, hok⟩ := accepted_sample
  exact ⟨p, out, hparse, hlower, dominated_module hparse hlower hok⟩

end Shader.Lowering
