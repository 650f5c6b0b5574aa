import Shader.Proofs.Lowering.Dumps

/-!
# Modules of programs that fail

A program that fails is lowered as far as possible unless the mode is strict. Every block of its
functions is ended all the same, wherever the body of a function failed. In the function that
computes the values of global variables, blocks may be left open: those made for a value that failed
while an operand was walked over that is evaluated only sometimes. If there is no such value, the
module can be verified and printed.
-/

namespace Shader.Lowering

open Shader.Ir

/-- Every block of the function is ended. -/
def IsTerminated (f : Func) : Prop := ∀ b ∈ f.blocks, ∃ t, b.term = some t

/-- In lenient mode every block of every function of a program is ended, whatever fails. So are
those of the function that computes the values of global variables, if every part of each value that
fails is evaluated; then verification finds nothing wrong with the module, and it has a text. -/
theorem terminated_lower {s : Source} {p : Program} {o : Options}
    (hparse : s.parse.program = some p) (hlenient : o.strict = false) :
    ∃ out, lower o p = .ok out ∧
      (∀ f ∈ out.module.funcs, f.id ≠ ⟨initName, 0⟩ → IsTerminated f) ∧
      (FailStraight (globalVars p) out.problems →
        (∀ f ∈ out.module.funcs, IsTerminated f) ∧ out.module.verify = none ∧
          ∃ text, out.module.print.2 = .ok text) := by
  obtain ⟨out, hrun, hcoded⟩ := lower_coded (o := o) (namesFree_of_parse hparse)
  obtain ⟨declared, c, gs, values, hfree, hcoded, -⟩ :=
    hcoded (by simp [Options.goesOn, hlenient])
  refine ⟨out, hrun, fun f hf hne => ?_, fun hfail => ?_⟩
  · rw [hcoded.funcs, List.mem_append] at hf
    rcases hf with hf | hf
    · exact (finished_of_bodies hcoded.bodies f hf).closed
    · exact absurd (hcoded.init f (by simpa using hf)).1 hne
  · have hsettled := hcoded.settled hfree hrun hfail
    have hregular : out.module.Regular := hsettled.regular
    exact ⟨fun f hf => (hcoded.finished hfail f hf).closed, hregular.verify_eq_none,
      hsettled.exists_print⟩

/-- A program in which a value and a choice in the body of a function fail. -/
def manyFailures : Source where
  bytes := "int a = b; int n = 1 && 2; int f() { return n ? 1 : c; }".toUTF8.toList

/-- Two definitions of the program fail, and its module can be verified and printed. -/
theorem terminated_manyFailures : ∃ p out, manyFailures.parse.program = some p ∧
    lower {} p = .ok out ∧ out.problems.length = 2 ∧
    (∀ f ∈ out.module.funcs, IsTerminated f) ∧ out.module.verify = none ∧
    ∃ text, out.module.print.2 = .ok text := by
  have hreports : manyFailures.scan.reports = [] := scan_reports_eq_nil (by decide +kernel)
  obtain ⟨p, hparse, htest⟩ := exists_parsed (t := fun p => (lower {} p).toOption.any fun out =>
    out.problems.length == 2 && (globalVars p).all fun v =>
      v.var.init.all isStraight || out.problems.all fun e => e.owner != .global v.var.name.text)
    hreports (by decide +kernel)
  obtain ⟨out, hrun, -, hclean⟩ := terminated_lower (o := {}) hparse rfl
  rw [hrun] at htest
  simp only [Except.toOption, Option.any_some, Bool.and_eq_true, beq_iff_eq, List.all_eq_true,
    Bool.or_eq_true, bne_iff_ne] at htest
  refine ⟨p, out, hparse, hrun, htest.1, hclean fun v hv => ?_⟩
  rintro ⟨failure, hmem⟩ x hx
  rcases htest.2 v hv with hstraight | hother
  · rw [hx] at hstraight
    exact hstraight
  · exact absurd rfl (hother _ hmem)

/-- A program in which an operand fails that is evaluated only sometimes. -/
def openOperand : Source where
  bytes := "int a = 1 && b; void f() { }".toUTF8.toList

/-- The module of this program has a block that is not ended, which verification finds and printing
meets. -/
theorem unterminated_openOperand : ∃ p out f b, openOperand.parse.program = some p ∧
    lower {} p = .ok out ∧ f ∈ out.module.funcs ∧ b ∈ f.blocks ∧ b.term = none ∧
    out.module.verify ≠ none ∧ ¬ ∃ text, out.module.print.2 = .ok text := by
  have hreports : openOperand.scan.reports = [] := scan_reports_eq_nil (by decide +kernel)
  obtain ⟨p, hparse, htest⟩ := exists_parsed (t := fun p => (lower {} p).toOption.any fun out =>
    (out.module.funcs.any fun f => f.blocks.any fun b => b.term.isNone) &&
      out.module.verify.isSome && !out.module.print.2.toBool) hreports (by decide +kernel)
  rcases hrun : lower {} p with fault | out
  · rw [hrun] at htest
    cases htest
  rw [hrun] at htest
  simp only [Except.toOption, Option.any_some, Bool.and_eq_true, List.any_eq_true,
    Option.isNone_iff_eq_none, Bool.not_eq_true'] at htest
  obtain ⟨⟨⟨f, hf, b, hb, hterm⟩, hverify⟩, hprint⟩ := htest
  refine ⟨p, out, f, b, hparse, hrun, hf, hb, hterm, ?_, ?_⟩
  · intro hnone
    rw [hnone] at hverify
    cases hverify
  · rintro ⟨text, htext⟩
    rw [htext] at hprint
    cases hprint

end Shader.Lowering
