import Shader.Command.Run
import Shader.Proofs.Lowering.Dumps

/-!
# What a compilation leaves behind

A run that compiles a file and ends with the code zero puts out the text of the module once: to the
output file, or to the standard output if there is none. Every other run puts out nothing, with one
exception. The output file is made before the module is printed, so that it is left empty if the
module has no text; this takes a function that is dumped before the passes.
-/

namespace Shader.Command

open Ir Lowering

/-! ## Output -/

section

variable {w : Surroundings} {c : Compilation} {target : String}

/-- What a compilation puts out beside what it says. -/
inductive Leaves (w : Surroundings) (c : Compilation) (target : String) (t : Transcript) :
    Prop where
  /-- the text of the module -/
  | text {m : Module} {text : String} (done : c.ending = .done m) (printed : m.print.2 = .ok text)
      (code : t.code = 0) (out : t.out = if target = "" then text else "")
      (written : t.written = if target = "" then none else some (target, text))
  /-- nothing -/
  | nothing (code : t.code ≠ 0) (out : t.out = "") (written : t.written = none)
  /-- an empty file, since the module has no text -/
  | empty {m : Module} {fault : Fault} (done : c.ending = .done m)
      (printed : m.print.2 = .error fault) (named : target ≠ "") (made : w.refusal? target = none)
      (code : t.code = 2) (out : t.out = "") (written : t.written = some (target, ""))

theorem leaves_writeModule {m : Module} (done : c.ending = .done m) :
    Leaves w c target (writeModule w target m).1 := by
  unfold writeModule
  by_cases hnamed : target = ""
  · simp only [hnamed, if_true]
    rcases hprint : m.print.2 with fault | text
    · exact .nothing (by simp) rfl rfl
    · exact .text done hprint rfl (by simp) (by simp)
  · simp only [hnamed, if_false]
    rcases hmade : w.refusal? target with _ | cause
    · rcases hprint : m.print.2 with fault | text
      · exact .empty done hprint hnamed hmade rfl rfl rfl
      · exact .text done hprint rfl (by simp [hnamed]) (by simp [hnamed])
    · exact .nothing (by simp [Transcript.error]) rfl rfl

theorem leaves_transcript (c : Compilation) (trace : Bool) :
    Leaves w c target (c.transcript w target trace) := by
  have hsaid : ∀ {t : Transcript} (err : String), Leaves w c target t →
      Leaves w c target { t with err } := by
    intro t err h
    cases h with
    | text done printed code out written => exact .text done printed code out written
    | nothing code out written => exact .nothing code out written
    | empty done printed named made code out written =>
      exact .empty done printed named made code out written
  unfold Compilation.transcript
  rcases hending : c.ending with _ | fault | m
  · exact hsaid _ (.nothing (by simp) rfl rfl)
  · exact hsaid _ (.nothing (by simp) rfl rfl)
  · exact hsaid _ (leaves_writeModule hending)

end

/-! ## Compilation -/

/-- A file with a name. -/
def sourceOf (file : String) (bytes : List UInt8) : Source := { file, bytes, failure := none }

theorem exists_of_verifyPhase {file log : String} {o : PassOptions} {m m' : Module}
    (h : (verifyPhase file log o m).ending = .done m') :
    ∃ after, m.runPasses defaultPasses o = (.ok (), after) ∧ after.module = m' := by
  unfold verifyPhase at h
  rcases hrun : m.runPasses defaultPasses o with ⟨⟨fault | text⟩ | _, after⟩
  · rw [hrun] at h
    cases h
  · rw [hrun] at h
    cases h
  · rw [hrun] at h
    dsimp only at h
    rcases hverify : after.module.verify with _ | text
    · rw [hverify] at h
      cases h
      exact ⟨after, rfl, rfl⟩
    · rw [hverify] at h
      cases h

theorem compile_of_scan {file : String} {bytes : List UInt8} {o : CompileOptions} {p : Program}
    (hscan : (sourceOf file bytes).scan.reports = [])
    (hparse : (sourceOf file bytes).parse.program = some p) :
    compile file bytes o = lowerPhase file o p := by
  rw [parse_eq_parseItems hscan] at hparse
  unfold compile
  dsimp only
  rw [show (parseItems ({ file, bytes } : Source).scan.items).program = some p from hparse]
  dsimp only
  exact if_pos (List.isEmpty_iff.2 hscan)

/-- A compilation that ends with a module has parsed and lowered the text and has run the passes. -/
theorem exists_of_compile {file : String} {bytes : List UInt8} {o : CompileOptions} {m : Module}
    (h : (compile file bytes o).ending = .done m) : ∃ p out after,
      (sourceOf file bytes).parse.program = some p ∧
      lower { strict := o.strict } p = .ok out ∧ out.problems = [] ∧
      out.module.runPasses defaultPasses o.passes = (.ok (), after) ∧ after.module = m := by
  unfold compile at h
  dsimp only at h
  split at h
  · cases h
  next p hparse =>
    split at h
    next hscan =>
      have hreports : (sourceOf file bytes).scan.reports = [] := List.isEmpty_iff.1 hscan
      have hparsed : (sourceOf file bytes).parse.program = some p := by
        rw [parse_eq_parseItems hreports]
        exact hparse
      unfold lowerPhase at h
      split at h
      · cases h
      next out hlower =>
        dsimp only at h
        split at h
        next hok =>
          obtain ⟨after, hrun, hafter⟩ := exists_of_verifyPhase h
          exact ⟨p, out, after, hparsed, hlower, List.isEmpty_iff.1 hok, hrun, hafter⟩
        · cases h
    · cases h

/-- The module of a compilation has the text that it has without dumps, unless it has none since a
function was dumped before a pass that took locals out of it. -/
theorem print_compile {file : String} {bytes : List UInt8} {o : CompileOptions} {m : Module}
    (h : (compile file bytes o).ending = .done m) : ∃ p out plain text,
      (sourceOf file bytes).parse.program = some p ∧
      lower { strict := o.strict } p = .ok out ∧ out.problems = [] ∧
      out.module.runPasses defaultPasses {} = (.ok (), plain) ∧ plain.module.print.2 = .ok text ∧
      (∀ text', m.print.2 = .ok text' → text' = text) ∧
      (∀ fault, m.print.2 = .error fault → ∃ f ∈ out.module.funcs, o.passes.before f = true ∧
        ¬ (f.prune []).unnamed <+: f.unnamed) := by
  obtain ⟨p, out, after, hparse, hlower, hok, hrun, rfl⟩ := exists_of_compile h
  obtain ⟨plain, text, hplain, htext, hsame, hiff⟩ :=
    (settled_module hparse hlower hok).print_runPasses o.passes
  refine ⟨p, out, plain, text, hparse, hlower, hok, hplain, htext, ?_, ?_⟩
  · intro text' htext'
    exact hsame after text' hrun htext'
  · intro fault hfault
    by_contra hnone
    obtain ⟨after', hrun', htext'⟩ := hiff.2 fun f hf hbefore => by
      by_contra hharm
      exact hnone ⟨f, hf, hbefore, hharm⟩
    obtain rfl : after = after' := congrArg Prod.snd (hrun.symm.trans hrun')
    cases hfault.symm.trans htext'

/-! ## Runs -/

namespace Settings

/-- A file is compiled, and nothing else is asked for. -/
structure Compiles (s : Settings) : Prop where
  /-- not the version -/
  version : s.isOn .version = false
  /-- no check of the tools -/
  doctor : s.isOn .doctor = false
  /-- no tokens -/
  emitTokens : s.isOn .emitTokens = false
  /-- no tree -/
  emitAst : s.isOn .emitAst = false
  /-- no layout -/
  emitLayout : s.isOn .emitLayout = false

/-- How to compile. -/
def compileOptions (s : Settings) : CompileOptions where
  strict := s.isOn .strict
  passes :=
    { dumpBefore := s.value .dumpBefore, dumpAfter := s.value .dumpAfter
      dumpFunc := s.value .dumpFunc, verify := s.isOn .irVerify }

end Settings

section

variable {w : Surroundings} {args rest : List String} {s : Settings} {file : String}

theorem run_eq_compileRun (hflags : readFlags {} args = .ok (s, file :: rest))
    (hmode : s.Compiles) : run w args = compileRun w s file (targetOf s file) := by
  rw [run, hflags]
  simp [runWith, hmode.version, hmode.doctor, hmode.emitTokens, hmode.emitAst, hmode.emitLayout]

/-- A run that compiles a file and ends with the code zero puts out the text of the module, which
does not depend on dumps, to its target: a file, or the standard output if the target has no name.
If it ends with another code, nothing is put out, except that the target is left empty if a function
that is dumped before the pass has locals without names that go in front of some that stay. -/
theorem output_run (hflags : readFlags {} args = .ok (s, file :: rest)) (hmode : s.Compiles) :
    ((run w args).code = 0 → ∃ bytes p out plain text, w.read file = .contents bytes ∧
      (sourceOf file bytes).parse.program = some p ∧
      lower { strict := s.isOn .strict } p = .ok out ∧ out.problems = [] ∧
      out.module.runPasses defaultPasses {} = (.ok (), plain) ∧ plain.module.print.2 = .ok text ∧
      (run w args).out = (if targetOf s file = "" then text else "") ∧
      (run w args).written =
        if targetOf s file = "" then none else some (targetOf s file, text)) ∧
    ((run w args).code ≠ 0 → (run w args).out = "" ∧ ((run w args).written = none ∨
      targetOf s file ≠ "" ∧ (run w args).written = some (targetOf s file, "") ∧
      ∃ bytes p out f, w.read file = .contents bytes ∧
        (sourceOf file bytes).parse.program = some p ∧
        lower { strict := s.isOn .strict } p = .ok out ∧ f ∈ out.module.funcs ∧
        s.compileOptions.passes.before f = true ∧ ¬ (f.prune []).unnamed <+: f.unnamed)) := by
  rw [run_eq_compileRun hflags hmode]
  unfold compileRun
  rcases hread : w.read file with cause | cause | bytes
  · refine ⟨fun hzero => ?_, fun _ => ⟨rfl, .inl rfl⟩⟩
    cases hzero
  · refine ⟨fun hzero => ?_, fun _ => ⟨rfl, .inl rfl⟩⟩
    cases hzero
  have hleaves : Leaves w (compile file bytes s.compileOptions) (targetOf s file) _ :=
    leaves_transcript _ (s.isOn .trace)
  -- the text is put out, or nothing, or the target has been made before printing broke
  cases hleaves with
  | text done printed code out written =>
    obtain ⟨p, outcome, plain, text, hparse, hlower, hok, hplain, htext, hsame, -⟩ :=
      print_compile done
    obtain rfl := hsame _ printed
    exact ⟨fun _ => ⟨bytes, p, outcome, plain, _, rfl, hparse, hlower, hok, hplain, htext, out,
      written⟩, fun hne => absurd code hne⟩
  | nothing code out written => exact ⟨fun hzero => absurd hzero code, fun _ => ⟨out, .inl written⟩⟩
  | empty done printed named made code out written =>
    obtain ⟨p, outcome, plain, text, hparse, hlower, -, -, -, -, hharm⟩ := print_compile done
    obtain ⟨f, hf, hbefore, hprefix⟩ := hharm _ printed
    refine ⟨fun hzero => ?_, fun _ => ⟨out, .inr ⟨named, written, bytes, p, outcome, f, rfl, hparse,
      hlower, hf, hbefore, hprefix⟩⟩⟩
    cases hzero.symm.trans code

end

/-! ### A program whose dump breaks its text -/

/-- Surroundings with one file, in which every file can be made. -/
def holding (source : Source) : Surroundings where
  runtime := ⟨"go1.24.0", true⟩
  duration := fun _ => ""
  read := fun _ => .contents source.bytes
  refusal? := fun _ => none

/-- The settings with a file for the output and a pass around which functions are dumped. -/
def dumpSettings (around : Field) : Settings :=
  (({} : Settings).setField around "*").setField .output "out.ll"

/-- A module that a text is seen to become when it is compiled. -/
theorem exists_compiled {file : String} {source : Source} {o : CompileOptions}
    (hscan : (sourceOf file source.bytes).scan.reports = []) {t : Module → Bool}
    (hrun : ((parseItems (sourceOf file source.bytes).scan.items).program.map fun p =>
      match (lowerPhase file o p).ending with
      | .done m => t m
      | _ => false) = some true) :
    ∃ m, (compile file source.bytes o).ending = .done m ∧ t m = true := by
  obtain ⟨p, hparse, htest⟩ := exists_parsed hscan hrun
  rw [compile_of_scan hscan hparse]
  rcases hending : (lowerPhase file o p).ending with _ | fault | m
  · rw [hending] at htest
    cases htest
  · rw [hending] at htest
    cases htest
  · rw [hending] at htest
    exact ⟨m, rfl, htest⟩

/-- A compilation that ends with a module puts out what writing the module does. -/
theorem compileRun_done {w : Surroundings} {s : Settings} {file target : String}
    {bytes : List UInt8} {m : Module} (hread : w.read file = .contents bytes)
    (hdone : (compile file bytes s.compileOptions).ending = .done m) :
    ∃ err, compileRun w s file target = { (writeModule w target m).1 with err } := by
  unfold compileRun
  rw [hread]
  change ∃ err, (compile file bytes s.compileOptions).transcript w target (s.isOn .trace) = _
  unfold Compilation.transcript
  rw [hdone]
  exact ⟨_, rfl⟩

theorem scan_deadFile : (sourceOf "a.glsl" deadIncrement.bytes).scan.reports = [] :=
  scan_reports_eq_nil (by decide +kernel)

theorem compiles_dumpSettings (around : Field) : (dumpSettings around).Compiles :=
  ⟨rfl, rfl, rfl, rfl, rfl⟩

/-- Dumped after the pass, the program has a text, which goes to the output file. -/
theorem output_run_deadIncrement : ∃ text,
    (run (holding deadIncrement) ["-dump-after", "*", "-o", "out.ll", "a.glsl"]).code = 0 ∧
    (run (holding deadIncrement) ["-dump-after", "*", "-o", "out.ll", "a.glsl"]).written =
      some ("out.ll", text) := by
  have hflags : readFlags {} ["-dump-after", "*", "-o", "out.ll", "a.glsl"] =
      .ok (dumpSettings .dumpAfter, ["a.glsl"]) := rfl
  have hmode := compiles_dumpSettings .dumpAfter
  obtain ⟨m, hdone, hprint⟩ := exists_compiled (t := fun m => m.print.2.toBool)
    (o := (dumpSettings .dumpAfter).compileOptions) scan_deadFile (by decide +kernel)
  have hcode : (run (holding deadIncrement) ["-dump-after", "*", "-o", "out.ll", "a.glsl"]).code =
      0 := by
    obtain ⟨err, hrun⟩ : ∃ err, compileRun (holding deadIncrement) (dumpSettings .dumpAfter)
        "a.glsl" "out.ll" = _ := compileRun_done rfl hdone
    rw [run_eq_compileRun hflags hmode, show targetOf _ _ = "out.ll" from rfl, hrun]
    rcases hprinted : m.print.2 with fault | text
    · rw [hprinted] at hprint
      cases hprint
    · simp [writeModule, hprinted, holding]
  obtain ⟨_, _, _, _, text, -, -, -, -, -, -, -, hwritten⟩ := (output_run hflags hmode).1 hcode
  exact ⟨text, hcode, hwritten⟩

/-- Dumped before the pass, the run fails, and leaves an empty output file. -/
theorem output_left_deadIncrement :
    (run (holding deadIncrement) ["-dump-before", "*", "-o", "out.ll", "a.glsl"]).code = 2 ∧
    (run (holding deadIncrement) ["-dump-before", "*", "-o", "out.ll", "a.glsl"]).written =
      some ("out.ll", "") := by
  have hflags : readFlags {} ["-dump-before", "*", "-o", "out.ll", "a.glsl"] =
      .ok (dumpSettings .dumpBefore, ["a.glsl"]) := rfl
  obtain ⟨m, hdone, hprint⟩ := exists_compiled (t := fun m => !m.print.2.toBool)
    (o := (dumpSettings .dumpBefore).compileOptions) scan_deadFile (by decide +kernel)
  obtain ⟨err, hrun⟩ : ∃ err, compileRun (holding deadIncrement) (dumpSettings .dumpBefore)
      "a.glsl" "out.ll" = _ := compileRun_done rfl hdone
  rw [run_eq_compileRun hflags (compiles_dumpSettings _), show targetOf _ _ = "out.ll" from rfl,
    hrun]
  rcases hprinted : m.print.2 with fault | text
  · simp [writeModule, hprinted, holding]
  · rw [hprinted] at hprint
    cases hprint

end Shader.Command
