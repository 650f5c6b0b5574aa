import Shader.Proofs.Ir.Dumping
import Shader.Proofs.Lowering.Rounds
import Shader.Proofs.Lowering.Soundness

/-!
# Dumps of accepted programs

The module of an accepted program is one to which passes can be applied, since its functions and
global variables are told apart and none has a number. So it has a text when the passes have been
run, and it has the same text, or none, when functions are dumped in between.
-/

namespace Shader.Lowering

open Shader.Ir

/-! ## Names of global variables -/

/-- Variables that are told apart by how many before them have their names. -/
structure Told (globals : List Global) : Prop where
  /-- they are told apart -/
  nodup : (globals.map Global.id).Nodup
  /-- each counts fewer than have its name -/
  below : ∀ g ∈ globals, g.id.copy < (globals.filter fun h => h.id.name = g.id.name).length

theorem Told.nil : Told [] := ⟨List.nodup_nil, nofun⟩

/-- The next variable with a name is told apart from the others. -/
theorem Told.next {globals : List Global} (h : Told globals) {g : Global}
    (hg : ∃ name, g.id = nextGlobal globals name) : Told (globals ++ [g]) := by
  obtain ⟨name, hid⟩ := hg
  have hcopy : g.id.copy = (globals.filter fun h => h.id.name = g.id.name).length := by
    rw [hid]
    rfl
  refine ⟨?_, fun x hx => ?_⟩
  · rw [List.map_append, List.nodup_append]
    refine ⟨h.nodup, List.nodup_singleton _, fun a ha b hb heq => ?_⟩
    obtain ⟨x, hx, rfl⟩ := List.mem_map.1 ha
    obtain rfl := List.mem_singleton.1 hb
    have := h.below x hx
    rw [heq, hcopy] at this
    exact Nat.lt_irrefl _ this
  · rw [List.filter_append, List.length_append]
    rcases List.mem_append.1 hx with hx | hx
    · exact Nat.lt_add_right _ (h.below x hx)
    · obtain rfl := List.mem_singleton.1 hx
      simp [hcopy]

theorem Told.declare {g : Globals} (h : Told g.globals) (v : GlobalVar) :
    Told (g.declare v).2.globals := by
  rw [globals_declare]
  exact h.next ⟨_, rfl⟩

theorem Told.walk {α : Type} {o : Options} {act : Lower α} {g g' : Globals} {r : Except Failure α}
    (h : Told g.globals) (hrun : g.walk o act = .ok (r, g')) : Told g'.globals := by
  rwa [globals_walk hrun]

theorem Told.add {o : Options} {Γ : Signatures} {v : GlobalVar} {g g' : Globals}
    {r : Except Failure Unit} (hg : Told g.globals) (h : g.add Γ o v = .ok (r, g')) :
    Told g'.globals := by
  cases adds_of_add h with
  | bad => exact hg
  | repeated => exact hg
  | plain => exact hg.declare v
  | failed _ _ hwalk => exact (hg.walk hwalk).declare v
  | valued _ _ hwalk _ hstore => exact ((hg.walk hwalk).declare v).walk hstore

theorem Told.synthesize {o : Options} {g : Globals} (h : Told g.globals) :
    Told (g.synthesize o).globals := by
  unfold Globals.synthesize
  split
  · exact h.declare implicitPosition
  · exact h

/-- The global variables of a module are told apart, and nothing has a number. -/
theorem told_lower {o : Options} {p : Program} {out : Outcome} (h : lower o p = .ok out) :
    Told out.module.globals ∧ out.module.numbers = [] := by
  obtain ⟨rounds⟩ := exists_rounds h
  obtain ⟨-, -, hglobals, -⟩ := addGlobals_induction (P := fun _ g _ => Told g.globals)
    (fun _ _ _ _ _ _ h hadd => h.add hadd) [] Told.nil rounds.added
  have hfinal : Told rounds.final.globals := by
    rcases rounds.final_cases with ⟨-, hfinish⟩ | ⟨-, hfinal⟩
    · rw [(finish_frame hfinish).1]
      exact hglobals.synthesize
    · rwa [hfinal]
  exact ⟨rounds.globals_eq ▸ hfinal, rounds.numbers_eq⟩

/-! ## Functions -/

theorem BodyOf.map_id {O : Outside} {o : Options} {c : Context} {fs : List FuncDecl}
    {gs : List Func} (h : List.Forall₂ (BodyOf O o c) fs gs) :
    gs.map Func.id = fs.map fun f => (declaration f).id := by
  induction h with
  | nil => rfl
  | cons hbody _ ih => rw [List.map_cons, List.map_cons, hbody.id, ih]

section

variable {o : Options} {declared : List FuncDecl} {clean : Prop} {out : Outcome} {c : Context}
  {gs : List Func} {values : Option Func} (h : Coded o declared clean out c gs values)
  (hfree : NamesFree declared)
include h hfree

/-- The functions of a module are told apart by their names. -/
theorem Coded.nodup_ids : (out.module.funcs.map Func.id).Nodup := by
  have hids := BodyOf.map_id h.bodies
  have hnames : (gs.map Func.id).Nodup := by
    rw [hids]
    have := h.declarable.names
    refine List.Nodup.of_map FuncId.name ?_
    rwa [List.map_map]
  rw [h.funcs, List.map_append, List.nodup_append]
  refine ⟨hnames, ?_, fun a ha b hb heq => ?_⟩
  · cases values with
    | none => exact List.nodup_nil
    | some f => exact List.nodup_singleton _
  · obtain ⟨f, hf, rfl⟩ := List.mem_map.1 hb
    rw [hids] at ha
    obtain ⟨d, hd, rfl⟩ := List.mem_map.1 ha
    rw [(h.init f (by simpa using hf)).1] at heq
    exact hfree d hd (congrArg FuncId.name heq)

/-- Passes can be applied to a module in which all functions are finished. -/
theorem Coded.settled {p : Program} (hlower : lower o p = .ok out) (hclean : clean) :
    out.module.Settled := by
  have hfinished := h.finished hclean
  obtain ⟨htold, hnumbers⟩ := told_lower hlower
  exact {
    regular := fun f hf => (hfinished f hf).regular
    tidy := fun f hf => (hfinished f hf).tidy
    wellTyped := fun f hf => (hfinished f hf).wellTyped
    dominated := fun f hf => (hfinished f hf).dominated
    ids := h.nodup_ids hfree
    globals := htold.nodup
    numbers := hnumbers }

end

/-- Passes can be applied to the module of an accepted program. -/
theorem settled_module {s : Source} {p : Program} {o : Options} {out : Outcome}
    (hparse : s.parse.program = some p) (hlower : lower o p = .ok out) (hok : out.problems = []) :
    out.module.Settled := by
  obtain ⟨c, gs, values, hlowered⟩ := exists_lowered hparse hlower hok
  exact hlowered.toCoded.settled (namesFree_of_parse hparse) hlower trivial

/-! ## Texts -/

/-- The module of an accepted program has a text when the passes have been run. However functions
are dumped in between, it has that text or none afterwards, and it has it exactly if in every
function that is dumped before the pass the locals without names that stay are counted in front of
those that go. -/
theorem print_dumped {s : Source} {p : Program} {o : Options} {out : Outcome}
    (hparse : s.parse.program = some p) (hlower : lower o p = .ok out) (hok : out.problems = [])
    (d : PassOptions) : ∃ plain text,
      out.module.runPasses defaultPasses {} = (.ok (), plain) ∧ plain.module.print.2 = .ok text ∧
      (∀ after text', out.module.runPasses defaultPasses d = (.ok (), after) →
        after.module.print.2 = .ok text' → text' = text) ∧
      ((∃ after, out.module.runPasses defaultPasses d = (.ok (), after) ∧
          after.module.print.2 = .ok text) ↔
        ∀ f ∈ out.module.funcs, d.before f = true → (f.prune []).unnamed <+: f.unnamed) :=
  (settled_module hparse hlower hok).print_runPasses d

/-- A program with a loop that is left before it counts, so that what counts is taken out. -/
def deadIncrement : Source where
  bytes := "int f(int a) { for (;; a++) { break; } return a; }".toUTF8.toList

theorem scan_deadIncrement : deadIncrement.scan.reports = [] :=
  scan_reports_eq_nil (by decide +kernel)

/-- Dumped after the pass, the program has the text that it has without dumps. -/
theorem print_dumped_deadIncrement : ∃ p out plain after text,
    deadIncrement.parse.program = some p ∧ lower {} p = .ok out ∧
    out.module.runPasses defaultPasses {} = (.ok (), plain) ∧ plain.module.print.2 = .ok text ∧
    out.module.runPasses defaultPasses { dumpAfter := "*" } = (.ok (), after) ∧
    after.module.print.2 = .ok text := by
  obtain ⟨p, out, hparse, hlower, hok, -⟩ :=
    exists_accepted (t := fun _ _ => true) scan_deadIncrement (by decide +kernel)
  obtain ⟨plain, text, hplain, htext, -, hsame⟩ :=
    print_dumped hparse hlower hok { dumpAfter := "*" }
  obtain ⟨after, hafter, htext'⟩ := hsame.2 fun f _ hbefore => by cases hbefore
  exact ⟨p, out, plain, after, text, hparse, hlower, hplain, htext, hafter, htext'⟩

/-- Dumped before the pass, it has none. -/
theorem dump_breaks_deadIncrement : ∃ p out plain text after fault,
    deadIncrement.parse.program = some p ∧ lower {} p = .ok out ∧ out.problems = [] ∧
    out.module.runPasses defaultPasses {} = (.ok (), plain) ∧ plain.module.print.2 = .ok text ∧
    out.module.runPasses defaultPasses { dumpBefore := "*" } = (.ok (), after) ∧
    after.module.print.2 = .error fault := by
  obtain ⟨p, out, hparse, hlower, hok, htest⟩ := exists_accepted (t := fun _ out =>
      (out.module.runPasses defaultPasses { dumpBefore := "*" }).1.toBool &&
        !(out.module.runPasses defaultPasses { dumpBefore := "*" }).2.module.print.2.toBool)
    scan_deadIncrement (by decide +kernel)
  obtain ⟨plain, text, hplain, htext, -, -⟩ :=
    (settled_module hparse hlower hok).print_runPasses {}
  rcases hrun : out.module.runPasses defaultPasses { dumpBefore := "*" } with ⟨e | _, after⟩
  · rw [hrun] at htest
    cases htest
  · rw [hrun] at htest
    rcases hprint : after.module.print.2 with fault | text'
    · exact ⟨p, out, plain, text, after, fault, hparse, hlower, hok, hplain, htext, hrun, hprint⟩
    · dsimp only at htest
      rw [hprint] at htest
      cases htest

end Shader.Lowering
