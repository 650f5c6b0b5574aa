import Shader.Proofs.Lowering.Oblivious
import Shader.Proofs.Lowering.Soundness

/-!
# Bodies are lowered on their own

In lenient mode, the code of a function depends on its own definition, on the signatures of the
functions of the program and on its global variables. Where the other functions stand, what their
bodies are and whether these fail does not matter.
-/

namespace Shader.Lowering

open Ir

/-! ## Signatures -/

/-- Every parameter has values. -/
def Signature.isPassable (s : Signature) : Bool := s.params.all fun p => p.type ≠ .void

theorem isPassable_iff {f : FuncDecl} :
    (signatureOf f).isPassable = true ↔ ∀ p ∈ f.params, p.type ≠ .void := by
  simp only [Signature.isPassable, signatureOf, List.all_map, List.all_eq_true, Function.comp,
    decide_eq_true_eq]
  rfl

theorem badParam?_eq_none_iff {f : FuncDecl} :
    badParam? f.params = none ↔ (signatureOf f).isPassable = true := by
  simp [badParam?, isPassable_iff]

/-- In lenient mode all functions are declared that can be called, if their names differ. -/
theorem declareFuncs_lenient {o : Options} (hlenient : o.strict = false) (fs : List FuncDecl) :
    ∀ (declared : List FuncDecl) (problems : List Problem),
      ((declared ++ fs).map fun f => f.name.text).Nodup → declareFuncs o declared problems fs =
        (declared ++ fs.filter fun f => (signatureOf f).isPassable,
          problems ++ fs.filterMap fun f => (badParam? f.params).map (Problem.mk .signature)) := by
  have hgo : ∀ problems, o.goesOn problems = true := by simp [Options.goesOn, hlenient]
  induction fs with
  | nil => simp [declareFuncs]
  | cons f fs ih =>
    intro declared problems hnames
    have hnew : declared.find? (fun g => g.name.text = f.name.text) = none := by
      rw [List.find?_eq_none]
      intro g hg
      rw [List.map_append, List.nodup_append] at hnames
      simpa using hnames.2.2 _ (List.mem_map_of_mem hg) _ (List.mem_map_of_mem List.mem_cons_self)
    rw [declareFuncs, if_pos (hgo _), declareFunc, hnew]
    dsimp only
    rcases hbad : badParam? f.params with _ | failure
    · dsimp only
      rw [ih (declared ++ [f]) problems (by simpa using hnames)]
      simp [badParam?_eq_none_iff.1 hbad, hbad]
    · have hnot : (signatureOf f).isPassable = false := by
        rw [← Bool.not_eq_true, ← badParam?_eq_none_iff, hbad]
        simp
      have hrest : ((declared ++ fs).map fun f => f.name.text).Nodup :=
        hnames.sublist (((List.sublist_cons_self f fs).append_left declared).map _)
      dsimp only
      rw [ih declared _ hrest]
      simp [hnot, hbad]

theorem find?_eq_some_iff_mem {sigs : List Signature} (hnames : (sigs.map Signature.name).Nodup)
    {name : String} {sig : Signature} :
    sigs.find? (fun s => s.name = name) = some sig ↔ sig ∈ sigs ∧ sig.name = name := by
  refine ⟨fun h => ⟨List.mem_of_find?_eq_some h, by simpa using List.find?_some h⟩, ?_⟩
  rintro ⟨hmem, rfl⟩
  induction sigs with
  | nil => cases hmem
  | cons s sigs ih =>
    rw [List.map_cons, List.nodup_cons] at hnames
    rcases List.mem_cons.1 hmem with rfl | hmem
    · simp
    · have hne : s.name ≠ sig.name := fun heq => hnames.1 (heq ▸ List.mem_map_of_mem hmem)
      rw [List.find?_cons_of_neg (by simpa using hne)]
      exact ih hnames.2 hmem

/-- The order of functions does not matter for calls. -/
theorem signatures_perm {fs fs' : List FuncDecl}
    (hsigs : (fs.map signatureOf).Perm (fs'.map signatureOf))
    (hnames : (fs.map fun f => f.name.text).Nodup) : signatures fs = signatures fs' := by
  have hlookup : ∀ (fs : List FuncDecl) (name : String),
      signatures fs name = (fs.map signatureOf).find? fun s => s.name = name := by
    intro fs name
    rw [List.find?_map]
    rfl
  have hkeys : ((fs.map signatureOf).map Signature.name).Nodup := by
    rwa [List.map_map]
  funext name
  rw [hlookup, hlookup]
  apply Option.ext
  intro sig
  rw [find?_eq_some_iff_mem hkeys, find?_eq_some_iff_mem ((hsigs.map _).nodup_iff.1 hkeys),
    hsigs.mem_iff]

/-! ## Bodies -/

/-- The code that a function has become. -/
def Outcome.codeOf (out : Outcome) (f : FuncDecl) : List Func :=
  out.module.funcs.filter fun g => g.id = ⟨f.name.text, 0⟩

/-- The problems of the body of a function. -/
def Outcome.problemsOf (out : Outcome) (f : FuncDecl) : List Problem :=
  out.problems.filter fun e => e.owner = .func f.name.text

section

variable {o : Options} {c : Context} {fs : List FuncDecl} {f : FuncDecl} {out out' : Outcome}

theorem filter_noted {α : Type} {owner owner' : Owner} (r : Except Failure α) :
    (noted owner r).filter (fun e => e.owner = owner') =
      if owner = owner' then noted owner r else [] := by
  cases r with
  | error failure =>
    rw [noted, List.filter_singleton]
    by_cases h : owner = owner' <;> simp [h]
  | ok _ => simp [noted]

/-- The bodies of other functions add nothing to a function. -/
theorem lowerBodies_others (hlenient : o.strict = false)
    (hids : ∀ h ∈ fs, ∀ r g bound, lowerBody o c h = .ok (r, g, bound) → g.id = ⟨h.name.text, 0⟩)
    (hname : f.name.text ∉ fs.map fun f => f.name.text) (hrun : lowerBodies o c out fs = .ok out') :
    out'.codeOf f = out.codeOf f ∧ out'.problemsOf f = out.problemsOf f := by
  induction fs generalizing out with
  | nil =>
    cases hrun
    exact ⟨rfl, rfl⟩
  | cons h fs ih =>
    rw [List.map_cons, List.mem_cons, not_or] at hname
    rw [lowerBodies_cons (by simp [Options.goesOn, hlenient])] at hrun
    rcases hbody : lowerBody o c h with e | ⟨r, g, bound⟩
    · rw [hbody] at hrun
      cases hrun
    rw [hbody] at hrun
    have hid := hids h List.mem_cons_self r g bound hbody
    obtain ⟨hcode, hproblems⟩ := ih (fun h hh => hids h (List.mem_cons_of_mem _ hh)) hname.2 hrun
    rw [hcode, hproblems]
    simp [Outcome.codeOf, Outcome.problemsOf, filter_noted, hid, Ne.symm hname.1]

/-- A function becomes what its own body becomes. -/
theorem lowerBodies_own (hlenient : o.strict = false)
    (hids : ∀ h ∈ fs, ∀ r g bound, lowerBody o c h = .ok (r, g, bound) → g.id = ⟨h.name.text, 0⟩)
    (hnames : (fs.map fun f => f.name.text).Nodup) (hf : f ∈ fs)
    (hrun : lowerBodies o c out fs = .ok out') :
    ∃ r g bound, lowerBody o c f = .ok (r, g, bound) ∧ out'.codeOf f = out.codeOf f ++ [g] ∧
      out'.problemsOf f = out.problemsOf f ++ noted (.func f.name.text) r := by
  induction fs generalizing out with
  | nil => cases hf
  | cons h fs ih =>
    rw [List.map_cons, List.nodup_cons] at hnames
    rw [lowerBodies_cons (by simp [Options.goesOn, hlenient])] at hrun
    rcases hbody : lowerBody o c h with e | ⟨r, g, bound⟩
    · rw [hbody] at hrun
      cases hrun
    rw [hbody] at hrun
    have hid := hids h List.mem_cons_self r g bound hbody
    have hids' := fun h hh => hids h (List.mem_cons_of_mem _ hh)
    rcases List.mem_cons.1 hf with rfl | hf
    · obtain ⟨hcode, hproblems⟩ := lowerBodies_others hlenient hids' hnames.1 hrun
      refine ⟨r, g, bound, hbody, ?_, ?_⟩
      · rw [hcode]
        simp [Outcome.codeOf, hid]
      · rw [hproblems]
        simp [Outcome.problemsOf, filter_noted]
    · have hne : h.name.text ≠ f.name.text := fun heq => hnames.1 (heq ▸ List.mem_map_of_mem hf)
      obtain ⟨r', g', bound', hown, hcode, hproblems⟩ := ih hids' hnames.2 hf hrun
      refine ⟨r', g', bound', hown, ?_, ?_⟩
      · rw [hcode]
        simp [Outcome.codeOf, hid, hne]
      · rw [hproblems]
        simp [Outcome.problemsOf, filter_noted, hne]

end

/-! ## Programs -/

section

variable {o : Options} {p p' : Program} {out out' : Outcome}

/-- In lenient mode the function that computes the values of global variables is always ended. -/
theorem Rounds.finish_eq (r : Rounds o p out) (hlenient : o.strict = false) :
    (r.globals.synthesize o).finish = .ok r.final := by
  rw [← r.finished, if_pos (by simp [Options.goesOn, hlenient])]

/-- The functions that can be called are declared, and the others are the first problems. -/
theorem Rounds.signed_eq (r : Rounds o p out) (hlenient : o.strict = false)
    (hnames : ((funcDecls p).map fun f => f.name.text).Nodup) :
    r.declared = (funcDecls p).filter (fun f => (signatureOf f).isPassable) ∧
      r.unsigned = (funcDecls p).filterMap fun f =>
        (badParam? f.params).map (Problem.mk .signature) := by
  have hsigned := declareFuncs_lenient hlenient (funcDecls p) [] [] hnames
  rw [r.signed] at hsigned
  exact Prod.mk.inj hsigned

theorem Rounds.mem_problems (r : Rounds o p out) (hlenient : o.strict = false)
    (hnames : ((funcDecls p).map fun f => f.name.text).Nodup) {f : FuncDecl} {failure : Failure}
    (hf : f ∈ funcDecls p) (hbad : badParam? f.params = some failure) :
    ⟨.signature, failure⟩ ∈ out.problems := by
  apply r.problems_grow.subset
  apply (addGlobals_grows r.added).subset
  rw [(r.signed_eq hlenient hnames).2, List.mem_filterMap]
  exact ⟨f, hf, by rw [hbad]; rfl⟩

/-- The bodies are lowered in a sound context. -/
theorem Rounds.sound (r : Rounds o p out) (hlenient : o.strict = false)
    (hfree : NamesFree (funcDecls p)) :
    ContextSound (outsideOf r.declared r.final.globals r.final.init.isSome) r.context ∧
      ∀ d, r.final.init = some d → d.func.id = ⟨initName, 0⟩ := by
  have hdeclared : NamesFree r.declared := by
    rw [show r.declared = (declareFuncs o [] [] (funcDecls p)).1 by rw [r.signed]]
    exact hfree.declareFuncs
  obtain ⟨g, problems, hadd, hg, -⟩ := GlobalsSound.addGlobals (o := o) hdeclared (globalVars p)
    r.unsigned (show GlobalsSound r.declared o True _ from .start _)
  obtain ⟨rfl, -⟩ := Prod.mk.inj (Except.ok.inj (hadd.symm.trans r.added))
  obtain ⟨g', hfinish, hglobals, hscopes, -, hinit⟩ := hg.synthesize.finish
  obtain rfl := Except.ok.inj (hfinish.symm.trans (r.finish_eq hlenient))
  refine ⟨⟨signatures_sound hdeclared, fun f => ?_, ?_, fun hhas => ?_⟩, fun d hd => (hinit d hd).1⟩
  · rw [Rounds.context, hscopes]
    exact hg.synthesize.scopesSound (fun v hv => hglobals ▸ hv) f
  · rw [Rounds.context, hscopes]
    exact hg.synthesize.outermost
  · simp only [outsideOf, if_true]
    exact if_pos hhas

/-- Before the round over bodies there is no problem of a function. -/
theorem Rounds.problemsOf_ofGlobals (r : Rounds o p out) (hlenient : o.strict = false)
    (hnames : ((funcDecls p).map fun f => f.name.text).Nodup) (f : FuncDecl) :
    (Outcome.ofGlobals r.final r.problems).problemsOf f = [] := by
  obtain ⟨found, -, hproblems, howner, -⟩ := addGlobals_oblivious hlenient [] [] r.added
  change r.problems.filter _ = []
  rw [hproblems, (r.signed_eq hlenient hnames).2, List.filter_eq_nil_iff]
  intro e he
  rcases List.mem_append.1 he with he | he
  · obtain ⟨g, -, hg⟩ := List.mem_filterMap.1 he
    obtain ⟨failure, -, rfl⟩ := Option.map_eq_some_iff.1 hg
    simp
  · obtain ⟨name, hname⟩ := howner e he
    simp [hname]

/-- The end of the function that computes the values of global variables adds nothing to another
one. -/
theorem Rounds.of_coded (r : Rounds o p out) (hlenient : o.strict = false)
    (hfree : NamesFree (funcDecls p)) {f : FuncDecl} (hf : f ∈ funcDecls p) :
    out.codeOf f = r.coded.codeOf f ∧ out.problemsOf f = r.coded.problemsOf f := by
  obtain ⟨-, hinit⟩ := r.sound hlenient hfree
  have hvalues : (r.final.init.map Draft.func).toList.filter
      (fun g => g.id = ⟨f.name.text, 0⟩) = [] := by
    rw [List.filter_eq_nil_iff]
    intro g hg
    obtain ⟨d, hd, rfl⟩ := Option.map_eq_some_iff.1 (by simpa using hg)
    simp [hinit d hd, Ne.symm (hfree f hf)]
  constructor
  · rw [congrArg (fun out => out.codeOf f) r.outcome]
    simp only [Outcome.codeOf, List.filter_append, hvalues, List.append_nil]
  · exact congrArg (fun out => out.problemsOf f) r.outcome

/-- A function whose parameters have values becomes what its body becomes, and the others have no
body. -/
theorem Rounds.shares (r : Rounds o p out) (hlenient : o.strict = false)
    (hfree : NamesFree (funcDecls p)) (hnames : ((funcDecls p).map fun f => f.name.text).Nodup)
    {f : FuncDecl} (hf : f ∈ funcDecls p) :
    ((signatureOf f).isPassable = true → ∃ res g bound,
      lowerBody o r.context f = .ok (res, g, bound) ∧ out.codeOf f = [g] ∧
        out.problemsOf f = noted (.func f.name.text) res) ∧
    ((signatureOf f).isPassable = false → out.codeOf f = [] ∧ out.problemsOf f = []) := by
  obtain ⟨hdeclared, -⟩ := r.signed_eq hlenient hnames
  obtain ⟨hsound, -⟩ := r.sound hlenient hfree
  have hbefore := r.problemsOf_ofGlobals hlenient hnames f
  obtain ⟨hcodeOf, hproblemsOf⟩ := r.of_coded hlenient hfree hf
  have hnames' : (r.declared.map fun f => f.name.text).Nodup := by
    rw [hdeclared]
    exact hnames.sublist (List.filter_sublist.map _)
  have hids : ∀ h ∈ r.declared, ∀ res g bound,
      lowerBody o r.context h = .ok (res, g, bound) → g.id = ⟨h.name.text, 0⟩ := by
    intro h hh res g bound hbody
    have hvoid : ∀ p ∈ h.params, p.type ≠ .void := by
      rw [hdeclared] at hh
      exact isPassable_iff.1 (List.mem_filter.1 hh).2
    obtain ⟨res', g', bound', hbody', -, hid, -⟩ := lowerBody_finished (o := o) hsound hvoid
    cases hbody.symm.trans hbody'
    exact hid.symm
  rw [hcodeOf, hproblemsOf]
  constructor
  · intro hpass
    have hmem : f ∈ r.declared := by
      rw [hdeclared]
      exact List.mem_filter.2 ⟨hf, hpass⟩
    obtain ⟨res, g, bound, hbody, hcode, hproblems⟩ :=
      lowerBodies_own hlenient hids hnames' hmem r.bodies
    refine ⟨res, g, bound, hbody, hcode, ?_⟩
    rw [hproblems]
    exact congrArg (fun es => es ++ noted (.func f.name.text) res) hbefore
  · intro hpass
    have hname : f.name.text ∉ r.declared.map fun f => f.name.text := by
      rw [hdeclared]
      intro hmem
      obtain ⟨h, hh, heq⟩ := List.mem_map.1 hmem
      obtain ⟨hh, hgood⟩ := List.mem_filter.1 hh
      obtain rfl := List.inj_on_of_nodup_map hnames hh hf heq
      rw [hpass] at hgood
      cases hgood
    obtain ⟨hcode, hproblems⟩ := lowerBodies_others hlenient hids hname r.bodies
    exact ⟨hcode, hproblems.trans hbefore⟩

/-- The bodies of two programs are lowered in the same context if their signatures and their global
variables are the same. -/
theorem Rounds.context_eq (r : Rounds o p out) (r' : Rounds o p' out') (hlenient : o.strict = false)
    (hglobals : globalVars p = globalVars p')
    (hsigs : ((funcDecls p).map signatureOf).Perm ((funcDecls p').map signatureOf))
    (hnames : ((funcDecls p).map fun f => f.name.text).Nodup)
    (hnames' : ((funcDecls p').map fun f => f.name.text).Nodup) :
    r'.context = r.context ∧ r'.final.globals = r.final.globals := by
  have hcalls : signatures r.declared = signatures r'.declared := by
    rw [(r.signed_eq hlenient hnames).1, (r'.signed_eq hlenient hnames').1]
    refine signatures_perm ?_ (hnames.sublist (List.filter_sublist.map _))
    have hfilter : ∀ fs : List FuncDecl,
        (fs.filter fun f => (signatureOf f).isPassable).map signatureOf =
          (fs.map signatureOf).filter Signature.isPassable := fun fs => by
      rw [List.filter_map]
      rfl
    rw [hfilter, hfilter]
    exact hsigs.filter _
  obtain ⟨found, bound, -, -, hadded⟩ := addGlobals_oblivious hlenient r'.unsigned
    (r'.declared.map fun f => (f.name, f.result)) r.added
  rw [hglobals, hcalls] at hadded
  obtain ⟨hsame, -⟩ := Prod.mk.inj (Except.ok.inj (hadded.symm.trans r'.added))
  have hfinal := finish_oblivious (r.finish_eq hlenient) bound
  rw [hsame] at hfinal
  have hlast := Except.ok.inj (hfinal.symm.trans (r'.finish_eq hlenient))
  rw [Rounds.context, Rounds.context, ← hlast, hcalls]
  exact ⟨rfl, rfl⟩

/-- In lenient mode a function becomes the same code in all programs in which the global variables
and the signatures are the same, in whatever order, and what goes wrong in it is the same. The name
of the function that computes the values of global variables is no word, so no function of a parsed
program has it. -/
theorem independent_lower {f : FuncDecl} (hlenient : o.strict = false)
    (hfree : NamesFree (funcDecls p)) (hf : f ∈ funcDecls p) (hf' : f ∈ funcDecls p')
    (hglobals : globalVars p = globalVars p')
    (hsigs : ((funcDecls p).map signatureOf).Perm ((funcDecls p').map signatureOf))
    (hnames : ((funcDecls p).map fun f => f.name.text).Nodup) :
    ∃ out out', lower o p = .ok out ∧ lower o p' = .ok out' ∧
      out.module.globals = out'.module.globals ∧ out.codeOf f = out'.codeOf f ∧
      out.problemsOf f = out'.problemsOf f ∧
      match badParam? f.params with
      | none => ∃ g, out.codeOf f = [g]
      | some failure => ⟨.signature, failure⟩ ∈ out.problems ∧
          ⟨.signature, failure⟩ ∈ out'.problems := by
  have hpermNames : ((funcDecls p).map fun f => f.name.text).Perm
      ((funcDecls p').map fun f => f.name.text) := by
    have hperm := hsigs.map Signature.name
    rwa [List.map_map, List.map_map] at hperm
  have hnames' := hpermNames.nodup_iff.1 hnames
  have hfree' : NamesFree (funcDecls p') := by
    intro g hg hname
    obtain ⟨h, hh, heq⟩ := List.mem_map.1 (hpermNames.mem_iff.2 (List.mem_map_of_mem hg))
    exact hfree h hh (heq.trans hname)
  obtain ⟨out, hrun, -⟩ := lower_coded (o := o) hfree
  obtain ⟨out', hrun', -⟩ := lower_coded (o := o) hfree'
  obtain ⟨r⟩ := exists_rounds hrun
  obtain ⟨r'⟩ := exists_rounds hrun'
  obtain ⟨hcontext, hvariables⟩ := r.context_eq r' hlenient hglobals hsigs hnames hnames'
  obtain ⟨hown, hnone⟩ := r.shares hlenient hfree hnames hf
  obtain ⟨hown', hnone'⟩ := r'.shares hlenient hfree' hnames' hf'
  refine ⟨out, out', hrun, hrun', ?_, ?_⟩
  · rw [r.globals_eq, r'.globals_eq, hvariables]
  rcases hbad : badParam? f.params with _ | failure
  · have hpass := badParam?_eq_none_iff.1 hbad
    obtain ⟨res, g, bound, hbody, hcode, hproblems⟩ := hown hpass
    obtain ⟨res', g', bound', hbody', hcode', hproblems'⟩ := hown' hpass
    rw [hcontext] at hbody'
    cases hbody.symm.trans hbody'
    exact ⟨hcode.trans hcode'.symm, hproblems.trans hproblems'.symm, g, hcode⟩
  · have hpass : (signatureOf f).isPassable = false := by
      rw [← Bool.not_eq_true, ← badParam?_eq_none_iff, hbad]
      nofun
    obtain ⟨hcode, hproblems⟩ := hnone hpass
    obtain ⟨hcode', hproblems'⟩ := hnone' hpass
    exact ⟨hcode.trans hcode'.symm, hproblems.trans hproblems'.symm,
      r.mem_problems hlenient hnames hf hbad, r'.mem_problems hlenient hnames' hf' hbad⟩

end

/-! ### Two programs -/

/-- A place on a line of a text of which all lines have forty characters. -/
def onLine (line col : Nat) : Pos := ⟨"", .ofNat line, .ofNat col, 40 * (line - 1) + col⟩

/-- A function `int f(int a) { return g(a) + n; }`. -/
def caller : FuncDecl where
  pos := onLine 2 1
  result := .int
  name := ⟨"f", onLine 2 5⟩
  params := [⟨onLine 2 7, .plain, .int, ⟨"a", onLine 2 11⟩⟩]
  bodyPos := onLine 2 14
  body := [.ret (onLine 2 16) (some (.binary (.arith .add)
    (.call ⟨"g", onLine 2 23⟩ [.name ⟨"a", onLine 2 25⟩]) (.name ⟨"n", onLine 2 30⟩)))]

/-- A function `int g(int b) { return …; }` on a line. -/
def callee (line : Nat) (result : String) : FuncDecl where
  pos := onLine line 1
  result := .int
  name := ⟨"g", onLine line 5⟩
  params := [⟨onLine line 7, .plain, .int, ⟨"b", onLine line 11⟩⟩]
  bodyPos := onLine line 14
  body := [.ret (onLine line 16) (some (.name ⟨result, onLine line 23⟩))]

/-- A program with a variable `int n;` and functions. -/
def withFuncs (fs : List FuncDecl) : Program where
  pos := onLine 1 1
  version := 0
  defs := .global ⟨onLine 1 1, [], .plain, ⟨onLine 1 1, false, .int, ⟨"n", onLine 1 5⟩, none⟩⟩ ::
    fs.map .func

/-- The code of the caller is the same behind a function that it calls and in front of one that
fails. -/
theorem independent_caller : ∃ out out',
    lower {} (withFuncs [callee 1 "b", caller]) = .ok out ∧
    lower {} (withFuncs [caller, callee 3 "c"]) = .ok out' ∧
    out.problems = [] ∧ out'.problems ≠ [] ∧ (∃ g, out.codeOf caller = [g]) ∧
    out.codeOf caller = out'.codeOf caller ∧ out'.problemsOf caller = [] := by
  have hcaller : caller ∈ funcDecls (withFuncs [callee 1 "b", caller]) := .tail _ (.head _)
  have hcaller' : caller ∈ funcDecls (withFuncs [caller, callee 3 "c"]) := .head _
  obtain ⟨out, out', hrun, hrun', -, hcode, hproblems, hown⟩ := independent_lower (o := {}) rfl
    (by unfold NamesFree; decide) hcaller hcaller' rfl (.swap _ _ _) (by decide)
  have hok : (lower {} (withFuncs [callee 1 "b", caller])).toOption.any
      (fun out => out.problems.isEmpty) = true := by decide +kernel
  have hbad : (lower {} (withFuncs [caller, callee 3 "c"])).toOption.any
      (fun out => !out.problems.isEmpty) = true := by decide +kernel
  rw [hrun] at hok
  rw [hrun'] at hbad
  have hnone : out.problems = [] := by simpa [Except.toOption] using hok
  refine ⟨out, out', hrun, hrun', hnone, by simpa [Except.toOption] using hbad, hown, hcode, ?_⟩
  rw [← hproblems, Outcome.problemsOf, hnone]
  rfl

end Shader.Lowering
