import Shader.Proofs.Lowering.Dumps

/-!
# Names of a module

The global variables of an accepted program have different names, and so have its functions. A
global variable and a function are not told apart: the names of a module are all different exactly
if no function of the program has the name of one of its global variables.
-/

namespace Shader.Lowering

open Shader.Ir

/-- The names of the global variables and functions of a module. -/
def moduleNames (m : Module) : List String :=
  (m.globals.map fun g => g.id.name) ++ m.funcs.map fun f => f.id.name

/-! ## Global variables -/

/-- The global variables that have been added are those in scope, each once. -/
structure Named (done : List GlobalVar) (g : Globals) : Prop where
  /-- no block is open -/
  inner : g.scopes.inner = []
  /-- the names in scope are those of the variables -/
  names : g.scopes.root.map Symbol.name = g.globals.map fun x => x.id.name
  /-- which are all different -/
  nodup : (g.globals.map fun x => x.id.name).Nodup
  /-- and are the names that have been declared -/
  mem_iff : ∀ name, name ∈ (g.globals.map fun x => x.id.name) ↔
    ∃ v ∈ done, v.var.name.text = name

namespace Named

variable {Γ : Signatures} {o : Options} {done : List GlobalVar} {g g' : Globals} {v : GlobalVar}

theorem start (bound : List (Name × DataType)) : Named [] { bound } :=
  ⟨rfl, rfl, List.nodup_nil, by simp⟩

theorem settles (h : Named done g) (hglobals : g'.globals = g.globals)
    (hscopes : g'.scopes = g.scopes) : Named done g' := by
  obtain ⟨hinner, hnames, hnodup, hmem⟩ := h
  refine ⟨?_, ?_, ?_, ?_⟩
  · rwa [hscopes]
  · rwa [hscopes, hglobals]
  · rwa [hglobals]
  · rwa [hglobals]

theorem walk {α : Type} {act : Lower α} {r : Except Failure α} (h : Named done g)
    (hact : Frames Settles act) (hwalk : g.walk o act = .ok (r, g')) : Named done g' :=
  h.settles (globals_walk hwalk) (frames_walk hact hwalk).scopes

/-- A variable whose name is not in scope. -/
theorem declare (h : Named done g) {addr : Value} (hok : (g.declare v).1 = .ok addr) :
    Named (done ++ [v]) (g.declare v).2 := by
  obtain ⟨-, σ, hdeclare, hadded⟩ := Globals.declare_eq_of_ok hok
  have htop : g.scopes.top = g.scopes.root := by rw [Scopes.top, h.inner]
  rw [Scopes.declare, htop] at hdeclare
  split at hdeclare
  · cases hdeclare
  next hfind =>
    have hσ : σ = ⟨[], g.scopes.root ++ [g.symbol v]⟩ := by
      rw [← Except.ok.inj hdeclare, Scopes.setTop, h.inner]
    have hnew : v.var.name.text ∉ g.globals.map fun x => x.id.name := by
      rw [← h.names]
      intro hmem
      obtain ⟨s, hs, hname⟩ := List.mem_map.1 hmem
      exact List.find?_eq_none.1 hfind s hs (decide_eq_true hname)
    rw [hadded, hσ]
    refine ⟨rfl, ?_, ?_, fun name => ?_⟩
    · rw [List.map_append, List.map_append, h.names]
      rfl
    · rw [List.map_append, List.nodup_append]
      refine ⟨h.nodup, List.nodup_singleton _, fun a ha b hb heq => ?_⟩
      obtain rfl : b = v.var.name.text := List.mem_singleton.1 hb
      exact hnew (heq ▸ ha)
    · rw [List.map_append, List.mem_append, h.mem_iff name]
      simp [or_and_right, exists_or, Globals.entry, nextGlobal, eq_comm]

/-- The name of a variable that can be declared is new. -/
theorem new (h : Named done g) {addr : Value} (hok : (g.declare v).1 = .ok addr) :
    ∀ w ∈ done, w.var.name.text ≠ v.var.name.text := by
  intro w hw hname
  have hafter := (h.declare hok).nodup
  rw [globals_declare, List.map_append, List.nodup_append] at hafter
  exact hafter.2.2 _ ((h.mem_iff _).2 ⟨w, hw, rfl⟩) (g.entry v).id.name (by simp) hname

/-- A variable that is in scope has been declared. -/
theorem exists_of_lookup? (h : Named done g) {name : String} {sym : Symbol DataType Value}
    (hlookup : g.scopes.lookup? name = some sym) : ∃ v ∈ done, v.var.name.text = name := by
  rw [← h.mem_iff, ← h.names]
  rw [Scopes.lookup?, Scopes.frames, h.inner, List.nil_append, List.findSome?_singleton] at hlookup
  have hname : sym.name = name := by simpa using List.find?_some hlookup
  exact List.mem_map.2 ⟨sym, List.mem_of_find?_eq_some hlookup, hname⟩

theorem isNone_lookup? (h : Named done g) {name : String}
    (hmem : ∃ v ∈ done, v.var.name.text = name) : (g.scopes.lookup? name).isNone = false := by
  rw [← h.mem_iff, ← h.names] at hmem
  obtain ⟨sym, hsym, hname⟩ := List.mem_map.1 hmem
  rw [Scopes.lookup?, Scopes.frames, h.inner, List.nil_append, List.findSome?_singleton]
  rcases hfind : g.scopes.root.find? name with _ | earlier
  · exact absurd (by simpa using hname) (List.find?_eq_none.1 hfind sym hsym)
  · rfl

/-- A variable that does not fail. -/
theorem add (h : Named done g) (hadd : g.add Γ o v = .ok (.ok (), g')) :
    Named (done ++ [v]) g' := by
  generalize hr : (Except.ok () : Except Failure Unit) = r at hadd
  cases adds_of_add hadd with
  | bad => cases hr
  | repeated hbad hrepeated =>
    -- the name is in scope, so it has been declared
    have hsame : Named done { g with bound := (v.var.name, v.var.type) :: g.bound } :=
      h.settles rfl rfl
    refine ⟨hsame.inner, hsame.names, hsame.nodup, fun name => ?_⟩
    rw [hsame.mem_iff name]
    simp only [Globals.isRepeated, Bool.and_eq_true, decide_eq_true_eq] at hrepeated
    obtain ⟨⟨hname, -⟩, hany⟩ := hrepeated
    have hmem : ∃ w ∈ done, w.var.name.text = positionName := by
      rcases hlookup : g.scopes.lookup? positionName with _ | sym
      · rw [hlookup] at hany
        cases hany
      · exact h.exists_of_lookup? hlookup
    simp only [List.mem_append, List.mem_singleton]
    constructor
    · rintro ⟨w, hw, rfl⟩
      exact ⟨w, .inl hw, rfl⟩
    · rintro ⟨w, hw | rfl, rfl⟩
      · exact ⟨w, hw, rfl⟩
      · rwa [hname]
  | plain =>
    rcases hdeclare : (g.declare v).1 with failure | addr
    · rw [hdeclare] at hr
      cases hr
    · exact h.declare hdeclare
  | failed => cases hr
  | valued hbad hinit hwalk hdeclare hstore =>
    subst hr
    exact ((h.walk settles_expr hwalk).declare hdeclare).walk
      (frames_initStore forking_settles.toFraming) hstore

/-- All variables, if none of them fails. -/
theorem addGlobals {vs : List GlobalVar} {problems : List Problem} (h : Named [] g)
    (hrun : addGlobals Γ o g problems vs = .ok (g', [])) : Named vs g' :=
  addGlobals_induction_ok (fun _ _ _ _ hdone hadd => hdone.add hadd) h hrun

end Named

/-! ## Modules -/

/-- No global variable of a parsed program has the name of the function that computes their
values, since that is no word. -/
theorem varsFree_of_parse {s : Source} {p : Program} (h : s.parse.program = some p) :
    ∀ v ∈ globalVars p, v.var.name.text ≠ initName := by
  intro v hv hname
  obtain ⟨ds, hdefs, hproper⟩ := Source.proper_parse h
  have hd := global_mem_defs hv
  rw [hdefs] at hd
  rcases List.mem_cons.1 hd with heq | hd
  · obtain rfl := Def.global.inj heq
    exact absurd hname (by decide)
  · have hplaced : v.var.Placed := hproper _ hd
    have hword : IsWord initName := hname ▸ hplaced.isWord
    exact absurd (hword '.' (by decide)) (by decide)

/-- The implicit output for positions comes first. -/
theorem exists_position {s : Source} {p : Program} (h : s.parse.program = some p) :
    ∃ v ∈ globalVars p, v.var.name.text = positionName := by
  obtain ⟨ds, hdefs, -⟩ := Source.proper_parse h
  refine ⟨implicitPosition, ?_, rfl⟩
  rw [globalVars, hdefs]
  exact List.mem_cons_self

/-- The global variables of an accepted program have the names that the program declares, each
once. -/
theorem names_globals {s : Source} {p : Program} {o : Options} {out : Outcome}
    (hparse : s.parse.program = some p) (hlower : lower o p = .ok out) (hok : out.problems = []) :
    (out.module.globals.map fun g => g.id.name).Nodup ∧
      ∀ name, name ∈ (out.module.globals.map fun g => g.id.name) ↔
        ∃ v ∈ globalVars p, v.var.name.text = name := by
  obtain ⟨rounds⟩ := exists_rounds hlower
  have hproblems : rounds.problems = [] := List.prefix_nil.1 (hok ▸ rounds.problems_grow)
  have hadded := rounds.added
  rw [hproblems] at hadded
  have hnamed : Named (globalVars p) rounds.globals := (Named.start _).addGlobals hadded
  -- the output for positions is declared, so that none is made up
  have hsame : rounds.globals.synthesize o = rounds.globals := by
    rw [Globals.synthesize, hnamed.isNone_lookup? (exists_position hparse), Bool.and_false]
    rfl
  have hglobals : out.module.globals = rounds.globals.globals := by
    rw [rounds.globals_eq]
    rcases rounds.final_cases with ⟨-, hfinish⟩ | ⟨-, hfinal⟩
    · rw [(finish_frame hfinish).1, hsame]
    · rw [hfinal]
  rw [hglobals]
  exact ⟨hnamed.nodup, hnamed.mem_iff⟩

/-- The functions of the module of an accepted program are those of the program and the one that
computes the values of global variables, if it is there. -/
theorem Lowered.names_funcs {p : Program} {o : Options} {out : Outcome} {c : Context}
    {gs : List Func} {values : Option Func} (h : Lowered o p out c gs values)
    (hfree : NamesFree (funcDecls p)) : (out.module.funcs.map fun f => f.id.name).Nodup ∧
      ∀ name, name ∈ (out.module.funcs.map fun f => f.id.name) ↔
        (∃ f ∈ funcDecls p, f.name.text = name) ∨ (values.isSome ∧ name = initName) := by
  have hnames : gs.map (fun f => f.id.name) = (funcDecls p).map fun f => f.name.text := by
    have hids := congrArg (List.map FuncId.name) (BodyOf.map_id h.bodies)
    rwa [List.map_map, List.map_map] at hids
  have hinit : values.toList.map (fun f => f.id.name) = values.toList.map fun _ => initName := by
    refine List.map_congr_left fun f hf => ?_
    rw [(h.init f (by simpa using hf)).1]
  have hall : (out.module.funcs.map fun f => f.id.name) =
      ((funcDecls p).map fun f => f.name.text) ++ values.toList.map fun _ => initName := by
    rw [h.funcs, List.map_append, hnames, hinit]
  rw [hall]
  refine ⟨?_, fun name => ?_⟩
  · rw [List.nodup_append]
    refine ⟨h.declarable.names, ?_, fun a ha b hb => ?_⟩
    · cases values <;> simp
    · obtain ⟨f, hf, rfl⟩ := List.mem_map.1 ha
      obtain ⟨_, -, rfl⟩ := List.mem_map.1 hb
      exact hfree f hf
  · cases values <;> simp [eq_comm]

/-- The global variables of an accepted program have different names, and so have the functions of
its module. All of these names are different exactly if no function of the program has the name of
one of its global variables. -/
theorem nodup_names_iff {s : Source} {p : Program} {o : Options} {out : Outcome}
    (hparse : s.parse.program = some p) (hlower : lower o p = .ok out) (hok : out.problems = []) :
    (out.module.globals.map fun g => g.id.name).Nodup ∧
      (out.module.funcs.map fun f => f.id.name).Nodup ∧
      ((moduleNames out.module).Nodup ↔
        ∀ v ∈ globalVars p, ∀ f ∈ funcDecls p, v.var.name.text ≠ f.name.text) := by
  obtain ⟨c, gs, values, hlowered⟩ := exists_lowered hparse hlower hok
  obtain ⟨hglobals, hvars⟩ := names_globals hparse hlower hok
  obtain ⟨hfuncs, hmem⟩ := hlowered.names_funcs (namesFree_of_parse hparse)
  refine ⟨hglobals, hfuncs, ?_⟩
  rw [moduleNames, List.nodup_append]
  constructor
  · rintro ⟨-, -, hapart⟩ v hv f hf
    exact hapart _ ((hvars _).2 ⟨v, hv, rfl⟩) _ ((hmem _).2 (.inl ⟨f, hf, rfl⟩))
  · intro hapart
    refine ⟨hglobals, hfuncs, fun a ha b hb => ?_⟩
    obtain ⟨v, hv, rfl⟩ := (hvars a).1 ha
    rcases (hmem b).1 hb with ⟨f, hf, rfl⟩ | ⟨-, rfl⟩
    · exact hapart v hv f hf
    · exact varsFree_of_parse hparse v hv

/-- All names of the sample are different: of a variable, of a function, of the output for positions
and of the function that computes the value of the variable. -/
theorem nodup_names_sample : ∃ p out, sample.parse.program = some p ∧ lower {} p = .ok out ∧
    (moduleNames out.module).Nodup ∧ "glslc.init" ∈ moduleNames out.module := by
  have hreports : sample.scan.reports = [] := scan_reports_eq_nil (by decide +kernel)
  obtain ⟨p, out, hparse, hlower, hok, htest⟩ := exists_accepted (t := fun p out =>
      ((globalVars p).all fun v => (funcDecls p).all fun f => v.var.name.text ≠ f.name.text) &&
        (moduleNames out.module).contains "glslc.init") hreports (by decide +kernel)
  simp only [Bool.and_eq_true, List.all_eq_true, decide_eq_true_eq, List.contains_iff_mem] at htest
  exact ⟨p, out, hparse, hlower, (nodup_names_iff hparse hlower hok).2.2.2 htest.1, htest.2⟩

/-- A program with a global variable and a function of one name. -/
def sharedName : Source where
  bytes := "int f; void f() { }".toUTF8.toList

/-- It is accepted, and its module has a variable and a function of that name. -/
theorem names_clash_sharedName : ∃ p out, sharedName.parse.program = some p ∧
    lower {} p = .ok out ∧ out.problems = [] ∧ ¬ (moduleNames out.module).Nodup := by
  have hreports : sharedName.scan.reports = [] := scan_reports_eq_nil (by decide +kernel)
  obtain ⟨p, out, hparse, hlower, hok, htest⟩ := exists_accepted
    (t := fun _ out => !decide (moduleNames out.module).Nodup) hreports (by decide +kernel)
  exact ⟨p, out, hparse, hlower, hok, by simpa using htest⟩

end Shader.Lowering
