import Shader.Proofs.Lowering.Accepted

/-!
# Layouts

The global variables of a module are what the host sees of a program: their names, types, storages
and layouts. In an accepted program every definition of a global variable has its entry there, in
the order in which the names are first declared, and nothing else has. The definitions of the output
for positions, of which the first is implicit, share one entry, which goes to the host however the
program declares the output again.
-/

namespace Shader.Lowering

open Ir

/-- The entry that a module has of the definition of a global variable. -/
structure Lists (v : GlobalVar) (e : Global) : Prop where
  /-- it has the name of the variable -/
  name : e.id.name = v.var.name.text
  /-- its type -/
  type : e.type = v.var.type
  /-- its storage, except that positions always go to the host -/
  storage : e.storage = if v.var.name.text = positionName then .output else v.storage
  /-- and, except for positions, the identifiers of its layout with their values -/
  layout : v.var.name.text ≠ positionName → e.layout = v.layout

/-- The definitions so far are listed. -/
structure Listed (done : List GlobalVar) (g : Globals) : Prop extends Named done g where
  /-- the output for positions comes first -/
  position : implicitPosition ∈ done
  /-- the names in scope have the types of the entries -/
  types : (g.scopes.root.map fun sym => (sym.name, sym.type)) =
    g.globals.map fun e => (e.id.name, e.type)
  /-- the entries come in the order of the definitions -/
  order : (g.globals.map fun e => e.id.name) = (done.map fun v => v.var.name.text).eraseDups
  /-- there is one for every definition -/
  listed : ∀ v ∈ done, ∃ e ∈ g.globals, Lists v e
  /-- positions go to the host -/
  output : ∀ e ∈ g.globals, e.id.name = positionName → e.storage = .output

namespace Listed

variable {Γ : Signatures} {o : Options} {done : List GlobalVar} {g g' : Globals} {v : GlobalVar}

theorem settles (h : Listed done g) (hglobals : g'.globals = g.globals)
    (hscopes : g'.scopes = g.scopes) : Listed done g' where
  toNamed := h.toNamed.settles hglobals hscopes
  position := h.position
  types := by rw [hscopes, hglobals, h.types]
  order := by rw [hglobals, h.order]
  listed := by rw [hglobals]; exact h.listed
  output := by rw [hglobals]; exact h.output

theorem walk {α : Type} {act : Lower α} {r : Except Failure α} (h : Listed done g)
    (hact : Frames Settles act) (hwalk : g.walk o act = .ok (r, g')) : Listed done g' :=
  h.settles (globals_walk hwalk) (frames_walk hact hwalk).scopes

/-- A variable whose name is not in scope has a new entry. -/
theorem declare (h : Listed done g) {addr : Value} (hok : (g.declare v).1 = .ok addr) :
    Listed (done ++ [v]) (g.declare v).2 := by
  obtain ⟨-, σ, hdeclare, hadded⟩ := Globals.declare_eq_of_ok hok
  have hroot : σ.root = g.scopes.root ++ [g.symbol v] := by
    rw [Scopes.declare] at hdeclare
    split at hdeclare
    · cases hdeclare
    · rw [← Except.ok.inj hdeclare, Scopes.setTop, Scopes.top, h.inner]
  have hnew := h.toNamed.new hok
  -- the output for positions is in scope, so this is another variable
  have hother : v.var.name.text ≠ positionName := fun hv => hnew _ h.position hv.symm
  have hfresh : [v.var.name.text].removeAll (done.map fun w => w.var.name.text) =
      [v.var.name.text] := by
    simpa [List.removeAll] using hnew
  have hentry : Lists v (g.entry v) := ⟨rfl, rfl, (if_neg hother).symm, fun _ => rfl⟩
  refine ⟨h.toNamed.declare hok, List.mem_append_left _ h.position, ?_, ?_, ?_, ?_⟩
  · rw [hadded, hroot, List.map_append, List.map_append, h.types]
    rfl
  · rw [hadded, List.map_append, List.map_append, h.order, List.map_singleton, List.map_singleton,
      List.eraseDups_append, hfresh]
    rfl
  · rw [hadded]
    intro w hw
    rcases List.mem_append.1 hw with hw | hw
    · obtain ⟨e, he, hlists⟩ := h.listed w hw
      exact ⟨e, List.mem_append_left _ he, hlists⟩
    · obtain rfl := List.mem_singleton.1 hw
      exact ⟨g.entry w, by simp, hentry⟩
  · rw [hadded]
    refine List.forall_mem_append.2 ⟨h.output, List.forall_mem_singleton.2 fun hposition => ?_⟩
    exact absurd hposition hother

/-- The output for positions may be declared again with its type. -/
theorem repeated (h : Listed done g) (hrepeated : g.isRepeated v = true)
    (hnamed : Named (done ++ [v]) g) : Listed (done ++ [v]) g := by
  simp only [Globals.isRepeated, Bool.and_eq_true, decide_eq_true_eq] at hrepeated
  obtain ⟨⟨hname, -⟩, hany⟩ := hrepeated
  obtain ⟨sym, hlookup, hsym⟩ := (Option.any_eq_true _ _).1 hany
  rw [Scopes.lookup?, Scopes.frames, h.inner, List.nil_append, List.findSome?_singleton] at hlookup
  have hmem : (positionName, v.var.type) ∈ g.globals.map fun e => (e.id.name, e.type) := by
    have hsymName : sym.name = positionName := by simpa using List.find?_some hlookup
    rw [← h.types, ← of_decide_eq_true hsym, ← hsymName]
    exact List.mem_map_of_mem (List.mem_of_find?_eq_some hlookup)
  obtain ⟨e, he, heq⟩ := List.mem_map.1 hmem
  obtain ⟨hposition, htype⟩ := Prod.mk.inj heq
  refine ⟨hnamed, List.mem_append_left _ h.position, h.types, ?_, ?_, h.output⟩
  · have hseen : [v.var.name.text].removeAll (done.map fun w => w.var.name.text) = [] := by
      simpa [List.removeAll, hname] using ⟨implicitPosition, h.position, rfl⟩
    rw [h.order, List.map_append, List.map_singleton, List.eraseDups_append, hseen,
      List.eraseDups_nil, List.append_nil]
  · intro w hw
    rcases List.mem_append.1 hw with hw | hw
    · exact h.listed w hw
    · obtain rfl := List.mem_singleton.1 hw
      refine ⟨e, he, hposition.trans hname.symm, htype, ?_, fun hother => absurd hname hother⟩
      rw [if_pos hname, h.output e he hposition]

/-- A variable that does not fail. -/
theorem add (h : Listed done g) (hadd : g.add Γ o v = .ok (.ok (), g')) :
    Listed (done ++ [v]) g' := by
  have hnamed := h.toNamed.add hadd
  generalize hr : (Except.ok () : Except Failure Unit) = r at hadd
  cases adds_of_add hadd with
  | bad => cases hr
  | repeated hbad hrepeated =>
    exact (h.repeated hrepeated (hnamed.settles rfl rfl)).settles rfl rfl
  | plain =>
    rcases hdeclare : (g.declare v).1 with failure | addr
    · rw [hdeclare] at hr
      cases hr
    · exact h.declare hdeclare
  | failed => cases hr
  | valued hbad hinit hwalk hdeclare hstore =>
    subst hr
    exact ((h.walk settles_expr hwalk).declare hdeclare).walk
      (frames_initStore forking_settles.toFraming) hstore

/-- The implicit definition of the output for positions. -/
theorem start {bound : List (Name × DataType)}
    (hadd : ({ bound } : Globals).add Γ o implicitPosition = .ok (.ok (), g)) :
    Listed [implicitPosition] g := by
  have hnamed := (Named.start bound).add hadd
  cases hadd
  refine ⟨hnamed, by simp, rfl, rfl, ?_, ?_⟩
  · exact fun v hv => ⟨_, List.mem_singleton_self _, by
      obtain rfl := List.mem_singleton.1 hv
      exact ⟨rfl, rfl, rfl, fun _ => rfl⟩⟩
  · exact fun e he _ => by
      obtain rfl := List.mem_singleton.1 he
      rfl

/-- All variables behind the implicit one, if none of them fails. -/
theorem addGlobals {vs : List GlobalVar} {bound : List (Name × DataType)}
    (hrun : addGlobals Γ o { bound } [] (implicitPosition :: vs) = .ok (g, [])) :
    Listed (implicitPosition :: vs) g := by
  rw [addGlobals_cons (by simp [Options.goesOn])] at hrun
  exact addGlobals_induction_ok (P := fun done g => Listed (implicitPosition :: done) g)
    (fun _ _ _ _ hdone hadd => hdone.add hadd) (start (Γ := Γ) (o := o) rfl) hrun

end Listed

/-! ## Programs -/

/-- The output for positions is defined in front of all other variables. -/
theorem globalVars_of_parse {s : Source} {p : Program} (h : s.parse.program = some p) :
    ∃ vs, globalVars p = implicitPosition :: vs := by
  obtain ⟨ds, hdefs, -⟩ := Source.proper_parse h
  rw [globalVars, hdefs]
  exact ⟨_, rfl⟩

/-- In the module of an accepted program every definition of a global variable has its entry, with
its name, type and storage and the identifiers of its layout. There are no other entries, and they
come in the order in which the names are first declared. Of the definitions of the output for
positions, which the program may repeat, the entry has the name and type, and it goes to the
host. -/
theorem lists_globals {s : Source} {p : Program} {o : Options} {out : Outcome}
    (hparse : s.parse.program = some p) (hlower : lower o p = .ok out) (hok : out.problems = []) :
    (∀ v ∈ globalVars p, ∃ e ∈ out.module.globals, Lists v e) ∧
      (∀ e ∈ out.module.globals, ∃ v ∈ globalVars p, Lists v e) ∧
      (out.module.globals.map fun e => e.id.name) =
        ((globalVars p).map fun v => v.var.name.text).eraseDups := by
  obtain ⟨rounds⟩ := exists_rounds hlower
  obtain ⟨vs, hvars⟩ := globalVars_of_parse hparse
  have hadded := rounds.added_eq hok
  rw [hvars] at hadded
  have hlisted := Listed.addGlobals hadded
  rw [← hvars] at hlisted
  rw [rounds.globals_eq, (finish_frame (rounds.ended_eq hok hparse)).1]
  refine ⟨hlisted.listed, fun e he => ?_, hlisted.order⟩
  -- the name of the entry is that of a definition, and no other entry has it
  obtain ⟨v, hv, hname⟩ := (hlisted.mem_iff _).1 (List.mem_map_of_mem he)
  obtain ⟨e', he', hlists⟩ := hlisted.listed v hv
  obtain rfl := List.inj_on_of_nodup_map hlisted.nodup he' he (hlists.name.trans hname)
  exact ⟨v, hv, hlists⟩

/-- A program with variables of all storages and identifiers of their layouts, which declares the
output for positions again. -/
def boundSample : Source where
  bytes := ("layout(location = 1, binding = 2) uniform mat4 m; out vec4 gl_Position; " ++
    "layout(location = 0) in vec4 a; int n = 3; void main() { gl_Position = m * a; }").toUTF8.toList

/-- Its variables are listed with what the host has to know. -/
theorem lists_globals_boundSample : ∃ p out, boundSample.parse.program = some p ∧
    lower {} p = .ok out ∧ out.problems = [] ∧
    (∀ v ∈ globalVars p, ∃ e ∈ out.module.globals, Lists v e) ∧
    (globalVars p).length = 5 ∧ out.module.globals.map Global.layout =
      [[], [⟨"location", 1⟩, ⟨"binding", 2⟩], [⟨"location", 0⟩], []] := by
  have hreports : boundSample.scan.reports = [] := scan_reports_eq_nil (by decide +kernel)
  obtain ⟨p, out, hparse, hlower, hok, htest⟩ := exists_accepted (t := fun p out =>
      (globalVars p).length = 5 && out.module.globals.map Global.layout =
        [[], [⟨"location", 1⟩, ⟨"binding", 2⟩], [⟨"location", 0⟩], []]) hreports (by decide +kernel)
  simp only [Bool.and_eq_true, decide_eq_true_eq] at htest
  exact ⟨p, out, hparse, hlower, hok, (lists_globals hparse hlower hok).1, htest⟩

/-- A program that declares the output for positions again, without the qualifier of an output. -/
def plainPosition : Source where
  bytes := "layout(location = 0) vec4 gl_Position; void main() { }".toUTF8.toList

/-- It is accepted, and no entry has the storage of that definition or its layout. -/
theorem unlisted_plainPosition : ∃ p out, plainPosition.parse.program = some p ∧
    lower {} p = .ok out ∧ out.problems = [] ∧ ∃ v ∈ globalVars p, ∀ e ∈ out.module.globals,
      e.id.name = v.var.name.text ∧ e.storage ≠ v.storage ∧ ∃ x ∈ v.layout, x ∉ e.layout := by
  have hreports : plainPosition.scan.reports = [] := scan_reports_eq_nil (by decide +kernel)
  obtain ⟨p, out, hparse, hlower, hok, htest⟩ := exists_accepted (t := fun p out =>
      (globalVars p).any fun v => out.module.globals.all fun e =>
        e.id.name = v.var.name.text && e.storage ≠ v.storage && v.layout.any fun x => x ∉ e.layout)
    hreports (by decide +kernel)
  refine ⟨p, out, hparse, hlower, hok, ?_⟩
  simpa [and_assoc] using htest

end Shader.Lowering
