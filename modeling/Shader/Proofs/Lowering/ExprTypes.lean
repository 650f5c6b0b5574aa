import Shader.Proofs.Lowering.Notes
import Shader.Proofs.Lowering.Soundness
import Shader.Tree.Document

/-!
# The types of expressions

Types are computed twice: by lowering, which knows the type of every operand, and from the tree
under the types that lowering has noted of its names. Both agree on every expression that is
lowered. Since no name of a parsed program is noted twice, they agree under the notes at the end of
the walk as well as under those at the end of the program, with which the tree is printed.
-/

namespace Shader.Lowering

open Ir
open scoped List

/-! ## Statements -/

/-- A walk notes types of names among some atoms. -/
def Records {α : Type} (as : List Atom) (act : Lower α) : Prop := Tells as act fun _ _ => True

theorem Tells.records {α : Type} {as : List Atom} {act : Lower α} {Q : Binding → α → Prop}
    (h : Tells as act Q) : Records as act := h.weaken fun _ _ _ => trivial

namespace Records

variable {α β : Type} {act : Lower α} {f : α → Lower β} {as bs : List Atom}

theorem pure {a : α} : Records as (Pure.pure a) := Tells.pure fun _ => trivial

theorem quiet (h : Frames Quiet act) : Records as act :=
  (Tells.quiet (P := fun _ => True) h fun _ _ _ _ => trivial).mono List.nil_subperm
    (List.nil_subset as)

theorem check {p : Prop} {_ : Decidable p} {pos : Pos} {cause : Cause} {rest : Unit → Lower α}
    (h : ¬ p → Records as (rest ())) :
    Records as (if p then Lowering.fail pos cause >>= rest else rest ()) := Tells.check h

theorem inScope (h : Records as act) : Records as (Lowering.inScope act) := Tells.inScope h

theorem perm (h : Records as act) (hperm : as ~ bs) : Records bs act := Tells.perm h hperm

theorem bind (h : Records as act) (hf : ∀ a, Records bs (f a)) : Records (as ++ bs) (act >>= f) :=
  Tells.bind h fun a => (hf a).weaken fun _ _ _ _ => trivial

theorem before (h : Records as act) (hf : ∀ a, Frames Quiet (f a)) : Records as (act >>= f) :=
  Tells.thenQuiet h hf fun _ _ _ _ _ _ _ => trivial

theorem behind (h : Frames Quiet act) (hf : ∀ a, Records as (f a)) : Records as (act >>= f) :=
  Tells.quietThen h hf

theorem emitThen {act : Emit α} (hf : ∀ a, Records as (f a)) :
    Records as (Lowering.emit act >>= f) := behind (.fork forking_quiet) hf

theorem emitBefore {g : α → Emit β} (h : Records as act) :
    Records as (act >>= fun a => Lowering.emit (g a)) := before h fun _ => .fork forking_quiet

theorem discard (h : Records as act) : Records as (Functor.discard act) :=
  before h fun _ => .pure framing_quiet

end Records

theorem quiet_discard {act : Emit Bool} : Frames Quiet (discard (emit act)) :=
  .bind framing_quiet (.fork forking_quiet) fun _ => .pure framing_quiet

/-- A variable with values is declared. -/
theorem records_declare {n : Name} {t : DataType} {addr : Value} {isConst : Bool} (ht : t ≠ .void) :
    Records [.var n] (declare n t addr isConst) := by
  intro b r b' hrun
  obtain ⟨rfl, rfl⟩ | ⟨σ, hσ, rfl, rfl⟩ := declare_cases hrun
  · exact Tells.fail b' _ b' rfl
  · refine ⟨[(n, t)], ⟨rfl, .refl _, fun hb => hb.declare ht hσ, fun _ => ?_⟩,
      fun _ _ _ _ => trivial⟩
    exact List.forall_mem_singleton.2 fun hvoid => absurd hvoid ht

section

variable {Γ : Signatures}

/-- The value of a variable is walked over before its name is declared. -/
theorem perm_atoms_varDecl {d : VarDecl} {x : Expr} (h : d.init = some x) :
    x.atoms ++ [.var d.name] ~ d.atoms := by
  rw [VarDecl.atoms, h, Option.toList, Expr.allAtoms_singleton]
  exact List.perm_append_singleton _ _

theorem records_varDecl (d : VarDecl) : Records d.atoms (varDecl Γ d) := by
  unfold varDecl
  refine .check fun hvoid => .check fun _ => ?_
  have hnew : ∀ v, Records [.var d.name] (do
      let addr ← emit (Emit.alloca d.type d.name.text)
      emit (Emit.store v addr)
      declare d.name d.type addr d.isConst) := fun v =>
    .emitThen fun addr => .emitThen fun _ => records_declare hvoid
  dsimp only
  split
  next hinit =>
    rw [VarDecl.atoms, hinit]
    exact hnew _
  next x hinit =>
    refine Records.perm ?_ (perm_atoms_varDecl hinit)
    refine (tells_expr x).records.bind fun a => ?_
    exact .behind (stepwise_initialValue evaluating_quiet) hnew

theorem records_condition (c : Expr) : Records c.atoms (condition Γ c) :=
  (tells_expr c).records.before fun _ => stepwise_truthOf evaluating_quiet

theorem records_forInit : ∀ init : ForInit, Records init.atoms (forInit Γ init)
  | .nothing => .pure
  | .var d => records_varDecl d
  | .expr x => (tells_expr x).records.discard

theorem quiet_branchTo {pos : Pos} {token : Token} {loop : Option Loop} :
    Frames Quiet (branchTo pos token loop) := by
  cases loop with
  | none => exact .fail framing_quiet
  | some loop => exact .fork forking_quiet

theorem records_returnFrom {want : DataType} {pos : Pos} (result : Option Expr) :
    Records (Expr.allAtoms result.toList) (returnFrom Γ want pos result) := by
  unfold returnFrom
  cases result with
  | none => exact .check fun _ => .emitThen fun _ => .quiet (.fork forking_quiet)
  | some x =>
    rw [Option.toList, Expr.allAtoms_singleton]
    refine .check fun _ => (tells_expr x).records.before fun a => ?_
    refine .bind framing_quiet (stepwise_valueAs evaluating_quiet) fun _ => ?_
    exact .bind framing_quiet (.fork forking_quiet) fun _ => .fork forking_quiet

theorem records_loopTest {body leave : Label} (c : Option Expr) :
    Records (Expr.allAtoms c.toList) (loopTest Γ c body leave) := by
  cases c with
  | none => exact .quiet (.fork forking_quiet)
  | some c =>
    rw [Option.toList, Expr.allAtoms_singleton]
    exact (records_condition c).emitBefore

variable {want : DataType}

mutual

/-- A statement notes types of its names. -/
theorem records_stmt : ∀ {loop : Option Loop} (s : Stmt), Records s.atoms (stmt Γ want loop s)
  | _, .empty _ => by
    unfold stmt
    exact .pure
  | _, .expr x => by
    unfold stmt
    exact (tells_expr x).records.discard
  | _, .var d => by
    unfold stmt
    exact records_varDecl d
  | _, .block _ body => by
    unfold stmt
    exact .inScope (records_stmts body)
  | _, .ifThen _ c yes => by
    unfold stmt
    refine (records_condition c).bind fun _ => ?_
    refine .emitThen fun _ => .emitThen fun _ => .emitThen fun _ => ?_
    refine Records.before (.inScope (records_stmt yes)) fun _ => ?_
    exact .bind framing_quiet quiet_discard fun _ => .fork forking_quiet
  | _, .ifElse _ c yes no => by
    unfold stmt
    refine (records_condition c).bind fun _ => ?_
    refine .emitThen fun _ => .emitThen fun _ => .emitThen fun _ => .emitThen fun _ => ?_
    refine Records.bind (.inScope (records_stmt yes)) fun _ => .emitThen fun _ => ?_
    refine .emitThen fun _ => Records.before (.inScope (records_stmt no)) fun _ => ?_
    exact .bind framing_quiet (.fork forking_quiet) fun _ => .fork forking_quiet
  | _, .forLoop _ init c post body => by
    unfold stmt
    -- the last clause is walked over behind the body
    refine .perm (.inScope ((records_forInit init).bind fun _ => ?_))
      ((List.perm_append_comm.append_left _).append_left _)
    refine .emitThen fun _ => .emitThen fun _ => .emitThen fun _ => .emitThen fun _ => ?_
    refine .emitThen fun _ => (records_loopTest c).bind fun _ => .emitThen fun _ => ?_
    refine Records.bind (.inScope (records_stmt body)) fun _ => ?_
    refine .behind quiet_discard fun _ => .emitThen fun _ => ?_
    cases post with
    | none => exact .quiet (.fork forking_quiet)
    | some x =>
      rw [Option.toList, Expr.allAtoms_singleton]
      exact (tells_expr x).records.discard.emitBefore
  | _, .whileLoop _ c body => by
    unfold stmt
    refine .emitThen fun _ => .emitThen fun _ => .emitThen fun _ => .emitThen fun _ => ?_
    rw [Stmt.atoms, ← Expr.allAtoms_singleton]
    refine (records_loopTest (some c)).bind fun _ => .emitThen fun _ => ?_
    refine Records.before (.inScope (records_stmt body)) fun _ => ?_
    exact .bind framing_quiet quiet_discard fun _ => .fork forking_quiet
  | _, .doLoop _ body c => by
    unfold stmt
    refine .emitThen fun _ => .emitThen fun _ => .emitThen fun _ => .emitThen fun _ => ?_
    refine Records.bind (.inScope (records_stmt body)) fun _ => ?_
    refine .behind quiet_discard fun _ => .emitThen fun _ => ?_
    rw [← Expr.allAtoms_singleton]
    exact (records_loopTest (some c)).emitBefore
  | _, .branch pos token => by
    unfold stmt
    exact .quiet quiet_branchTo
  | _, .ret pos result => by
    unfold stmt
    exact records_returnFrom result

theorem records_stmts : ∀ {loop : Option Loop} (ss : List Stmt),
    Records (Stmt.allAtoms ss) (stmts Γ want loop ss)
  | _, [] => by
    unfold stmts
    exact .pure
  | _, s :: ss => by
    unfold stmts
    refine .emitThen fun _ => ?_
    split
    · exact (records_stmt s).bind fun _ => records_stmts ss
    · exact .pure

end

end

/-! ## Definitions -/

/-- Notes are about names among some atoms, each of them once; only functions are noted without
values. -/
structure Noted (as : List Atom) (notes : List (Name × DataType)) : Prop where
  /-- they are about names among the atoms -/
  items : (notes.map fun x => x.1.item) <+~ as.map Atom.item
  /-- only functions have no values -/
  typed : ∀ x ∈ notes, x.2 = .void → .func x.1 ∈ as

namespace Noted

variable {as bs : List Atom} {l m : List (Name × DataType)}

theorem append (h : Noted as l) (h' : Noted bs m) : Noted (as ++ bs) (m ++ l) where
  items := by
    rw [List.map_append, List.map_append]
    exact List.perm_append_comm.subperm.trans (h.items.append h'.items)
  typed x hx hvoid := by
    rcases List.mem_append.1 hx with hx | hx
    · exact List.mem_append_right _ (h'.typed x hx hvoid)
    · exact List.mem_append_left _ (h.typed x hx hvoid)

theorem mono (h : Noted as l) (hsub : as <+~ bs) : Noted bs l := by
  refine ⟨h.items.trans ?_, fun x hx hvoid => hsub.subset (h.typed x hx hvoid)⟩
  obtain ⟨cs, hperm, hsub⟩ := hsub
  exact ⟨cs.map Atom.item, hperm.map _, hsub.map _⟩

end Noted

theorem Notes.noted {as : List Atom} {b b' : Body} {notes : List (Name × DataType)}
    (h : Notes as b b' notes) (hb : Solid b.scopes) : Noted as notes := ⟨h.items, h.typed hb⟩

/-- The names and numbers of a function, its own name apart. -/
def innerAtoms (f : FuncDecl) : List Atom :=
  f.params.map (fun p => .var p.name) ++ Stmt.allAtoms f.body

theorem records_bindParams {id : FuncId} : ∀ (ps : List Param) (i : Nat),
    (∀ p ∈ ps, p.type ≠ .void) → Records (ps.map fun p => .var p.name) (bindParams id i ps)
  | [], _, _ => .pure
  | p :: ps, i, hvoid => by
    obtain ⟨hp, hps⟩ := List.forall_mem_cons.1 hvoid
    have hrest : ∀ addr, Records ([.var p.name] ++ ps.map fun p => .var p.name) (do
        declare p.name p.type addr false
        bindParams id (i + 1) ps) := fun addr =>
      (records_declare hp).bind fun _ => records_bindParams ps (i + 1) hps
    unfold bindParams
    dsimp only
    split
    · exact hrest _
    · exact .emitThen hrest

theorem records_bodyCode {c : Context} {f : FuncDecl} (hvoid : ∀ p ∈ f.params, p.type ≠ .void) :
    Records (innerAtoms f) (bodyCode c f) := by
  refine (records_bindParams f.params 0 hvoid).bind fun _ => ?_
  split
  · refine .behind ?_ fun _ => records_stmts f.body
    exact .bind framing_quiet (.fork forking_quiet) fun _ => .pure framing_quiet
  · exact records_stmts f.body

theorem noted_lowerBody {o : Options} {c : Context} {f : FuncDecl} {r : Except Failure Unit}
    {g : Func} {bound : List (Name × DataType)} (hc : Solid c.scopes)
    (hvoid : ∀ p ∈ f.params, p.type ≠ .void) (h : lowerBody o c f = .ok (r, g, bound)) :
    Noted (innerAtoms f) bound := by
  obtain ⟨b, _, hrun, -, -, rfl⟩ := lowerBody_ends h
  obtain ⟨notes, hnotes, -⟩ := (records_bodyCode hvoid).inScope _ _ _ hrun
  have hbound := hnotes.bound
  rw [List.append_nil] at hbound
  exact hbound ▸ hnotes.noted hc

theorem noted_lowerBodies {o : Options} {c : Context} (hc : Solid c.scopes) :
    ∀ {fs : List FuncDecl} {out out' : Outcome}, (∀ f ∈ fs, ∀ p ∈ f.params, p.type ≠ .void) →
      lowerBodies o c out fs = .ok out' →
      ∃ notes, out'.bound = notes ++ out.bound ∧ Noted (fs.flatMap innerAtoms) notes
  | [], _, _, _, h => by
    cases h
    exact ⟨[], rfl, .refl _, nofun⟩
  | f :: fs, out, out', hvoid, h => by
    obtain ⟨hf, hfs⟩ := List.forall_mem_cons.1 hvoid
    unfold lowerBodies at h
    split at h
    · rcases hbody : lowerBody o c f with e | ⟨r, g, bound⟩
      · rw [hbody] at h
        cases h
      · rw [hbody] at h
        obtain ⟨notes, hnotes, hnoted⟩ := noted_lowerBodies hc hfs h
        refine ⟨notes ++ bound, ?_, (noted_lowerBody hc hf hbody).append hnoted⟩
        rw [hnotes, List.append_assoc]
    · cases h
      exact ⟨[], rfl, List.nil_subperm, nofun⟩

/-! ## Global variables -/

/-- The state of a walk in the function that computes the values of global variables. -/
def Globals.body (g : Globals) (o : Options) : Body := ⟨g.initDraft o, g.scopes, g.bound⟩

section

variable {Γ : Signatures} {o : Options} {g g' : Globals} {v : GlobalVar}

theorem notes_walk {α : Type} {as : List Atom} {act : Lower α} {r : Except Failure α}
    (hact : Records as act) (h : g.walk o act = .ok (r, g')) :
    ∃ notes, Notes as (g.body o) (g'.body o) notes := by
  obtain ⟨b, hrun, rfl⟩ := walk_cases h
  obtain ⟨notes, hnotes, -⟩ := hact _ _ _ hrun
  exact ⟨notes, hnotes⟩

theorem notes_declare (hvoid : v.var.type ≠ .void) :
    ∃ notes, Notes [.var v.var.name] (g.body o) ((g.declare v).2.body o) notes := by
  unfold Globals.declare
  dsimp only
  split
  · exact ⟨[], rfl, List.nil_subperm, id, fun _ => nofun⟩
  next σ hσ =>
    refine ⟨[(v.var.name, v.var.type)], rfl, .refl _, fun hg => hg.declare hvoid hσ, fun _ => ?_⟩
    exact List.forall_mem_singleton.2 fun h => absurd h hvoid

theorem ne_void_of_badGlobal? (h : badGlobal? v = none) : v.var.type ≠ .void := by
  intro hvoid
  simp [badGlobal?, hvoid] at h

/-- A global variable notes types of its names. -/
theorem notes_add {r : Except Failure Unit} (h : g.add Γ o v = .ok (r, g')) :
    ∃ notes, Notes v.var.atoms (g.body o) (g'.body o) notes := by
  have hname : [.var v.var.name] <+ v.var.atoms := (List.nil_sublist _).cons_cons _
  cases adds_of_add h with
  | bad => exact ⟨[], rfl, List.nil_subperm, id, fun _ => nofun⟩
  | repeated hbad =>
    refine ⟨[(v.var.name, v.var.type)], rfl, (hname.map Atom.item).subperm, id, fun _ => ?_⟩
    exact List.forall_mem_singleton.2 fun hvoid => absurd hvoid (ne_void_of_badGlobal? hbad)
  | plain hbad =>
    obtain ⟨notes, hnotes⟩ := notes_declare (g := g) (o := o) (ne_void_of_badGlobal? hbad)
    exact ⟨notes, hnotes.mono (hname.map _).subperm hname.subset⟩
  | failed hbad hinit hwalk =>
    obtain ⟨notes, hnotes⟩ := notes_walk (tells_expr _).records hwalk
    obtain ⟨notes', hnotes'⟩ := notes_declare (ne_void_of_badGlobal? hbad)
    exact ⟨_, (hnotes.trans hnotes').perm (perm_atoms_varDecl hinit)⟩
  | valued hbad hinit hwalk _ hstore =>
    obtain ⟨notes, hnotes⟩ := notes_walk (tells_expr _).records hwalk
    obtain ⟨notes', hnotes'⟩ := notes_declare (ne_void_of_badGlobal? hbad)
    have hquiet := (frames_walk (frames_initStore framing_quiet) hstore).notes
    have hall := (hnotes.trans hnotes').trans hquiet
    rw [List.append_nil] at hall
    exact ⟨_, hall.perm (perm_atoms_varDecl hinit)⟩

/-- The round over global variables notes types of their names. -/
theorem notes_addGlobals {vs : List GlobalVar} {problems problems' : List Problem}
    (h : addGlobals Γ o g problems vs = .ok (g', problems')) :
    ∃ notes, Notes (vs.flatMap fun v => v.var.atoms) (g.body o) (g'.body o) notes := by
  obtain ⟨more, hmore, ⟨notes, hnotes⟩, -⟩ := addGlobals_induction
    (P := fun done g' _ => ∃ notes,
      Notes (done.flatMap fun v => v.var.atoms) (g.body o) (g'.body o) notes)
    (fun done v g₁ g₂ _ _ ih hadd => by
      obtain ⟨notes, hnotes⟩ := ih
      obtain ⟨notes', hnotes'⟩ := notes_add hadd
      rw [List.flatMap_append, List.flatMap_singleton]
      exact ⟨_, hnotes.trans hnotes'⟩)
    [] ⟨[], rfl, List.nil_subperm, id, fun _ => nofun⟩ h
  have hsub := hmore.sublist.flatMap fun v => v.var.atoms
  exact ⟨notes, hnotes.mono (hsub.map _).subperm hsub.subset⟩

end

/-- The implicit output has values. -/
theorem Solid.synthesize {o : Options} {g : Globals} (h : Solid g.scopes) :
    Solid (g.synthesize o).scopes := by
  unfold Globals.synthesize
  split
  · obtain ⟨_, hnotes⟩ := notes_declare (g := g) (o := o) (v := implicitPosition) nofun
    exact hnotes.solid h
  · exact h

/-! ## Programs -/

/-- The atoms of a program, in the order in which lowering gets to them. -/
theorem perm_atoms_program (p : Program) : p.atoms ~ (funcDecls p).map (fun f => .func f.name) ++
    (globalVars p).flatMap (fun v => v.var.atoms) ++ (funcDecls p).flatMap innerAtoms := by
  rcases p with ⟨pos, version, defs⟩
  rw [List.append_assoc]
  induction defs with
  | nil => exact .nil
  | cons d ds ih =>
    cases d with
    | global g =>
      refine (List.Perm.append_left g.var.atoms ih).trans ?_
      refine (List.perm_append_comm_assoc _ _ _).trans ?_
      rw [← List.append_assoc g.var.atoms]
      exact .refl _
    | func f =>
      refine ((List.Perm.append_left (innerAtoms f) ih).trans ?_).cons (.func f.name)
      refine (List.perm_append_comm_assoc _ _ _).trans (List.Perm.append_left _ ?_)
      exact List.perm_append_comm_assoc _ _ _

/-- The names of functions are noted with the types of their results. -/
theorem noted_declared (declared : List FuncDecl) :
    Noted (declared.map fun f => .func f.name) (declared.map fun f => (f.name, f.result)) := by
  refine ⟨?_, fun x hx _ => ?_⟩
  · rw [List.map_map, List.map_map]
    exact .refl _
  · obtain ⟨f, hf, rfl⟩ := List.mem_map.1 hx
    exact List.mem_map.2 ⟨f, hf, rfl⟩

/-- What lowering has noted of a program is about its names, each of them once. -/
theorem noted_lower {o : Options} {p : Program} {out : Outcome} (h : lower o p = .ok out) :
    Noted p.atoms out.bound := by
  obtain ⟨r⟩ := exists_rounds h
  obtain ⟨hdeclarable, hdeclared, -⟩ := Declarable.declareFuncs (o := o) (funcDecls p) [] .nil
  rw [r.signed] at hdeclarable hdeclared
  obtain ⟨notes, hglobals⟩ := notes_addGlobals r.added
  have hstart :
      Solid (Globals.body { bound := r.declared.map fun f => (f.name, f.result) } o).scopes :=
    List.forall_mem_singleton.2 (List.forall_mem_nil _)
  have hsolid : Solid r.globals.scopes := hglobals.solid hstart
  have hfinal : Solid r.final.scopes := by
    rcases r.final_cases with ⟨-, hfinish⟩ | ⟨-, hfinal⟩
    · obtain ⟨-, hscopes, -⟩ := finish_frame hfinish
      exact hscopes ▸ hsolid.synthesize
    · rwa [hfinal]
  obtain ⟨notes', hbodies, hnoted⟩ := noted_lowerBodies hfinal hdeclarable.params r.bodies
  have hbound : out.bound = notes' ++ (notes ++ r.declared.map fun f => (f.name, f.result)) :=
    calc out.bound
      _ = notes' ++ r.final.bound := r.bound_eq.trans hbodies
      _ = notes' ++ r.globals.bound := by rw [r.bound_final]
      _ = notes' ++ (notes ++ r.declared.map fun f => (f.name, f.result)) :=
        congrArg (notes' ++ ·) hglobals.bound
  rw [hbound]
  refine (((noted_declared r.declared).append (hglobals.noted hstart)).append hnoted).mono ?_
  refine List.Subperm.trans ?_ (perm_atoms_program p).symm.subperm
  exact (((hdeclared.map _).append (List.Sublist.refl _)).append (hdeclared.flatMap _)).subperm

/-! ## Types -/

theorem nodup_of_subperm {α : Type} {l m : List α} (h : l <+~ m) (hm : m.Nodup) : l.Nodup := by
  obtain ⟨k, hperm, hsub⟩ := h
  exact hperm.nodup_iff.1 (hm.sublist hsub)

/-- A name that is noted once is found. -/
theorem lookup_note {notes : List (Name × DataType)} (more : List (Name × DataType))
    (hnodup : (notes.map fun x => x.1.item).Nodup) {x : Name × DataType} (hx : x ∈ notes) :
    (notes ++ more).lookup x.1 = some x.2 := by
  obtain ⟨l, m, rfl⟩ := List.append_of_mem hx
  refine List.lookup_eq_some_iff.2 ⟨l, m ++ more, by simp, fun y hy => ?_⟩
  rw [List.map_append, List.nodup_append] at hnodup
  have hne := hnodup.2.2 y.1.item (List.mem_map.2 ⟨y, hy, rfl⟩) x.1.item List.mem_cons_self
  rw [bne_iff_ne]
  rintro heq
  exact hne (heq ▸ rfl)

/-- Notes among others that are all about different names say the same. -/
theorem lookup_among {l m : List (Name × DataType)} (hnodup : (m.map fun x => x.1.item).Nodup)
    (hamong : l <:+: m) {x : Name × DataType} (hx : x ∈ l) : m.lookup x.1 = some x.2 := by
  have hfound := lookup_note [] hnodup (hamong.mem hx)
  rwa [List.append_nil] at hfound

/-- A variable of a parsed program is not noted without values: only functions are, and no name is
that of a variable and of a function at once. -/
theorem Noted.ne_void {as : List Atom} {notes : List (Name × DataType)} (h : Noted as notes)
    (hnodup : (as.map Atom.item).Nodup) {n : Name} (hn : .var n ∈ as) :
    notes.lookup n ≠ some .void := by
  intro hvoid
  obtain ⟨l, m, rfl, -⟩ := List.lookup_eq_some_iff.1 hvoid
  have hfunc : .func n ∈ as := h.typed (n, .void) (List.mem_append_right l List.mem_cons_self) rfl
  exact Atom.noConfusion (List.inj_on_of_nodup_map hnodup hn hfunc rfl)

/-- The document of an expression tells its type. -/
theorem exists_document (γ : Binding) (e : Expr) :
    ∃ kind parts, e.document γ = Document.typed kind e.pos (e.type? γ) parts := by
  cases e <;> exact ⟨_, _, rfl⟩

/-- Wherever an expression of a parsed program is lowered, its type under the types of names that
have been noted by then is the type of the operand.

The notes of a walk stay, and if it is a part of lowering the program, they are among those of the
whole program (`Rounds.Reaches.infix_bound`). So the type is also the one under all notes, and the
tree tells it; and the operand has no type just if it has no value. -/
theorem type?_expr {s : Source} {p : Program} (hparse : s.parse.program = some p) {e : Expr}
    (he : p.Holds e) {Γ : Signatures} {b b' : Body} {a : Operand}
    (hrun : (expr Γ e).run b = .ok (.ok a, b')) :
    e.type? (fun n => b'.bound.lookup n) = some a.type ∧
      ∀ {o : Options} {out : Outcome}, lower o p = .ok out → b'.bound <:+: out.bound →
        e.type? out.binding = some a.type ∧ (a.type = .void ↔ a.hasValue = false) ∧
          ∃ kind parts, e.document out.binding =
            Document.node kind e.pos (("exprtype", .str a.type.name) :: parts) := by
  have hnodup := s.nodup_atoms hparse
  have hsub := he.atoms_sublist
  obtain ⟨notes, hnotes, hresult⟩ := tells_expr e b _ b' hrun
  refine ⟨(hresult a rfl _ fun x hx => ?_).type, fun {o out} hlower hamong => ?_⟩
  · rw [hnotes.bound]
    exact lookup_note _ (nodup_of_subperm hnotes.items (hnodup.sublist (hsub.map _))) hx
  have hnoted := noted_lower hlower
  have hfits := hresult a rfl (fun n => out.bound.lookup n) fun x hx =>
    lookup_among (nodup_of_subperm hnoted.items hnodup) hamong
      (hnotes.bound ▸ List.mem_append_left b.bound hx)
  refine ⟨hfits.type, ⟨fun hvoid => ?_, Operand.type_eq_void⟩, ?_⟩
  · by_contra hvalue
    rw [Bool.not_eq_false] at hvalue
    exact hfits.value (fun n hn => hnoted.ne_void hnodup (hsub.subset hn)) hvalue hvoid
  · obtain ⟨kind, parts, hdocument⟩ := exists_document (fun n => out.bound.lookup n) e
    rw [hfits.type] at hdocument
    exact ⟨kind, parts, hdocument⟩

/-- A program with a global variable that has the value of a sum. -/
def summed : Source where
  bytes := "float x = 2.5; float y = x + 1.0;".toUTF8.toList

/-- The sum is lowered where `x` is declared, to a value of the type that the tree tells. -/
theorem type?_expr_summed : ∃ p out v e b' a, summed.parse.program = some p ∧
    lower {} p = .ok out ∧ v ∈ globalVars p ∧ p.Holds e ∧
    (expr (fun _ => none) e).run ((({} : Globals).declare v).2.body {}) = .ok (.ok a, b') ∧
    b'.bound.length = 2 ∧ a.type = .float ∧ e.type? out.binding = some .float ∧
    a.hasValue = true := by
  have hreports : summed.scan.reports = [] := scan_reports_eq_nil (by decide +kernel)
  obtain ⟨p, out, hparse, hlower, -, htest⟩ := exists_accepted (t := fun p out =>
    (globalVars p).any fun v => p.exprs.any fun e =>
      ((expr (fun _ => none) e).run ((({} : Globals).declare v).2.body {})).toOption.any fun r =>
        r.1.toOption.any fun a => decide (r.2.bound <:+: out.bound) && r.2.bound.length == 2 &&
          a.type == .float) hreports (by decide +kernel)
  simp only [List.any_eq_true] at htest
  obtain ⟨v, hv, e, he, htest⟩ := htest
  have hholds : p.Holds e := ⟨e, he, .refl⟩
  rcases hrun : (expr (fun _ => none) e).run ((({} : Globals).declare v).2.body {})
    with fault | ⟨failure | a, b'⟩
  · rw [hrun] at htest
    cases htest
  · rw [hrun] at htest
    cases htest
  rw [hrun] at htest
  simp only [Except.toOption, Option.any_some, Bool.and_eq_true, decide_eq_true_eq,
    beq_iff_eq] at htest
  obtain ⟨⟨hamong, hlength⟩, htype⟩ := htest
  obtain ⟨htree, hvoid, -⟩ := (type?_expr hparse hholds hrun).2 hlower hamong
  refine ⟨p, out, v, e, b', a, hparse, hlower, hv, hholds, hrun, hlength, htype, htype ▸ htree, ?_⟩
  rw [← Bool.not_eq_false, ← hvoid, htype]
  exact nofun

end Shader.Lowering
