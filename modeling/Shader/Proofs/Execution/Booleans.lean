import Shader.Proofs.Execution.Truths
import Shader.Proofs.Rooms.Constants

/-!
# Truth values of accepted programs

The functions of an accepted program keep to truth values if the minus sign stands in front of
numbers alone: whatever they compute with a type of truth values is zero or one in every component,
in every execution that the host starts with truth values where these are asked for. The condition
cannot be left out: the minus sign keeps the type of its operand, and makes minus one of a truth
value.
-/

namespace Shader

variable {p : Program} {e x : Expr}

theorem Program.holds_of_func {f : FuncDecl} (hf : f ∈ Lowering.funcDecls p)
    (hx : x ∈ Stmt.allExprs f.body) : p.Holds x :=
  ⟨x, List.mem_flatMap.2 ⟨_, Lowering.func_mem_defs hf, hx⟩, .refl⟩

theorem Program.holds_of_global {v : GlobalVar} (hv : v ∈ Lowering.globalVars p)
    (hx : x ∈ v.var.init.toList) : p.Holds x :=
  ⟨x, List.mem_flatMap.2 ⟨_, Lowering.global_mem_defs hv, hx⟩, .refl⟩

/-- An expression, and whatever occurs in it up to a depth, passes a test; nothing is deeper. -/
def Expr.allPass (test : Expr → Bool) : Nat → Expr → Bool
  | 0, _ => false
  | n + 1, x => test x && x.children.all (allPass test n)

theorem Expr.Occurs.passes {test : Expr → Bool} : ∀ {n : Nat} {x : Expr},
    x.allPass test n = true → e.Occurs x → test e = true
  | n + 1, x, h, he => by
    rw [allPass, Bool.and_eq_true, List.all_eq_true] at h
    rcases he.cases_tail with rfl | ⟨y, hy, hchild⟩
    · exact h.1
    · exact Occurs.passes (h.2 y hchild) hy

/-- What occurs in what stands in a shader stands there, too. -/
theorem Program.Holds.occurs (h : p.Holds x) (he : e.Occurs x) : p.Holds e := by
  obtain ⟨y, hy, hoccurs⟩ := h
  exact ⟨y, hy, he.trans hoccurs⟩

end Shader

namespace Shader.Ir.Module

variable {R : Type}

/-- The memory of a module that has just been loaded: all global variables are zero, those that the
host provides as well. -/
def loaded (m : Module) (N : Arithmetic R) : Memory R where
  content
    | .global id => (m.globals.find? fun x => x.id = id).bind fun x => (Const.zeroOf x.type).datum N
    | .cell _ => none
  cells := 0

/-- What a function of a module that has just been loaded is about to return, a number of steps
after the host has started it. -/
def resultAfter (m : Module) (N : Arithmetic R) (n : Nat) (id : FuncId) (args : List (Datum R)) :
    Option (Datum R) := do
  let g ← m.func? id
  let s ← m.after N n ⟨[← g.activation args], m.loaded N⟩
  let a ← s.stack.head?
  match ← (m.block? a.func a.block).bind Block.term with
  | .ret (some v) => if a.func = id then a.value N v else none
  | _ => none

end Shader.Ir.Module

namespace Shader.Lowering

open Ir

/-! ## Programs -/

/-- The minus sign stands in front of numbers alone, and never of truth values. -/
def NegatesNumbers (p : Program) (γ : Binding) : Prop :=
  ∀ pos x t, p.Holds (.unary pos .neg x) → x.type? γ = some t → t.isBoolean = false

/-- What the code of a function of a program can refer to. All functions but those of the program
compute values of global variables. -/
def settingOf (p : Program) (id : FuncId) : Setting :=
  match (funcDecls p).find? fun f => f.name.text = id.name with
  | some f => .ofFunc (signatures (funcDecls p)) (FirstGlobal (globalVars p)) f
  | none => .ofInit (signatures (funcDecls p)) (FirstGlobal (globalVars p))

section

variable {p : Program} {f : FuncDecl} {id : FuncId}

@[simp] theorem settingOf_globals : (settingOf p id).globals = FirstGlobal (globalVars p) := by
  unfold settingOf
  split <;> rfl

@[simp] theorem settingOf_sigs : (settingOf p id).sigs = signatures (funcDecls p) := by
  unfold settingOf
  split <;> rfl

theorem settingOf_func (hnames : ((funcDecls p).map fun f => f.name.text).Nodup)
    (hf : f ∈ funcDecls p) : settingOf p ⟨f.name.text, 0⟩ =
      .ofFunc (signatures (funcDecls p)) (FirstGlobal (globalVars p)) f := by
  unfold settingOf
  split
  next f' hfind =>
    have hname : f'.name.text = f.name.text := by simpa using List.find?_some hfind
    obtain rfl := List.inj_on_of_nodup_map hnames (List.mem_of_find?_eq_some hfind) hf hname
    rfl
  next hnone => exact absurd hf fun h => by simpa using List.find?_eq_none.1 hnone f h

theorem settingOf_init (hfree : NamesFree (funcDecls p)) : settingOf p ⟨initName, 0⟩ =
    .ofInit (signatures (funcDecls p)) (FirstGlobal (globalVars p)) := by
  unfold settingOf
  split
  next f hfind =>
    exact absurd (by simpa using List.find?_some hfind) (hfree f (List.mem_of_find?_eq_some hfind))
  next => rfl

/-- Calls know the parameters and the result of a function. -/
theorem settingOf_call {name : String} {sig : Signature}
    (hsig : (settingOf p id).sigs name = some sig) :
    (settingOf p ⟨sig.name, 0⟩).params.map passing = sig.params ∧
      (settingOf p ⟨sig.name, 0⟩).result = sig.result := by
  rw [settingOf_sigs, signatures] at hsig
  obtain ⟨f, hfind, rfl⟩ := Option.map_eq_some_iff.1 hsig
  have hname : f.name.text = name := by simpa using List.find?_some hfind
  have hsame : (funcDecls p).find? (fun g => g.name.text = f.name.text) = some f := by
    rw [hname, hfind]
  rw [settingOf, signatureOf]
  dsimp only
  rw [hsame]
  exact ⟨rfl, rfl⟩

end

/-! ## Rooms -/

/-- The room in a function is that of the parameters that it only reads and, behind it, that of the
variables that its statements declare, which are given their first values. -/
structure Furnished (Γ : Signatures) (f : FuncDecl) (k : Ledger) (slots : List Slot)
    (ls : List Local) (g : Func) : Prop where
  /-- there is no other -/
  rooms : k.slots = slots ++ ls.map Local.slot
  /-- nor do other stores give variables their first values -/
  firsts : k.first = ls.map fun l => ((l.store g.id).reg, l.addr g.id)
  /-- that of the parameters -/
  params : Spilled f.params 0 slots g
  /-- that of the variables -/
  locals : Locals Γ f g ls

/-- In the function that computes the values of global variables there is no room, and its stages
give the variables with initializers their first values. -/
structure Provided (Γ : Signatures) (vs : List GlobalVar) (k : Ledger) (ss : List Stage)
    (g : Func) : Prop where
  /-- no room is reserved -/
  rooms : k.slots = []
  /-- no other stores give variables their first values -/
  firsts : k.first = ss.map fun s => (s.store.reg, s.addr)
  /-- the stages are those of the variables whose values are computed -/
  vars : ss.map Stage.var = vs.filter isComputed
  /-- lowering goes through them -/
  lowered : ∀ s ∈ ss, s.Lowered Γ
  /-- and their stores are in the code -/
  written : ∀ s ∈ ss, s.store ∈ g.code

section

variable {s : Source} {p : Program} {o : Options} {out : Outcome} {x : Expr}
  (hparse : s.parse.program = some p) (hlower : lower o p = .ok out)

include hparse hlower in
/-- Lowering applies the minus sign to numbers. -/
theorem permitted_truths (hneg : NegatesNumbers p out.binding) (hx : p.Holds x) (id : FuncId) :
    Permitted ((Demand.truths (settingOf p id)).among out.bound) x := by
  intro pos op e hoccurs b a b' hrun hseen hop
  subst hop
  have hunary := hx.occurs hoccurs
  have he : p.Holds e := hunary.occurs (.single (by simp [Expr.children]))
  exact hneg pos e _ hunary ((type?_expr hparse he hrun).2 hlower hseen).1

end

/-- A function of a program keeps to the room that it has. -/
theorem exists_kept {p : Program} {o : Options} {out : Outcome} {c : Context} {gs : List Func}
    {values : Option Func} (h : Lowered o p out c gs values) {σ : Scopes DataType Value}
    {hasInit : Bool} {f : FuncDecl} {g : Func} {bound : List (Name × DataType)}
    (hf : f ∈ funcDecls p) (hscopes : σ.All (NamesGlobal (FirstGlobal (globalVars p))))
    (hpermitted : ∀ x ∈ Stmt.allExprs f.body,
      Permitted ((Demand.truths (settingOf p ⟨f.name.text, 0⟩)).among out.bound) x)
    (hg : g ∈ out.module.funcs) (hseen : bound <:+: out.bound)
    (hrun : lowerBody o ⟨signatures (funcDecls p), σ, hasInit⟩ f = .ok (.ok (), g, bound)) :
    g.id = ⟨f.name.text, 0⟩ ∧ ∃ k slots ls, Kept (settingOf p g.id) k g ∧
      Furnished (signatures (funcDecls p)) f k slots ls g := by
  rw [settingOf_func h.declarable.names hf] at hpermitted
  obtain ⟨n, slots, ls, d, rfl, htraced, hdeclared, hspilled, hslots⟩ := exists_declared
    ((fitness_truths (.ofFunc (signatures (funcDecls p)) (FirstGlobal (globalVars p)) f)).among
      out.bound) hscopes hpermitted hrun hseen
  have hid : d.func.id = ⟨f.name.text, 0⟩ := htraced.id
  have htraced := traced_among.1 htraced
  have hfinished := h.finished trivial d.func hg
  have hkept : Kept (.ofFunc (signatures (funcDecls p)) (FirstGlobal (globalVars p)) f)
      (Ledger.with { slots } ⟨f.name.text, 0⟩ ls) d.func := by
    refine ⟨htraced.line, htraced.term, ?_, fun s hs => ?_, hfinished.dominated.numbered,
      hfinished.tidy.detached⟩
    · have hordered : (slots ++ ls.map Local.slot).Pairwise fun s s' => s.reg < s'.reg := by
        refine List.pairwise_append.2 ⟨hspilled.ordered, List.pairwise_map.2 hdeclared.ordered,
          fun s hs s' hs' => ?_⟩
        obtain ⟨l, hl, rfl⟩ := List.mem_map.1 hs'
        exact Nat.lt_of_lt_of_le (hslots s hs) (hdeclared.since l hl)
      exact List.pairwise_map.2 (hordered.imp Nat.ne_of_lt)
    · rcases List.mem_append.1 hs with hs | hs
      · exact hspilled.written s hs
      · obtain ⟨l, hl, rfl⟩ := List.mem_map.1 hs
        exact (hdeclared.written l hl).1
  refine ⟨hid, Ledger.with { slots } ⟨f.name.text, 0⟩ ls, slots, ls, ?_, rfl, hid ▸ rfl, hspilled,
    ?_⟩
  · rwa [hid, settingOf_func h.declarable.names hf]
  · exact hdeclared.locals htraced.id htraced.line hslots

/-- So does the function that computes the values of global variables. -/
theorem kept_init {p : Program} {o : Options} {out : Outcome} {c : Context} {gs : List Func}
    {values : Option Func} (h : Lowered o p out c gs values) (hfree : NamesFree (funcDecls p))
    {ss : List Stage} {d : Draft} (hd : d.func ∈ out.module.funcs)
    (htraced : Traced (.truths (settingOf p ⟨initName, 0⟩)) (.ofStages ss) d) :
    Kept (settingOf p d.func.id) (.ofStages ss) d.func := by
  have hfinished := h.finished trivial d.func hd
  have hid := htraced.id
  rw [settingOf_init hfree] at hid htraced
  rw [hid]
  change Kept (settingOf p ⟨initName, 0⟩) _ _
  rw [settingOf_init hfree]
  exact ⟨htraced.line, htraced.term, .nil, List.forall_mem_nil _, hfinished.dominated.numbered,
    hfinished.tidy.detached⟩

section

variable {s : Source} {p : Program} {o : Options} {out : Outcome}
  (hparse : s.parse.program = some p) (hlower : lower o p = .ok out) (hok : out.problems = [])
  (hneg : NegatesNumbers p out.binding)
include hparse hlower hok hneg

/-- The functions of an accepted program keep to the room that they have. -/
theorem exists_kept_of_mem : ∀ g ∈ out.module.funcs, ∃ k, Kept (settingOf p g.id) k g ∧
    (∀ f ∈ funcDecls p, g.id = ⟨f.name.text, 0⟩ →
      ∃ slots ls, Furnished (signatures (funcDecls p)) f k slots ls g) ∧
    (g.id = ⟨initName, 0⟩ →
      ∃ ss, Provided (signatures (funcDecls p)) (globalVars p) k ss g) := by
  obtain ⟨r⟩ := exists_rounds hlower
  have hfree := namesFree_of_parse hparse
  obtain ⟨c, gs', values, hlowered⟩ := exists_lowered hparse hlower hok
  obtain ⟨ss, hss⟩ := StagesTraced.addGlobals ((fitness_truths
    (.ofInit (signatures (funcDecls p)) (FirstGlobal (globalVars p)))).among out.bound)
    (r.added_eq hok)
  have hpermitted : ∀ x, p.Holds x → ∀ id,
      Permitted ((Demand.truths (settingOf p id)).among out.bound) x := fun x hx id =>
    permitted_truths hparse hlower hneg hx id
  -- the globals come first: their rooms are what the bodies start from
  obtain ⟨hscopes, -, hinit⟩ := hss.finish ⟨fun _ _ _ h => h, fun v hv x hx => by
    have hx := hpermitted x (Program.holds_of_global hv hx) ⟨initName, 0⟩
    rwa [settingOf_init hfree] at hx⟩ r.bound_grow.isInfix (r.ended_eq hok hparse)
  intro g hg
  obtain ⟨f, hf, -, bound, hrun, hamong⟩ | ⟨d, hd, rfl⟩ := r.func_cases hok hparse hg
  · rw [r.context_declared hok] at hrun
    obtain ⟨hid, k, slots, ls, hkept, hrooms⟩ := exists_kept hlowered hf hscopes
      (fun x hx => hpermitted x (Program.holds_of_func hf hx) _) hg hamong hrun
    refine ⟨k, hkept, fun f' hf' hname => ?_, fun hname => ?_⟩
    · have hsame : f'.name.text = f.name.text :=
        congrArg FuncId.name (hname.symm.trans hid)
      obtain rfl := List.inj_on_of_nodup_map hlowered.declarable.names hf' hf hsame
      exact ⟨slots, ls, hrooms⟩
    · exact absurd (congrArg FuncId.name (hid.symm.trans hname)) (hfree _ hf)
  · obtain ⟨htraced, hstores⟩ := hinit d hd
    have hid : d.func.id = ⟨initName, 0⟩ := htraced.id
    refine ⟨.ofStages ss, kept_init hlowered hfree hg ?_, fun f hf hname => ?_, fun _ => ?_⟩
    · rw [settingOf_init hfree]
      exact traced_among.1 htraced
    · exact absurd (congrArg FuncId.name (hname.symm.trans hid)) (hfree f hf)
    · exact ⟨ss, rfl, rfl, hss.vars, hss.lowered, hstores⟩

/-- All of them do, with the room of each. -/
theorem exists_moduleKept : ∃ K : FuncId → Ledger,
    ModuleKept out.module (FirstGlobal (globalVars p)) (settingOf p) K ∧
    (∀ f ∈ funcDecls p, ∃ g slots ls, out.module.func? ⟨f.name.text, 0⟩ = some g ∧
      Furnished (signatures (funcDecls p)) f (K ⟨f.name.text, 0⟩) slots ls g) ∧
    ∀ g, out.module.func? ⟨initName, 0⟩ = some g →
      ∃ ss, Provided (signatures (funcDecls p)) (globalVars p) (K ⟨initName, 0⟩) ss g := by
  obtain ⟨c, gs, values, hlowered⟩ := exists_lowered hparse hlower hok
  have hkept := exists_kept_of_mem hparse hlower hok hneg
  have hroom : ∀ id, ∃ k, ∀ g, out.module.func? id = some g → Kept (settingOf p id) k g ∧
      (∀ f ∈ funcDecls p, id = ⟨f.name.text, 0⟩ →
        ∃ slots ls, Furnished (signatures (funcDecls p)) f k slots ls g) ∧
      (id = ⟨initName, 0⟩ →
        ∃ ss, Provided (signatures (funcDecls p)) (globalVars p) k ss g) := by
    intro id
    rcases hfunc : out.module.func? id with _ | g
    · exact ⟨{}, nofun⟩
    · have hid : g.id = id := by simpa using List.find?_some hfunc
      obtain ⟨k, hk⟩ := hkept g (List.mem_of_find?_eq_some hfunc)
      exact ⟨k, fun _ heq => Option.some.inj heq ▸ hid ▸ hk⟩
  -- names of functions are unique, so one ledger for each is enough
  choose K hK using hroom
  refine ⟨K, ⟨fun h h' => (h.unique h').1, fun _ => settingOf_globals,
    fun hfunc => (hK _ _ hfunc).1, settingOf_call⟩, fun f hf => ?_,
    fun g hfunc => (hK _ g hfunc).2.2 rfl⟩
  obtain ⟨g, hg, hbody⟩ := hlowered.exists_body hf
  have hsome : (out.module.func? ⟨f.name.text, 0⟩).isSome = true := by
    refine List.find?_isSome.2 ⟨g, ?_, decide_eq_true hbody.id⟩
    rw [hlowered.funcs]
    exact List.mem_append_left _ hg
  obtain ⟨g', hfunc⟩ := Option.isSome_iff_exists.1 hsome
  obtain ⟨slots, ls, hrooms⟩ := (hK _ _ hfunc).2.1 f hf rfl
  exact ⟨g', slots, ls, hfunc, hrooms⟩

end

/-! ## Global variables -/

section

variable {Γ : Signatures} {o : Options} {done : List GlobalVar} {g g' : Globals} {v : GlobalVar}

theorem firstGlobal_declare {addr : Value} (hnames : Named done g)
    (hok : (g.declare v).1 = .ok addr)
    (h : ∀ x ∈ g.globals, ∃ c, FirstGlobal done x.id x.type c) :
    ∀ x ∈ (g.declare v).2.globals, ∃ c, FirstGlobal (done ++ [v]) x.id x.type c := by
  have haddr := addr_declare hnames hok
  obtain ⟨hid, -⟩ := Value.global.inj ((Globals.declare_eq_of_ok hok).1.symm.trans haddr)
  rw [globals_declare]
  refine List.forall_mem_append.2 ⟨fun y hy => ?_, List.forall_mem_singleton.2 ⟨v.var.isConst, ?_⟩⟩
  · obtain ⟨c, hc⟩ := h y hy
    exact ⟨c, hc.concat⟩
  · rw [hid]
    exact firstGlobal_concat (hnames.new hok)

/-- A variable that does not fail is the first with its name, or it is not added. -/
theorem firstGlobal_add (hnames : Named done g)
    (h : ∀ x ∈ g.globals, ∃ c, FirstGlobal done x.id x.type c)
    (hadd : g.add Γ o v = .ok (.ok (), g')) :
    ∀ x ∈ g'.globals, ∃ c, FirstGlobal (done ++ [v]) x.id x.type c := by
  generalize hr : (Except.ok () : Except Failure Unit) = r at hadd
  cases adds_of_add hadd with
  | bad => cases hr
  | repeated => exact fun x hx => (h x hx).imp fun _ hc => hc.concat
  | plain =>
    rcases hdeclare : (g.declare v).1 with failure | addr
    · rw [hdeclare] at hr
      cases hr
    · exact firstGlobal_declare hnames hdeclare h
  | failed => cases hr
  | valued _ _ hwalk hdeclare hstore =>
    rw [globals_walk hstore]
    refine firstGlobal_declare (hnames.walk settles_expr hwalk) hdeclare ?_
    rwa [globals_walk hwalk]

end

section

variable {s : Source} {p : Program} {o : Options} {out : Outcome}
  (hparse : s.parse.program = some p) (hlower : lower o p = .ok out) (hok : out.problems = [])
include hparse hlower hok

/-- The global variables of the module are the first with their names. -/
theorem firstGlobal_of_mem : ∀ x ∈ out.module.globals,
    ∃ c, FirstGlobal (globalVars p) x.id x.type c := by
  obtain ⟨r⟩ := exists_rounds hlower
  have hglobals : out.module.globals = r.globals.globals :=
    r.globals_eq.trans (finish_frame (r.ended_eq hok hparse)).1
  have hboth : Named (globalVars p) r.globals ∧
      ∀ x ∈ r.globals.globals, ∃ c, FirstGlobal (globalVars p) x.id x.type c :=
    addGlobals_induction_ok
      (P := fun done g => Named done g ∧ ∀ x ∈ g.globals, ∃ c, FirstGlobal done x.id x.type c)
      (fun _ _ _ _ h hadd => ⟨h.1.add hadd, firstGlobal_add h.1 h.2 hadd⟩)
      ⟨.start _, List.forall_mem_nil _⟩ (r.added_eq hok)
  exact hglobals ▸ hboth.2

/-- The first global variables with their names are those of the module. -/
theorem exists_global {id : GlobalId} {t : DataType} {c : Bool}
    (h : FirstGlobal (globalVars p) id t c) : ∃ x ∈ out.module.globals, x.id = id ∧ x.type = t := by
  have ⟨hcopy, v, hv, _, _⟩ := h
  have hname : v.var.name.text = id.name := by simpa using List.find?_some hv
  obtain ⟨x, hx, hxname⟩ := List.mem_map.1 (((names_globals hparse hlower hok).2 id.name).2
    ⟨v, List.mem_of_find?_eq_some hv, hname⟩)
  obtain ⟨c', hfirst⟩ := firstGlobal_of_mem hparse hlower hok x hx
  have hid : x.id = id := by
    rcases x with ⟨⟨_, _⟩, _, _, _⟩
    rcases id with ⟨_, _⟩
    exact congrArg₂ GlobalId.mk hxname (hfirst.1.trans hcopy.symm)
  exact ⟨x, hx, hid, (hid ▸ hfirst).unique h |>.1⟩

end

/-! ## Executions -/

section

variable {R : Type}

/-- A value of an operand: lowering gets to an expression where the code and the names in scope keep
to the room that has been reserved by then, and the code of the function goes on from there. -/
inductive OperandValue (p : Program) (notes : List (Name × DataType)) (E : Setting) (k : Ledger)
    (g : Func) : DataType → Value → Prop
  /-- the expression is lowered, and its value is taken -/
  | intro {x : Expr} {k' : Ledger} {b b₁ b' : Body} {y : Operand} {v : Value} (hx : p.Holds x)
    (hk : k'.Le k) (hb : BodyTraced (.truths E) k' b)
    (hexpr : (expr E.sigs x).run b = .ok (.ok y, b₁))
    (hvalue : (valueOf y).run b₁ = .ok (.ok v, b')) (hnotes : b'.bound <:+: notes)
    (hg : b'.draft.func.Grows g) : OperandValue p notes E k g y.type v

/-- The host starts a function of a module. -/
structure HostStarts (p : Program) (m : Module) (N : Arithmetic R) (host : List DataType)
    (s : Machine R) : Prop where
  /-- no other is on its way, and it has been given what it may be given -/
  start : ∃ id g args a, m.func? id = some g ∧ g.activation args = some a ∧ s.stack = [a] ∧
    Suited (FirstGlobal (globalVars p)) host (settingOf p id).params args
  /-- external variables of types of truth values hold truth values -/
  external : ∀ x ∈ m.globals, x.storage.isExternal = true → x.type.isBoolean = true →
    ∀ w, s.memory.content (.global x.id) = some w → w.IsTruth
  /-- other variables hold their zero, or what an earlier execution has left there -/
  others : ∀ x ∈ m.globals, x.storage.isExternal = false → x.type.isBoolean = true →
    ∀ w, s.memory.content (.global x.id) = some w →
      (Const.zeroOf x.type).datum N = some w ∨ w.IsTruth
  /-- the host has variables of its own, whose addresses it may give to the function -/
  cells : s.memory.cells = host.length
  /-- which hold truth values where they are of types of these -/
  own : ∀ (i : Nat) t, host[i]? = some t → t.isBoolean = true →
    ∀ w, s.memory.content (.cell i) = some w → w.IsTruth

/-- What a function on its way has computed with types of truth values are truth values. -/
structure Truthful (p : Program) (notes : List (Name × DataType)) (N : Arithmetic R) (k : Ledger)
    (g : Func) (memory : Memory R) (a : Activation R) : Prop where
  /-- its operands -/
  operand : ∀ {t v w}, OperandValue p notes (settingOf p a.func) k g t v → t.isBoolean = true →
    a.value N v = some w → w.IsTruth
  /-- what the variables hold whose addresses it knows -/
  stored : ∀ {c t v addr w}, Room (settingOf p a.func) k g c t v → t.isBoolean = true →
    a.value N v = some (.address addr) → memory.read addr = some w → w.IsTruth
  /-- its arguments -/
  argument : ∀ {i : Nat} {q w}, (settingOf p a.func).params[i]? = some q → q.storage ≠ .output →
    q.type.isBoolean = true → a.args[i]? = some w → w.IsTruth
  /-- what it returns -/
  result : ∀ {b v w}, b ∈ g.allBlocks → b.term = some (.ret (some v)) →
    (settingOf p a.func).result.isBoolean = true → a.value N v = some w → w.IsTruth

end

section

variable {p : Program} {notes : List (Name × DataType)} {E : Setting} {k : Ledger} {g : Func}

/-- Operands of types of truth values are truth values. -/
theorem OperandValue.truth {t : DataType} {v : Value} (h : OperandValue p notes E k g t v)
    (hpermitted : ∀ x, p.Holds x → Permitted ((Demand.truths E).among notes) x)
    (ht : t.isBoolean = true) : Truth E k g .all v := by
  have hfit := (fitness_truths E).among notes
  cases h with
  | @intro x k' b b₁ b' y v hx hk hb hexpr hvalue hnotes hg =>
    obtain ⟨-, htraced⟩ := traces_expr (k := k') (P := fun _ => True) hfit (hpermitted x hx)
      b y b₁ hexpr
    obtain ⟨hseen, hvalues⟩ := traces_valueOf (k := k') (P := y.Traced _ k') hfit
      (fun _ h => h) b₁ v b' hvalue
    obtain ⟨hb₁, -, hy⟩ := htraced (hseen hnotes) (bodyTraced_among.2 hb) trivial
    obtain ⟨-, -, hv⟩ := hvalues hnotes hb₁ hy
    exact (hv ht).mono hk hg

end

section

variable {R : Type} {N : Arithmetic R} {s : Source} {p : Program} {o : Options} {out : Outcome}
  (hparse : s.parse.program = some p) (hlower : lower o p = .ok out) (hok : out.problems = [])

section

include hparse hlower hok

/-- Where the host starts, memory keeps truth values. -/
theorem HostStarts.keeps {host : List DataType} {m : Machine R}
    (h : HostStarts p out.module N host m) :
    m.memory.Keeps (FirstGlobal (globalVars p)) host := by
  refine ⟨h.cells, fun {q t w} hq ht hw => ?_⟩
  cases q with
  | cell i => exact h.own i t hq ht w hw
  | global id =>
    obtain ⟨c, hfirst⟩ := hq
    obtain ⟨x, hx, rfl, rfl⟩ := exists_global hparse hlower hok hfirst
    cases hexternal : x.storage.isExternal with
    | true => exact h.external x hx hexternal ht w hw
    | false => exact (h.others x hx hexternal ht w hw).elim (isTruth_zeroOf ht) id

theorem HostStarts.steady {K : FuncId → Ledger} {host : List DataType} {m : Machine R}
    (h : HostStarts p out.module N host m) :
    Steady out.module N (FirstGlobal (globalVars p)) (settingOf p) K host m := by
  obtain ⟨id, g, args, a, hfunc, hstart, hstack, hargs⟩ := h.start
  have hid : a.func = id := by
    obtain ⟨entry, -, rfl⟩ := Option.map_eq_some_iff.1 hstart
    simpa using List.find?_some hfunc
  refine ⟨h.keeps hparse hlower hok, ?_, hstack ▸ .singleton _⟩
  rw [hstack]
  refine List.forall_mem_singleton.2 ⟨g, hid ▸ hfunc, .start ?_ hstart⟩
  rwa [hid, settingOf_globals]

end

include hparse hlower hok

/-- Truth values are zero or one. If the minus sign stands in front of numbers alone, whatever the
functions of an accepted program compute with a type of truth values is zero or one in every
component: operands, what variables hold, arguments and results. This is so wherever an execution
gets to that the host has started with such values; and then the global variables and the variables
of the host hold such values, too. What operands can refer to is the room of their function and the
first values that have been given by then. -/
theorem keeps_truths (hneg : NegatesNumbers p out.binding) : ∃ K : FuncId → Ledger,
    (∀ f ∈ funcDecls p, ∃ g slots ls, out.module.func? ⟨f.name.text, 0⟩ = some g ∧
      Furnished (signatures (funcDecls p)) f (K ⟨f.name.text, 0⟩) slots ls g) ∧
    (∀ g, out.module.func? ⟨initName, 0⟩ = some g →
      ∃ ss, Provided (signatures (funcDecls p)) (globalVars p) (K ⟨initName, 0⟩) ss g) ∧
    ∀ {R : Type} (N : Arithmetic R) (host : List DataType) (m m' : Machine R),
      HostStarts p out.module N host m → out.module.Reaches N m m' →
      (∀ x ∈ out.module.globals, x.type.isBoolean = true →
        ∀ w, m'.memory.content (.global x.id) = some w → w.IsTruth) ∧
      (∀ (i : Nat) t, host[i]? = some t → t.isBoolean = true →
        ∀ w, m'.memory.content (.cell i) = some w → w.IsTruth) ∧
      ∀ a ∈ m'.stack, ∃ g, out.module.func? a.func = some g ∧
        Truthful p out.bound N (K a.func) g m'.memory a := by
  obtain ⟨K, hkept, hrooms, hstages⟩ := exists_moduleKept hparse hlower hok hneg
  refine ⟨K, hrooms, hstages, fun N host m m' hm hreaches => ?_⟩
  obtain ⟨cells, hcells, hm'⟩ := (hm.steady hparse hlower hok).run hkept hreaches
  refine ⟨fun x hx ht w hw => ?_, fun i t hi ht w hw => ?_, fun a ha => ?_⟩
  · exact hm'.memory.content (p := .global x.id) (firstGlobal_of_mem hparse hlower hok x hx) ht hw
  · exact hm'.memory.content (Place.Holds.mono (p := .cell i) hi hcells) ht hw
  obtain ⟨g, hfunc, hunder⟩ := hm'.stack a ha
  refine ⟨g, hfunc, fun hoperand ht hw => ?_, fun hroom ht haddr hw => ?_, fun hq hin ht hw => ?_,
    fun {b v w} hb hterm ht hw => ?_⟩
  · refine hunder.now.truth (hoperand.truth (fun x hx => ?_) ht) hw
    exact permitted_truths hparse hlower hneg hx a.func
  · obtain ⟨_, heq, hholds⟩ := hunder.now.room hroom haddr
    obtain rfl := Datum.address.inj heq
    exact hm'.memory.read (settingOf_globals ▸ hholds) ht hw
  · exact hunder.now.truth (.param hq hin ht) hw
  · rw [Func.allBlocks, (hkept.func hfunc).detached, List.append_nil] at hb
    exact hunder.returned (hkept.func hfunc) hb hterm ht hw

end

/-! ## Samples -/

section

variable {R : Type} {N : Arithmetic R} {s : Source} {p : Program} {o : Options} {out : Outcome}

/-- The host may start a function of a module that has just been loaded. -/
theorem hostStarts_loaded (hparse : s.parse.program = some p) (hlower : lower o p = .ok out)
    (hok : out.problems = []) {id : FuncId} {g : Func} {args : List (Datum R)} {a : Activation R}
    (hfunc : out.module.func? id = some g) (hstart : g.activation args = some a)
    (hargs : Suited (FirstGlobal (globalVars p)) [] (settingOf p id).params args) :
    HostStarts p out.module N [] ⟨[a], out.module.loaded N⟩ := by
  have hzero : ∀ x ∈ out.module.globals, ∀ w,
      (out.module.loaded N).content (.global x.id) = some w →
        (Const.zeroOf x.type).datum N = some w := by
    intro x hx w hw
    obtain ⟨y, hy, hdatum⟩ := Option.bind_eq_some_iff.1 hw
    have hid : y.id = x.id := by simpa using List.find?_some hy
    have hnames := (names_globals hparse hlower hok).1
    obtain rfl := List.inj_on_of_nodup_map hnames (List.mem_of_find?_eq_some hy) hx
      (congrArg GlobalId.name hid)
    exact hdatum
  refine ⟨⟨id, g, args, a, hfunc, hstart, rfl, hargs⟩, fun x hx _ ht w hw => ?_,
    fun x hx _ _ w hw => .inl (hzero x hx w hw), rfl, nofun⟩
  exact isTruth_zeroOf ht (hzero x hx w hw)

/-- Functions that only read their parameters may be given truth values. -/
theorem suited_of_isTruth {G : GlobalId → DataType → Bool → Prop} {cells : List DataType}
    {ps : List Param} {args : List (Datum R)} (hin : ∀ q ∈ ps, q.storage ≠ .output)
    (hargs : ∀ w ∈ args, w.IsTruth) : Suited G cells ps args := by
  intro i q w hq hw
  rw [Suits, if_neg (hin q (List.mem_of_getElem? hq))]
  exact fun _ => hargs w (List.mem_of_getElem? hw)

/-- The result is that of a function on its way. -/
theorem exists_of_resultAfter {n : Nat} {id : FuncId} {args : List (Datum R)} {w : Datum R}
    {m : Module} (h : m.resultAfter N n id args = some w) :
    ∃ g a m' a' b v, m.func? id = some g ∧ g.activation args = some a ∧
      m.Reaches N ⟨[a], m.loaded N⟩ m' ∧ a' ∈ m'.stack ∧ a'.func = id ∧
      m.block? id a'.block = some b ∧ b.term = some (.ret (some v)) ∧ a'.value N v = some w := by
  obtain ⟨g, hg, h⟩ := Option.bind_eq_some_iff.1 h
  obtain ⟨a, ha, h⟩ := Option.bind_eq_some_iff.1 h
  obtain ⟨m', hm', h⟩ := Option.bind_eq_some_iff.1 h
  obtain ⟨a', ha', h⟩ := Option.bind_eq_some_iff.1 h
  obtain ⟨term, hterm, h⟩ := Option.bind_eq_some_iff.1 h
  obtain ⟨b, hb, hterm⟩ := Option.bind_eq_some_iff.1 hterm
  rcases term with (_ | v) | _ | _
  case ret.some =>
    dsimp only at h
    split at h
    next hid =>
      exact ⟨g, a, m', a', b, v, hg, ha, ⟨n, hm'⟩, List.mem_of_mem_head? ha', hid, hid ▸ hb, hterm,
        h⟩
    next => cases h
  all_goals cases h

end

/-- A program that puts the minus sign in front of a truth value. -/
def negatedTruth : Source where
  bytes := "bool f(bool b) { return -b; }".toUTF8.toList

/-- Its function, given one, returns minus one. -/
theorem returns_no_truth_negatedTruth : ∃ p out m m' a b v w,
    negatedTruth.parse.program = some p ∧ lower {} p = .ok out ∧ out.problems = [] ∧
    HostStarts p out.module Arithmetic.whole [] m ∧ out.module.Reaches Arithmetic.whole m m' ∧
    a ∈ m'.stack ∧ (settingOf p a.func).result = .bool ∧
    out.module.block? a.func a.block = some b ∧ b.term = some (.ret (some v)) ∧
    a.value Arithmetic.whole v = some w ∧ ¬ w.IsTruth := by
  have hreports : negatedTruth.scan.reports = [] := scan_reports_eq_nil (by decide +kernel)
  obtain ⟨p, out, hparse, hlower, hok, htest⟩ := exists_accepted (t := fun p out =>
    ((settingOf p ⟨"f", 0⟩).params.all fun q => q.storage != .output) &&
      (settingOf p ⟨"f", 0⟩).result == .bool &&
      out.module.resultAfter Arithmetic.whole 4 ⟨"f", 0⟩ [.number (.word 1)] ==
        some (.number (.word (-1)))) hreports (by decide +kernel)
  simp only [Bool.and_eq_true, beq_iff_eq] at htest
  obtain ⟨⟨hparams, hresult⟩, hafter⟩ := htest
  obtain ⟨g, a, m', a', b, v, hfunc, hstart, hreaches, ha', hid, hb, hterm, hw⟩ :=
    exists_of_resultAfter hafter
  have hstarts := hostStarts_loaded (N := Arithmetic.whole) hparse hlower hok hfunc hstart
    (suited_of_isTruth (by simpa using hparams) (List.forall_mem_singleton.2 (.inr rfl)))
  refine ⟨p, out, _, m', a', b, v, _, hparse, hlower, hok, hstarts, hreaches, ha', hid ▸ hresult,
    hid ▸ hb, hterm, hw, ?_⟩
  rintro (h | h) <;> cases h

/-- A program that puts the minus sign in front of a number. -/
def negatedSum : Source where
  bytes := "bool f(bool b) { return -(1 + b); }".toUTF8.toList

/-- What its function returns has been converted. -/
theorem keeps_truths_negatedSum : ∃ p out, negatedSum.parse.program = some p ∧
    lower {} p = .ok out ∧ out.problems = [] ∧ NegatesNumbers p out.binding ∧
    ∃ m m' a v w, HostStarts p out.module Arithmetic.whole [] m ∧
      out.module.Reaches Arithmetic.whole m m' ∧ a ∈ m'.stack ∧
      a.value Arithmetic.whole v = some w ∧ w.IsTruth := by
  have hreports : negatedSum.scan.reports = [] := scan_reports_eq_nil (by decide +kernel)
  obtain ⟨p, out, hparse, hlower, hok, htest⟩ := exists_accepted (t := fun p out =>
    ((settingOf p ⟨"f", 0⟩).params.all fun q => q.storage != .output) &&
      (settingOf p ⟨"f", 0⟩).result == .bool &&
      (p.exprs.all (Expr.allPass (fun e => match e with
        | .unary _ .neg x => (x.type? out.binding).all fun t => !t.isBoolean
        | _ => true) 8)) &&
      (out.module.resultAfter Arithmetic.whole 7 ⟨"f", 0⟩ [.number (.word 1)]).isSome) hreports
        (by decide +kernel)
  simp only [Bool.and_eq_true, beq_iff_eq, List.all_eq_true] at htest
  obtain ⟨⟨⟨hparams, hresult⟩, hexprs⟩, hafter⟩ := htest
  have hneg : NegatesNumbers p out.binding := by
    rintro pos x t ⟨y, hy, hoccurs⟩ ht
    have hpasses : (x.type? out.binding).all (fun t => !t.isBoolean) = true :=
      hoccurs.passes (hexprs y hy)
    simpa [ht] using hpasses
  obtain ⟨w, hafter⟩ := Option.isSome_iff_exists.1 hafter
  obtain ⟨g, a, m', a', b, v, hfunc, hstart, hreaches, ha', hid, hb, hterm, hw⟩ :=
    exists_of_resultAfter hafter
  have hstarts := hostStarts_loaded (N := Arithmetic.whole) hparse hlower hok hfunc hstart
    (suited_of_isTruth (by simpa using hparams) (List.forall_mem_singleton.2 (.inr rfl)))
  obtain ⟨K, -, -, hkeeps⟩ := keeps_truths hparse hlower hok hneg
  obtain ⟨-, -, hstack⟩ := hkeeps _ _ _ _ hstarts hreaches
  obtain ⟨g', hfunc', htruthful⟩ := hstack a' ha'
  obtain rfl : g = g' := Option.some.inj (hfunc.symm.trans (hid ▸ hfunc'))
  rw [Module.block?, hfunc, Option.bind_some] at hb
  exact ⟨p, out, hparse, hlower, hok, hneg, _, m', a', v, w, hstarts, hreaches, ha', hw,
    htruthful.result (List.mem_of_find?_eq_some hb) hterm (hid ▸ hresult ▸ rfl) hw⟩

end Shader.Lowering
