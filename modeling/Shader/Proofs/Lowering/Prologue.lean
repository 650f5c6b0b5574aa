import Shader.Proofs.Lowering.Accepted
import Shader.Proofs.Lowering.Initializers

/-!
# The start of the main function

The body of a function starts with room for its parameters and with the stores into it. Behind them
the main function calls the one that computes the values of global variables, and only then are its
statements written. Room for variables is the one thing that moves: it stands at the head of the
entry, wherever it is asked for.
-/

namespace Shader.Lowering

open Ir

/-! ## Parameters -/

/-- The instruction keeps a parameter, given with its place, in the room that has been made for
it. -/
def IsParamStore (id : FuncId) (p : Param × Nat) (line : Line) : Prop :=
  ∃ r name, r < line.reg ∧ line.inst = .store (.param id p.2 p.1.name.text (formal p.1).type)
    (.result id r name (.pointer (Ty.ofData p.1.type)))

/-- The parameters that a function only reads, with their places from `i` on. -/
def readParams (i : Nat) (ps : List Param) : List (Param × Nat) :=
  (ps.zipIdx i).filter fun p => p.1.storage ≠ .output

theorem exists_isParamStore {id : FuncId} {ps : List (Param × Nat)} {stores : List Line}
    (h : List.Forall₂ (IsParamStore id) ps stores) :
    ∀ line ∈ stores, ∃ p, IsParamStore id p line := by
  induction h with
  | nil => simp
  | cons hline _ ih => exact List.forall_mem_cons.2 ⟨⟨_, hline⟩, ih⟩

/-- Only the entry has been written, and apart from room for variables it has these
instructions. -/
structure Entered (id : FuncId) (lines : List Line) (d : Draft) : Prop where
  /-- it is the entry of the function -/
  id : d.func.id = id
  /-- the entry is where instructions go, and it has the instructions -/
  entry : ∃ e, d.func.blocks = [e] ∧ d.point = some e.label ∧ e.body = lines
  /-- the numbers of instructions are those that have been given -/
  below : ∀ b ∈ d.func.blocks, ∀ line ∈ b.lines, line.reg < d.func.regs

namespace Entered

variable {id : FuncId} {lines : List Line} {d d' : Draft}

theorem append {inst : Inst} {v : Value} (h : Entered id lines d)
    (hslot : inst.isAlloca = false) (hrun : Emit.append inst d = .ok (v, d')) :
    Entered id (lines ++ [{ reg := d.func.regs, inst }]) d' ∧ d'.func.regs = d.func.regs + 1 := by
  obtain ⟨e, hblocks, hpoint, rfl⟩ := h.entry
  obtain ⟨l, _, hl, -, -, rfl⟩ := Emit.append_cases hrun
  cases hpoint.symm.trans hl
  have hput : (d.func.put e.label inst).blocks = [d.func.withLine inst e] := by
    simp [Func.put, Func.modifyBlock, hblocks, Func.withLine]
  refine ⟨⟨h.id, ⟨_, hput, hpoint, ?_⟩, ?_⟩, rfl⟩
  · simp [Func.withLine, Block.body, hslot]
  · change ∀ b ∈ (d.func.put e.label inst).blocks, _
    rw [hput]
    refine List.forall_mem_singleton.2 fun line hline => ?_
    rcases List.mem_append.1 hline with hold | hnew
    · exact Nat.lt_succ_of_lt (h.below e (by simp [hblocks]) line hold)
    · obtain rfl := List.mem_singleton.1 hnew
      exact Nat.lt_succ_self _

theorem alloca {t : DataType} {hint : String} {v : Value} (h : Entered id lines d)
    (hrun : Emit.alloca t hint d = .ok (v, d')) : Entered id lines d' ∧
      (∃ name, v = .result id d.func.regs name (.pointer (Ty.ofData t))) ∧
        d'.func.regs = d.func.regs + 1 := by
  obtain ⟨e, hblocks, hpoint, rfl⟩ := h.entry
  obtain ⟨-, rfl, rfl⟩ := Emit.alloca_cases hrun
  have hreserve : (d.func.reserve t hint).blocks = [d.func.withSlot t hint 0 e] := by
    simp [Func.reserve, hblocks, Func.withSlot, Func.slotLine]
  refine ⟨⟨h.id, ⟨_, hreserve, ?_, Func.body_withSlot 0 e⟩, ?_⟩, ⟨_, by rw [h.id]⟩, rfl⟩
  · rw [Func.label_withSlot]
    exact hpoint
  · change ∀ b ∈ (d.func.reserve t hint).blocks, _
    rw [hreserve]
    refine List.forall_mem_singleton.2 fun line hline => ?_
    rw [Func.withSlot, if_pos rfl] at hline
    rcases Emit.mem_insertAlloca.1 hline with rfl | hold
    · exact Nat.lt_succ_self _
    · exact Nat.lt_succ_of_lt (h.below e (by simp [hblocks]) line hold)

variable {O : Outside} {s s' : Site}

/-- What is written behind the instructions of the entry leaves them in their place. -/
theorem head_grown (h : Entered id lines s.draft) (ht : s.func.Tidy) (hle : s.func.Le s'.func) :
    ∃ e rest, s'.func.blocks.head? = some e ∧ e.body = lines ++ rest := by
  obtain ⟨e, hblocks, -, rfl⟩ := h.entry
  replace hblocks : s.func.blocks = [e] := hblocks
  obtain ⟨hat, h0⟩ := ht.at_head (e := e) (by rw [hblocks]; rfl)
  obtain ⟨e', hat', he⟩ := hle.blocks _ _ hat
  obtain ⟨rest, hrest⟩ := he.body
  exact ⟨e', rest, hat'.head h0, hrest.symm⟩

/-- Apart from room for variables, everything else is written later, and is well typed. -/
theorem written (h : Entered id lines s.draft) (ht : s.func.Tidy) (hw : Writes O .all s s') :
    ∀ b ∈ s'.func.blocks, ∀ line ∈ b.lines, line.inst.isAlloca = false →
      line ∈ lines ∨ s.func.regs ≤ line.reg ∧ line.inst.WellTyped O := by
  intro b hb line hline hslot
  obtain ⟨e, hblocks, -, rfl⟩ := h.entry
  rcases Steps.written hw ht ((Steps.tidy hw ht).at_of_mem hb) hline with ⟨b₀, hb₀, hold⟩ | hnew
  · have hmem : b₀ ∈ [e] := hblocks ▸ hb₀.mem
    obtain rfl := List.mem_singleton.1 hmem
    exact .inl (List.mem_filter.2 ⟨hold, by simp [hslot]⟩)
  · exact .inr hnew

end Entered

theorem brings_declare {P : Draft → Prop} {n : Name} {t : DataType} {addr : Value}
    {isConst : Bool} : Brings (fun b => P b.draft) (declare n t addr isConst) fun _ b =>
      P b.draft := by
  intro b _ b' hb hrun
  obtain ⟨σ, -, rfl⟩ := declare_succeeds hrun
  exact hb

/-- The parameters that are only read are kept one after the other. -/
theorem brings_bindParams {id : FuncId} : ∀ (ps : List Param) (i : Nat) (lines : List Line),
    Brings (fun b => Entered id lines b.draft) (bindParams id i ps) fun _ b =>
      ∃ stores, List.Forall₂ (IsParamStore id) (readParams i ps) stores ∧
        Entered id (lines ++ stores) b.draft
  | [], i, lines => by
    unfold bindParams
    exact .pure fun b hb => ⟨[], .nil, by simpa using hb⟩
  | p :: ps, i, lines => by
    unfold bindParams
    dsimp only
    split
    next hout =>
      refine .bind (.pure fun _ hb => hb) fun addr => .bind brings_declare fun _ => ?_
      refine (brings_bindParams ps (i + 1) lines).weaken (fun _ hb => hb) fun _ b hb => ?_
      have hread : readParams i (p :: ps) = readParams (i + 1) ps := by simp [readParams, hout]
      rwa [hread]
    next hin =>
      have hread : readParams i (p :: ps) = (p, i) :: readParams (i + 1) ps := by
        simp [readParams, hin]
      -- the store of this parameter comes next, and declaring its name writes nothing
      let P : Draft → Prop := fun d => ∃ line, IsParamStore id (p, i) line ∧
        Entered id (lines ++ [line]) d
      refine .bind (Q := fun _ b => P b.draft) (.emit fun b addr d hb hrun => ?_) fun addr => ?_
      · obtain ⟨_, d₁, halloca, hrest⟩ := Emit.bind_cases hrun
        obtain ⟨_, d₂, hstore, hpure⟩ := Emit.bind_cases hrest
        cases hpure
        obtain ⟨_, happend⟩ := Emit.discard_cases hstore
        obtain ⟨h₁, ⟨name, rfl⟩, hregs⟩ := hb.alloca halloca
        refine ⟨_, ⟨b.draft.func.regs, name, ?_, rfl⟩, (h₁.append rfl happend).1⟩
        dsimp only
        omega
      · refine .bind (brings_declare (P := P)) fun _ b r b' hb hrun => ?_
        obtain ⟨line, hline, hb⟩ := hb
        obtain ⟨stores, hstores, hb'⟩ := brings_bindParams ps (i + 1) _ b r b' hb hrun
        refine ⟨line :: stores, ?_, ?_⟩
        · rw [hread]
          exact .cons hline hstores
        · simpa using hb'

/-! ## The call -/

/-- The code of a function that starts with the call of the one that computes the values of global
variables. -/
structure CallsInit (Γ : Signatures) (f : FuncDecl) (g : Func) (call : Line) : Prop where
  /-- the instruction is the call -/
  inst : call.inst = .call ⟨initName, 0⟩ .void []
  /-- it stands in the entry, behind the stores of the parameters, and is written after them; all
  other instructions are written later, and none stands before it but room for variables -/
  entry : ∃ e stores rest, g.blocks.head? = some e ∧ e.body = stores ++ call :: rest ∧
    List.Forall₂ (IsParamStore g.id) (readParams 0 f.params) stores ∧
    (∀ line ∈ stores, line.reg < call.reg) ∧
    ∀ b ∈ g.blocks, ∀ line ∈ b.body, line ∉ stores → line ≠ call → call.reg < line.reg
  /-- what is written later are the statements, whose open blocks return -/
  statements : ∃ b b' d, b.draft.func.regs = call.reg + 1 ∧
    (stmts Γ f.result none f.body).run b = .ok (.ok (), b') ∧
    (closeBlocks f.result).run b'.draft = .ok ((), d) ∧ d.func = g
  /-- they do not call the function again -/
  once : ∀ b ∈ g.blocks, ∀ line ∈ b.lines, ∀ result args,
    line.inst = .call ⟨initName, 0⟩ result args → line = call

section

variable {O O' : Outside} {o : Options} {c : Context} {f : FuncDecl} {g : Func}

theorem Value.Known.congr (h : O.globals = O'.globals) {v : Value} (hv : v.Known O g) :
    v.Known O' g := by
  cases v with
  | global => simpa [Value.Known, h] using hv
  | const => trivial
  | param => exact hv
  | result => exact hv

/-- What a walk relies on does not depend on the functions that can be called. -/
theorem Walk.Within.congr {ρ : Realm} {want : DataType} {loop : Option Loop} {x : Walk}
    (hx : x.Within O ρ want loop) (h : O.globals = O'.globals) : x.Within O' ρ want loop where
  sane := hx.sane
  declares := hx.declares
  scopes := fun frame hframe sym hsym =>
    have hsound := hx.scopes frame hframe sym hsym
    ⟨hsound.noVoid, hsound.type, Value.Known.congr h hsound.known, hsound.slot⟩
  loop := hx.loop
  result := hx.result

/-- The walk over a body that succeeds: the parameters, the call, the statements, and the end. -/
theorem lowerBody_cases {bound : List (Name × DataType)}
    (h : lowerBody o c f = .ok (.ok (), g, bound)) : ∃ b₁ b₂ b₃ d,
      (bindParams ⟨f.name.text, 0⟩ 0 f.params).run (startWalk o c f).enter.body =
        .ok (.ok (), b₁) ∧
      (if f.name.text = "main" && c.hasInit then
        ∃ v, (emit (Emit.call ⟨initName, 0⟩ .void [])).run b₁ = .ok (.ok v, b₂) else b₂ = b₁) ∧
      (stmts c.sigs f.result none f.body).run b₂ = .ok (.ok (), b₃) ∧
      (closeBlocks f.result).run b₃.draft = .ok ((), d) ∧ d.func = g ∧ bound = b₃.bound := by
  obtain ⟨b, d, hscope, hclose, rfl, rfl⟩ := lowerBody_ends h
  obtain ⟨b₃, σ, hbody, -, rfl⟩ := inScope_cases hscope
  unfold bodyCode at hbody
  obtain ⟨_, b₁, hparams, hrest⟩ := bind_succeeds hbody
  dsimp only at hrest
  split at hrest
  next hmain =>
    rw [discard_bind] at hrest
    obtain ⟨v, b₂, hcall, hstmts⟩ := bind_succeeds hrest
    exact ⟨b₁, b₂, b₃, d, hparams, by rw [if_pos hmain]; exact ⟨v, hcall⟩, hstmts, hclose, rfl, rfl⟩
  next hmain => exact ⟨b₁, b₁, b₃, d, hparams, by rw [if_neg hmain], hrest, hclose, rfl, rfl⟩

/-- The entry of a body at its start. -/
theorem entered_startWalk :
    Entered ⟨f.name.text, 0⟩ [] (startWalk o c f).enter.body.draft where
  id := (opened_startWalk o c f).id
  entry := ⟨_, (opened_startWalk o c f).blocks, rfl, rfl⟩
  below := by
    have hblocks : (startWalk o c f).enter.body.draft.func.blocks = _ :=
      (opened_startWalk o c f).blocks
    rw [hblocks]
    simp

/-- What the statements write is new, and calls only what they can refer to. -/
theorem writes_statements {x : Walk} {b₃ : Body} {d : Draft} (hΓ : SignaturesSound O c.sigs)
    (hx : x.Within O .all f.result none)
    (hstmts : (stmts c.sigs f.result none f.body).run x.body = .ok (.ok (), b₃))
    (hclose : (closeBlocks f.result).run b₃.draft = .ok ((), d)) :
    ∃ s' : Site, s'.func = d.func ∧ Writes O .all x.site s' := by
  obtain ⟨r, y, hrun, hgoes, -⟩ := walks_stmts hΓ f.body hx hx.sane
  obtain ⟨-, rfl⟩ := Prod.mk.inj (Except.ok.inj (hstmts.symm.trans hrun))
  obtain ⟨s', hrun', hw, -⟩ := closeBlocks_run (O := O) hgoes.sane.tidy
    (hgoes.le.result.trans hx.result)
  obtain ⟨-, rfl⟩ := Prod.mk.inj (Except.ok.inj (hclose.symm.trans hrun'))
  exact ⟨s', rfl, hgoes.writes.trans hw⟩

/-- Only the entry of the main function has been written: its parameters are kept, and the call is
the last instruction. -/
structure Called (f : FuncDecl) (stores : List Line) (call : Line) (d : Draft) : Prop where
  /-- the instruction is the call -/
  inst : call.inst = .call ⟨initName, 0⟩ .void []
  /-- the others keep the parameters -/
  params : List.Forall₂ (IsParamStore ⟨f.name.text, 0⟩) (readParams 0 f.params) stores
  /-- nothing else is there -/
  entered : Entered ⟨f.name.text, 0⟩ (stores ++ [call]) d
  /-- the parameters have been kept before the call -/
  before : ∀ line ∈ stores, line.reg < call.reg
  /-- the call is the last instruction -/
  regs : d.func.regs = call.reg + 1

theorem exists_called {b₁ b₂ : Body} {v : Value}
    (hparams : (bindParams ⟨f.name.text, 0⟩ 0 f.params).run (startWalk o c f).enter.body =
      .ok (.ok (), b₁))
    (hcall : (emit (Emit.call ⟨initName, 0⟩ .void [])).run b₁ = .ok (.ok v, b₂)) :
    ∃ stores call, Called f stores call b₂.draft := by
  obtain ⟨stores, hstores, hentered⟩ := brings_bindParams f.params 0 [] _ _ _
    entered_startWalk hparams
  obtain ⟨_, d, happend, -, rfl⟩ := emit_cases hcall
  obtain ⟨hentered', hregs⟩ := hentered.append rfl happend
  refine ⟨stores, _, rfl, hstores, hentered', fun line hline => ?_, hregs⟩
  obtain ⟨e, hblocks, -, hlines⟩ := hentered.entry
  have hmem : line ∈ e.body := by simpa [hlines] using hline
  exact hentered.below e (by simp [hblocks]) line (List.mem_filter.1 hmem).1

/-- The main function calls the one that computes the values of global variables. -/
theorem exists_callsInit {bound : List (Name × DataType)} (hc : ContextSound O c)
    (hΓ : SignaturesSound O' c.sigs) (hO : O.globals = O'.globals)
    (hsigs : O'.sigs ⟨initName, 0⟩ = none) (hvoid : ∀ p ∈ f.params, p.type ≠ .void)
    (hmain : f.name.text = "main") (hinit : c.hasInit = true)
    (h : lowerBody o c f = .ok (.ok (), g, bound)) : ∃ call, CallsInit c.sigs f g call := by
  obtain ⟨b₁, b₂, b₃, d, hparams, hcall, hstmts, hclose, rfl, -⟩ := lowerBody_cases h
  rw [if_pos (by simp [hmain, hinit])] at hcall
  obtain ⟨v, hcall⟩ := hcall
  obtain ⟨stores, call, hcalled⟩ := exists_called hparams hcall
  have hopened := opened_startWalk o c f
  have hready : (startWalk o c f).enter.site.Ready .all := ready_startWalk o c f
  have hx : (startWalk o c f).enter.Within O .all f.result none :=
    ⟨hready.toSane, trivial, (hc.scopes _).enter, nofun, hopened.result⟩
  -- the parameters and the call lead to a site from which the statements are written
  obtain ⟨_, x₁, hrun₁, hgoes₁, hready₁⟩ := walks_bindParams (O := O) f.params 0 hready trivial
    hopened.id hopened.params hvoid hready.toSane
  obtain ⟨rfl, rfl⟩ := Prod.mk.inj (Except.ok.inj (hparams.symm.trans hrun₁))
  have hcalls : Emits O .all (Emit.call ⟨initName, 0⟩ .void []) x₁.site
      fun v s' => s'.Has O v .void :=
    Emits.append rfl rfl (hc.init hinit) rfl fun _ h => by cases h
  obtain ⟨_, x₂, hrun₂, hgoes₂, -⟩ := Lowers.emit hcalls hready₁ hready₁.toSane
  obtain ⟨-, rfl⟩ := Prod.mk.inj (Except.ok.inj (hcall.symm.trans hrun₂))
  have hx₂ : x₂.Within O' .all f.result none := ((hx.goes hgoes₁).goes hgoes₂).congr hO
  obtain ⟨s', hs', hw⟩ := writes_statements hΓ hx₂ hstmts hclose
  rw [← hs']
  have ht : x₂.site.func.Tidy := hx₂.sane.tidy
  have hle : x₂.site.func.Le s'.func := Steps.le hw
  have hentered : Entered _ _ x₂.site.draft := hcalled.entered
  have hregs : x₂.site.func.regs = call.reg + 1 := hcalled.regs
  have hid : s'.func.id = ⟨f.name.text, 0⟩ := hle.id.trans hentered.id
  obtain ⟨e, rest, hhead, hbody⟩ := hentered.head_grown ht hle
  have hwritten := hentered.written ht hw
  refine ⟨call, hcalled.inst,
    ⟨e, stores, rest, hhead, ?_, hid ▸ hcalled.params, hcalled.before, ?_⟩,
    ⟨x₂.body, b₃, d, hregs, hstmts, hclose, hs'.symm⟩, ?_⟩
  · simp [hbody]
  · intro b hb line hline hstore hne
    obtain ⟨hmem, hslot⟩ := List.mem_filter.1 hline
    rcases hwritten b hb line hmem (by simpa using hslot) with hold | ⟨hreg, -⟩
    · simp [hstore, hne] at hold
    · omega
  · intro b hb line hline result args hinst
    rcases hwritten b hb line hline (by rw [hinst]; rfl) with hold | ⟨-, hty⟩
    · refine (by simpa using hold : line ∈ stores ∨ line = call).resolve_left fun hmem => ?_
      obtain ⟨p, r, name, -, hstore⟩ := exists_isParamStore hcalled.params line hmem
      rw [hstore] at hinst
      cases hinst
    · rw [hinst, Inst.WellTyped, hsigs] at hty
      cases hty

end

/-! ## Programs -/

section

variable {s : Source} {p : Program} {o : Options} {out : Outcome}

/-- The values of the global variables of an accepted program are computed once each, in the order
of the source, on every way through a function that is there if there is something to compute; and
the main function calls it before its statements. -/
theorem computes_globals (hparse : s.parse.program = some p) (hlower : lower o p = .ok out)
    (hok : out.problems = []) :
    ((∃ f ∈ out.module.funcs, f.id.name = initName) ↔ ∃ v ∈ globalVars p, v.var.init.isSome) ∧
    (∃ ss : List Stage, ss.map Stage.var = (globalVars p).filter isComputed ∧
      (∀ s ∈ ss, s.Lowered (signatures (funcDecls p))) ∧
      ∀ f ∈ out.module.funcs, f.id.name = initName → ∃ l, Computes ss f l) ∧
    ∀ g ∈ out.module.funcs, g.id.name = "main" → (∃ v ∈ globalVars p, v.var.init.isSome) →
      ∃ f ∈ funcDecls p, f.name.text = "main" ∧
        ∃ call, CallsInit (signatures (funcDecls p)) f g call := by
  obtain ⟨r⟩ := exists_rounds hlower
  have hfree := namesFree_of_parse hparse
  obtain ⟨ss, hstaged⟩ := Staged.addGlobals (r.added_eq hok)
  have hfinish := r.ended_eq hok hparse
  have hinit : r.final.init.isSome = true ↔ ∃ v ∈ globalVars p, v.var.init.isSome := by
    have hempty : ss = [] ↔ (globalVars p).filter isComputed = [] := by
      rw [← hstaged.vars, List.map_eq_nil_iff]
    rw [(finish_frame hfinish).2.2.2, hstaged.init, Bool.not_eq_true', List.isEmpty_eq_false_iff,
      ne_eq, hempty, List.filter_eq_nil_iff]
    simp [isComputed, Option.isSome_iff_ne_none]
  have hname : ∀ d, r.final.init = some d → d.func.id.name = initName := fun d hd =>
    congrArg FuncId.name (r.id_init hok hparse hd)
  -- no function of the program has this name
  have honly : ∀ g ∈ out.module.funcs, g.id.name = initName →
      ∃ d, r.final.init = some d ∧ d.func = g := by
    intro g hg hinitName
    refine (r.func_cases hok hparse hg).resolve_left ?_
    rintro ⟨f, hf, hid, -⟩
    exact hfree f hf ((congrArg FuncId.name hid).symm.trans hinitName)
  refine ⟨⟨?_, fun hv => ?_⟩, ⟨ss, hstaged.vars, hstaged.lowered, fun f hf hinitName => ?_⟩,
    fun g hg hmain hv => ?_⟩
  · rintro ⟨g, hg, hinitName⟩
    obtain ⟨d, hd, -⟩ := honly g hg hinitName
    exact hinit.1 (by simp [hd])
  · obtain ⟨d, hd⟩ := Option.isSome_iff_exists.1 (hinit.2 hv)
    exact ⟨d.func, r.init_mem hok hd, hname d hd⟩
  · obtain ⟨d, hd, rfl⟩ := honly f hf hinitName
    exact hstaged.finish hfinish d hd
  · obtain ⟨f, hf, hid, bound, hrun, -⟩ | ⟨d, hd, rfl⟩ := r.func_cases hok hparse hg
    · have hsigs : r.context.sigs = signatures (funcDecls p) :=
        congrArg signatures (r.declared_eq hok)
      have hΓ : SignaturesSound (outsideOf (funcDecls p) out.module.globals false)
          r.context.sigs := hsigs ▸ signatures_sound hfree
      have hname : f.name.text = "main" := (congrArg FuncId.name hid).symm.trans hmain
      obtain ⟨call, hcall⟩ := exists_callsInit (r.contextSound hok hparse) hΓ rfl
        (by simp [outsideOf]) ((r.declarable hok).params f hf) hname (hinit.2 hv) hrun
      exact ⟨f, hf, hname, call, hsigs ▸ hcall⟩
    · exact absurd ((hname d hd).symm.trans hmain) (by decide)

/-- A program with two values to compute, of which one takes several blocks. -/
def initialized : Source where
  bytes :=
    "int a = 1; int b = a > 0 && a < 5 ? 2 : a; void main() { int x = b; x++; }".toUTF8.toList

theorem computes_globals_initialized : ∃ p out, initialized.parse.program = some p ∧
    lower {} p = .ok out ∧
    (∃ f ∈ out.module.funcs, ∃ ss l, f.id.name = initName ∧ ss.length = 2 ∧ Computes ss f l) ∧
    ∃ f ∈ funcDecls p, ∃ g ∈ out.module.funcs, ∃ call,
      CallsInit (signatures (funcDecls p)) f g call := by
  have hreports : initialized.scan.reports = [] := scan_reports_eq_nil (by decide +kernel)
  obtain ⟨p, out, hparse, hlower, hok, htest⟩ := exists_accepted
    (t := fun p out => ((globalVars p).filter isComputed).length == 2 &&
      out.module.funcs.any fun g => g.id.name == "main") hreports (by decide +kernel)
  obtain ⟨htwo, hmain⟩ := Bool.and_eq_true_iff.1 htest
  obtain ⟨hinit, ⟨ss, hvars, -, hcomputes⟩, hcalls⟩ := computes_globals hparse hlower hok
  have hlength : ss.length = 2 := by
    rw [← List.length_map (f := Stage.var), hvars]
    simpa using htwo
  have hv : ∃ v ∈ globalVars p, v.var.init.isSome := by
    obtain ⟨v, hv⟩ := List.exists_mem_of_length_pos (hvars ▸ by simp [hlength] :
      0 < ((globalVars p).filter isComputed).length)
    exact ⟨v, List.mem_filter.1 hv⟩
  obtain ⟨f, hf, hname⟩ := hinit.2 hv
  obtain ⟨l, hl⟩ := hcomputes f hf hname
  obtain ⟨g, hg, hgmain⟩ := List.any_eq_true.1 hmain
  obtain ⟨f', hf', -, call, hcall⟩ := hcalls g hg (by simpa using hgmain) hv
  exact ⟨p, out, hparse, hlower, ⟨f, hf, ss, l, hname, hlength, hl⟩, f', hf', g, hg, call, hcall⟩

end

end Shader.Lowering
