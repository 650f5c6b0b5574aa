import Shader.Proofs.Lowering.Forward
import Shader.Proofs.Lowering.Naming

/-!
# The values of global variables

One function computes the values of all global variables. It is left when a value has been kept and
written on at the next declaration, wherever the code of the value before has ended. What was
written until then goes forward to the one block that is open, so every way through the function
comes by there, and the values are computed one after the other, in the order of the source.
-/

namespace Shader.Ir.Func

variable {f f' : Func} {l l' : Label} {ls : List Label} {line : Line}

/-- Control carries out an instruction on every way to a block. -/
def Passes (f : Func) (l : Label) (line : Line) : Prop :=
  ∀ ls, f.Path (l :: ls) → line ∈ f.trace (l :: ls)

/-- Growing functions carry out more. -/
theorem Le.trace (hle : f.Le f') (hat : ∀ m ∈ ls, ∃ c, f.At m c) : f.trace ls ⊆ f'.trace ls := by
  induction ls with
  | nil => simp [Func.trace]
  | cons m ls ih =>
    obtain ⟨⟨c, hc⟩, hls⟩ := List.forall_mem_cons.1 hat
    obtain ⟨c', hc', hcc⟩ := hle.blocks m c hc
    simp only [Func.trace, linesAt_eq hc, linesAt_eq hc']
    intro line hline
    rcases List.mem_append.1 hline with hline | hline
    · exact List.mem_append_left _ (ih hls hline)
    · exact List.mem_append_right _ (hcc.lines hline)

/-- What is written at the one open block is carried out behind all that control comes by. -/
theorem Forward.passes_here {W : Set Label} {b : Block} (_ : f.Forward W l) (hb : f.At l b)
    (hline : line ∈ b.lines) : f.Passes l line := by
  intro ls _
  rw [trace, linesAt_eq hb]
  exact List.mem_append_right _ hline

/-- Code that is written on goes through the block where it was written on. -/
theorem Forward.passes (h : f.Forward ∅ l) (h' : f'.Forward ∅ l') (hle : f.Le f')
    (hpass : f.Passes l line) : f'.Passes l' line := by
  -- a path that has not left the older function, or one that has come by
  have hway : ∀ ls, f'.Path ls → f.Path ls ∨ line ∈ f'.trace ls := by
    intro ls hp
    induction hp with
    | @entry e' he' =>
      obtain ⟨e, he⟩ := List.exists_mem_of_ne_nil _ h.tidy.entry
      have hhead := List.head?_eq_some_head h.tidy.entry
      obtain ⟨hat, h0⟩ := h.tidy.at_head hhead
      obtain ⟨c, hc, hcc⟩ := hle.blocks _ _ hat
      have heq : e' = c := Option.some.inj (he'.symm.trans (hc.head h0))
      rw [heq, hc.2]
      exact .inl (.entry hhead)
    | @next m k ms b' _ hb' hk ih =>
      rcases ih with hp | hmem
      · obtain ⟨b, hb⟩ := h.at_of_path hp m List.mem_cons_self
        by_cases hm : m = l
        · subst hm
          refine .inr (List.mem_append_left _ ?_)
          exact hle.trace (h.at_of_path hp) (hpass _ hp)
        · obtain ⟨t, ht⟩ := h.ended m b hb (Set.notMem_empty m) hm
          obtain ⟨c, hc, hcc⟩ := hle.blocks m b hb
          obtain rfl := hb'.unique hc
          refine .inl (.next hp hb ?_)
          simpa [Block.successors, ht, (hcc.closed t ht).1] using hk
      · exact .inr (List.mem_append_left _ hmem)
  intro ls hp
  rcases hway _ hp with hold | hmem
  · -- the block that is open now was open before
    obtain ⟨b, hb⟩ := h.at_of_path hold l' List.mem_cons_self
    obtain ⟨b', hb', ho⟩ := h'.isOpen
    obtain ⟨c, hc, hcc⟩ := hle.blocks l' b hb
    obtain rfl := hb'.unique hc
    obtain rfl : l' = l := by
      by_contra hne
      obtain ⟨t, ht⟩ := h.ended l' b hb (Set.notMem_empty l') hne
      rw [(hcc.closed t ht).1] at ho
      cases ho
    exact hle.trace (h.at_of_path hold) (hpass _ hold)
  · exact hmem

/-- The code of a function that is only opened goes forward. -/
theorem Opened.forward {f₀ : Func} (h : f₀.Opened l f) (ht : f.Tidy) : f.Forward ∅ l := by
  have hentry : f.At l { label := l } := h.at_iff.2 ⟨rfl, rfl⟩
  have hpath : ∀ {ls}, f.Path ls → ls = [l] := by
    intro ls hp
    induction hp with
    | entry he =>
      rw [h.blocks] at he
      obtain rfl := Option.some.inj he
      rfl
    | next _ hb hk =>
      obtain ⟨-, rfl⟩ := h.at_iff.1 hb
      simp [Block.successors] at hk
  have htrace : ∀ {ls}, f.Path ls → f.trace ls = [] := fun hp => by
    rw [hpath hp, trace, linesAt_eq hentry]
    rfl
  refine ⟨ht, ⟨_, hentry, rfl⟩, Set.notMem_empty l, by simp, fun k b hb _ hk => ?_,
    fun k b v hb hterm => ?_, fun k b hb m hm => ?_, fun k b hb _ => ?_, fun ls hp => ?_,
    fun ls hp => ?_⟩
  · exact absurd (h.at_iff.1 hb).1 hk
  · obtain ⟨-, rfl⟩ := h.at_iff.1 hb
    cases hterm
  · obtain ⟨-, rfl⟩ := h.at_iff.1 hb
    simp [Block.successors] at hm
  · obtain ⟨rfl, -⟩ := h.at_iff.1 hb
    exact ⟨[], .entry (hentry.head h.index)⟩
  · simp [htrace hp]
  · simp [htrace hp]

/-- Once the open block returns, every block is come to, and every way ends there. -/
structure Complete (f : Func) (l : Label) : Prop where
  /-- control can come to every block -/
  reached : ∀ b ∈ f.blocks, f.Reachable b.label
  /-- the block returns -/
  returns : ∃ b v, f.At l b ∧ b.term = some (.ret v)
  /-- no other block does -/
  only : ∀ b ∈ f.blocks, ∀ v, b.term = some (.ret v) → b.label = l
  /-- every block is ended -/
  ended : ∀ b ∈ f.blocks, ∃ t, b.term = some t

theorem Forward.complete (h : f.Forward ∅ l) {v : Option Value} :
    (f.close l (.ret v)).Complete l := by
  obtain ⟨b, hb, ho⟩ := h.isOpen
  have hold : ∀ c ∈ (f.close l (.ret v)).blocks, c.label = l ∨ f.At c.label c := by
    intro c hc
    have hat := h.tidy.close.at_of_mem hc
    by_cases hcl : c.label = l
    · exact .inl hcl
    · exact .inr ((at_close_ne hcl).1 hat)
  refine ⟨fun c hc => ?_, ⟨_, v, at_close_self hb, rfl⟩, fun c hc w hterm => ?_, fun c hc => ?_⟩
  · have hat : ∃ c', f.At c.label c' := by
      rcases hold c hc with hcl | hat
      · exact hcl ▸ ⟨b, hb⟩
      · exact ⟨c, hat⟩
    obtain ⟨c', hc'⟩ := hat
    exact (le_close hb ho).reachable h.tidy (h.reached _ c' hc' (Set.notMem_empty _))
  · rcases hold c hc with hcl | hat
    · exact hcl
    · exact absurd hterm (h.stays _ c w hat)
  · rcases hold c hc with hcl | hat
    · have hat := h.tidy.close.at_of_mem hc
      rw [hcl] at hat
      rw [hat.unique (at_close_self hb)]
      exact ⟨_, rfl⟩
    · by_cases hcl : c.label = l
      · have hc' := h.tidy.close.at_of_mem hc
        rw [hcl] at hc'
        rw [hc'.unique (at_close_self hb)]
        exact ⟨_, rfl⟩
      · exact h.ended _ c hat (Set.notMem_empty _) hcl

/-- The ways to the end are those that led to the open block. -/
theorem Forward.trace_ret (h : f.Forward ∅ l) {v : Option Value}
    (hp : (f.close l (.ret v)).Path ls) :
    f.Path ls ∧ (f.close l (.ret v)).trace ls = f.trace ls := by
  have hnone : ∀ m ∈ (Term.ret v).successors, m ∈ (∅ : Set Label) := by simp [Term.successors]
  refine ⟨?_, (h.trace_close hnone hp).1⟩
  rcases h.path_close hnone hp with hold | ⟨m, ms, -, hm, -⟩
  · exact hold
  · exact absurd (hnone m hm) (Set.notMem_empty m)

end Shader.Ir.Func

namespace Shader.Lowering

open Ir

/-! ## Stages -/

/-- The computation of the value of a global variable. -/
structure Stage where
  /-- the variable -/
  var : GlobalVar
  /-- its initializer -/
  init : Expr
  /-- the state from which the walk over the initializer starts -/
  start : Body
  /-- what the walk yields -/
  operand : Operand
  /-- the value that is kept, which is converted to the type of the variable -/
  value : Value
  /-- the state in which it is known -/
  ready : Body

namespace Stage

/-- The store of the value into the variable. -/
def store (s : Stage) : Line where
  reg := s.ready.draft.func.regs
  inst := .store s.value (.global ⟨s.var.var.name.text, 0⟩ (Ty.ofData s.var.var.type))

/-- The stage is the one that lowering goes through. -/
structure Lowered (Γ : Signatures) (s : Stage) : Prop where
  /-- the initializer is that of the variable -/
  init : s.var.var.init = some s.init
  /-- it is walked over, and what it yields is converted -/
  walk : ∃ b σ bound, (expr Γ s.init).run s.start = .ok (.ok s.operand, b) ∧
    (initialValue s.var.var.type s.operand).run ⟨b.draft, σ, bound⟩ = .ok (.ok s.value, s.ready)

end Stage

/-- Stages follow one another: each starts with the number behind the store of the one before. -/
inductive Consecutive : Nat → List Stage → Nat → Prop
  /-- there is none -/
  | nil (n : Nat) : Consecutive n [] n
  /-- the first is followed by others -/
  | cons {s : Stage} {ss : List Stage} {m : Nat} (le : s.start.draft.func.regs ≤ s.store.reg)
    (rest : Consecutive (s.store.reg + 1) ss m) : Consecutive s.start.draft.func.regs (s :: ss) m

theorem Consecutive.concat {n m : Nat} {s : Stage} {ss : List Stage} (h : Consecutive n ss m)
    (hs : s.start.draft.func.regs = m) (hle : m ≤ s.store.reg) :
    Consecutive n (ss ++ [s]) (s.store.reg + 1) := by
  induction h with
  | nil =>
    subst hs
    exact .cons hle (.nil _)
  | cons hfirst _ ih => exact .cons hfirst (ih hs hle)

theorem Consecutive.le_store {n m : Nat} {ss : List Stage} (h : Consecutive n ss m) :
    ∀ s ∈ ss, n ≤ s.store.reg := by
  induction h with
  | nil => simp
  | cons hfirst _ ih =>
    refine List.forall_mem_cons.2 ⟨hfirst, fun s hs => ?_⟩
    have := ih s hs
    omega

/-- Instructions are those of stages: for each of them the code that computes the value, and then
the store. -/
inductive Carried : List Stage → List Line → Prop
  /-- there is no stage -/
  | nil : Carried [] []
  /-- the code of a stage and its store are followed by others -/
  | cons {s : Stage} {ss : List Stage} {code lines : List Line}
    (own : ∀ line ∈ code, s.start.draft.func.regs ≤ line.reg ∧ line.reg < s.store.reg)
    (rest : Carried ss lines) (behind : ∀ line ∈ lines, s.store.reg < line.reg) :
    Carried (s :: ss) (code ++ s.store :: lines)

/-- In the order of their numbers, instructions among which are all stores are those of the
stages. -/
theorem Consecutive.carried {n m : Nat} {ss : List Stage} (h : Consecutive n ss m)
    {lines : List Line} (hordered : (lines.map Line.reg).Pairwise (· < ·))
    (hfrom : ∀ line ∈ lines, n ≤ line.reg) (hbelow : ∀ line ∈ lines, line.reg < m)
    (hstores : ∀ s ∈ ss, s.store ∈ lines) : Carried ss lines := by
  induction h generalizing lines with
  | nil =>
    obtain rfl : lines = [] := by
      refine List.eq_nil_iff_forall_not_mem.2 fun line hline => ?_
      have := hfrom line hline
      have := hbelow line hline
      omega
    exact .nil
  | @cons s ss m hle hrest ih =>
    obtain ⟨code, rest, rfl⟩ := List.append_of_mem (hstores s List.mem_cons_self)
    rw [List.map_append, List.map_cons, List.pairwise_append, List.pairwise_cons] at hordered
    obtain ⟨-, ⟨hbehind, hordered'⟩, hbefore⟩ := hordered
    have hfront : ∀ line ∈ code, line.reg < s.store.reg := fun line hline =>
      hbefore _ (List.mem_map_of_mem hline) _ List.mem_cons_self
    have hback : ∀ line ∈ rest, s.store.reg < line.reg := fun line hline =>
      hbehind _ (List.mem_map_of_mem hline)
    refine .cons (fun line hline => ⟨hfrom line (by simp [hline]), hfront line hline⟩)
      (ih hordered' hback (fun line hline => hbelow line (by simp [hline])) fun s' hs' => ?_) hback
    -- the stores of later stages stand behind this one
    have hlater := hrest.le_store s' hs'
    have hmem := hstores s' (List.mem_cons_of_mem _ hs')
    rcases List.mem_append.1 hmem with hmem | hmem
    · have := hfront _ hmem
      omega
    · rcases List.mem_cons.1 hmem with heq | hmem
      · rw [heq] at hlater
        omega
      · exact hmem

/-! ## The round over global variables -/

/-- Whether the value of a global variable is computed. -/
def isComputed (v : GlobalVar) : Bool := v.var.init.isSome

section

variable {Γ : Signatures} {o : Options} {ss : List Stage} {done : List GlobalVar}
  {g g' : Globals} {v : GlobalVar}

/-- The function that computes the values of global variables has the code of the stages, and goes
forward through all of them. -/
structure Staged (Γ : Signatures) (o : Options) (ss : List Stage) (done : List GlobalVar)
    (g : Globals) : Prop where
  /-- the stages are those of the variables whose values are computed -/
  vars : ss.map Stage.var = done.filter isComputed
  /-- lowering goes through them -/
  lowered : ∀ s ∈ ss, s.Lowered Γ
  /-- the function is there if there is a stage -/
  init : g.init.isSome = !ss.isEmpty
  /-- what they write is the code -/
  grown : ∀ s ∈ ss, s.ready.draft.func.Le (g.initDraft o).func
  /-- they follow one another -/
  consecutive : Consecutive 0 ss (g.initDraft o).func.regs
  /-- the code goes forward, and control comes by all stores -/
  forward : ∃ l, (g.initDraft o).point = some l ∧ (g.initDraft o).func.Forward ∅ l ∧
    ∀ s ∈ ss, (g.initDraft o).func.Passes l s.store

namespace Staged

theorem start (bound : List (Name × DataType)) : Staged Γ o [] [] { bound } := by
  have hopened := declared_initFunc.start
  have hfresh := hopened.fresh (d := startDraft o initFunc) rfl
  have hregs : (startDraft o initFunc).func.regs = 0 := by
    simp [initFunc, startDraft, Func.start, Func.addBlock, Func.claimName, Func.countName,
      Func.paramNames]
  refine ⟨rfl, List.forall_mem_nil _, rfl, List.forall_mem_nil _, ?_, _, rfl,
    hopened.forward hfresh.tidy, List.forall_mem_nil _⟩
  change Consecutive 0 [] (startDraft o initFunc).func.regs
  rw [hregs]
  exact .nil 0

/-- A variable without a value to compute leaves the function as it is. -/
theorem skip (h : Staged Γ o ss done g) (hinit : g'.init = g.init) (hv : v.var.init = none) :
    Staged Γ o ss (done ++ [v]) g' := by
  have hdraft : g'.initDraft o = g.initDraft o := by
    rw [Globals.initDraft, hinit, Globals.initDraft]
  refine ⟨?_, h.lowered, ?_, ?_, ?_, ?_⟩
  · simp [h.vars, isComputed, hv]
  · rw [hinit, h.init]
  · rw [hdraft]
    exact h.grown
  · rw [hdraft]
    exact h.consecutive
  · rw [hdraft]
    exact h.forward

end Staged

theorem init_declare : (g.declare v).2.init = g.init := by
  simp only [Globals.declare]
  split <;> rfl

/-- The address of a variable whose name has not been declared before. -/
theorem addr_declare (h : Named done g) {addr : Value} (hok : (g.declare v).1 = .ok addr) :
    addr = .global ⟨v.var.name.text, 0⟩ (Ty.ofData v.var.type) := by
  have haddr : addr = .global (nextGlobal g.globals v.var.name.text) (Ty.ofData v.var.type) :=
    (Globals.declare_eq_of_ok hok).1
  have hnew : g.globals.filter (fun g => g.id.name = v.var.name.text) = [] := by
    refine List.filter_eq_nil_iff.2 fun y hy heq => ?_
    obtain ⟨w, hw, hname⟩ := (h.mem_iff _).1 (List.mem_map_of_mem hy)
    exact h.new hok w hw (hname.trans (by simpa using heq))
  rw [haddr, nextGlobal, hnew]
  rfl

namespace Staged

/-- A variable whose value is computed adds a stage. -/
theorem value (h : Staged Γ o ss done g) (hnames : Named done g) {x : Expr} {operand : Operand}
    {addr : Value} {g₁ g₂ : Globals} (hinit : v.var.init = some x)
    (hwalk : g.walk o (expr Γ x) = .ok (.ok operand, g₁))
    (hdeclare : (g₁.declare v).1 = .ok addr)
    (hstore : (g₁.declare v).2.walk o (do
      let value ← initialValue v.var.type operand
      emit (Emit.store value addr)) = .ok (.ok (), g₂)) :
    ∃ s, Staged Γ o (ss ++ [s]) (done ++ [v]) g₂ := by
  have hnames₁ : Named done g₁ := hnames.walk settles_expr hwalk
  obtain rfl := addr_declare hnames₁ hdeclare
  obtain ⟨b, hexpr, rfl⟩ := walk_cases hwalk
  obtain ⟨b₂, hrun, rfl⟩ := walk_cases hstore
  rw [Globals.initDraft, init_declare] at hrun
  obtain ⟨value, b₁, hvalue, hemit⟩ := bind_succeeds hrun
  obtain ⟨_, d, hput, -, rfl⟩ := emit_cases hemit
  obtain ⟨_, happend⟩ := Emit.discard_cases hput
  -- the code goes forward up to the store
  obtain ⟨l, hpoint, hforward, hpasses⟩ := h.forward
  have hstart : Onward (g.initDraft o).func ∅ (g.initDraft o) := ⟨l, hpoint, hforward, .refl _⟩
  have honward := forwards_expr (Γ := Γ) (e := x) _ _ _ _ _ hstart hexpr
  have hconverts : Forwards (initialValue v.var.type operand) :=
    stepwise_initialValue evaluating_forwards
  obtain ⟨l₁, hpoint₁, hforward₁, hle⟩ := hconverts _ _ _ _ _ (by exact honward) hvalue
  obtain ⟨_, _, hpoint₁', -, -, rfl⟩ := Emit.append_cases happend
  cases hpoint₁.symm.trans hpoint₁'
  obtain ⟨c, hc, ho⟩ := hforward₁.isOpen
  have hput (inst : Inst) : b₁.draft.func.Le (b₁.draft.func.put l₁ inst) := Func.le_put hc ho
  refine ⟨⟨v, x, ⟨g.initDraft o, g.scopes, g.bound⟩, operand, value, b₁⟩, ?_, ?_, ?_, ?_, ?_, l₁,
    hpoint₁, hforward₁.put _, ?_⟩
  · simp [h.vars, isComputed, hinit]
  · intro s hs
    rcases List.mem_append.1 hs with hs | hs
    · exact h.lowered s hs
    · obtain rfl := List.mem_singleton.1 hs
      exact ⟨hinit, b, _, _, hexpr, hvalue⟩
  · simp
  · intro s hs
    rcases List.mem_append.1 hs with hs | hs
    · exact ((h.grown s hs).trans hle).trans (hput _)
    · obtain rfl := List.mem_singleton.1 hs
      exact hput _
  · exact h.consecutive.concat rfl hle.regs
  · intro s hs
    rcases List.mem_append.1 hs with hs | hs
    · exact hforward.passes (hforward₁.put _) (hle.trans (hput _)) (hpasses s hs)
    · obtain rfl := List.mem_singleton.1 hs
      exact (hforward₁.put _).passes_here (Func.at_put_self hc)
        (by simp [Func.withLine, Stage.store])

/-- A variable that does not fail. -/
theorem add (h : Staged Γ o ss done g) (hnames : Named done g)
    (hadd : g.add Γ o v = .ok (.ok (), g')) : ∃ ss', Staged Γ o ss' (done ++ [v]) g' := by
  generalize hr : (Except.ok () : Except Failure Unit) = r at hadd
  cases adds_of_add hadd with
  | bad => cases hr
  | repeated hbad hrepeated =>
    refine ⟨ss, h.skip rfl ?_⟩
    simp only [Globals.isRepeated, Bool.and_eq_true, Option.isNone_iff_eq_none] at hrepeated
    exact hrepeated.1.2
  | plain hbad hinit => exact ⟨ss, h.skip init_declare hinit⟩
  | failed => cases hr
  | valued hbad hinit hwalk hdeclare hstore =>
    subst hr
    obtain ⟨s, hs⟩ := h.value hnames hinit hwalk hdeclare hstore
    exact ⟨_, hs⟩

/-- All variables, if none of them fails. -/
theorem addGlobals {vs : List GlobalVar} {problems : List Problem}
    {bound : List (Name × DataType)}
    (hrun : addGlobals Γ o { bound } problems vs = .ok (g', [])) : ∃ ss, Staged Γ o ss vs g' := by
  have hboth : Named vs g' ∧ ∃ ss, Staged Γ o ss vs g' :=
    addGlobals_induction_ok (P := fun done g => Named done g ∧ ∃ ss, Staged Γ o ss done g)
      (fun _ _ _ _ h hadd => ⟨h.1.add hadd, h.2.elim fun _ hss => hss.add h.1 hadd⟩)
      ⟨.start bound, _, .start bound⟩ hrun
  exact hboth.2

end Staged

/-! ## The end of the function -/

/-- On every way through a function control goes through stages, one after the other. -/
structure Computes (ss : List Stage) (f : Func) (l : Label) : Prop extends f.Complete l where
  /-- what the walks of the stages have written is the code of the function -/
  grown : ∀ s ∈ ss, s.ready.draft.func.Le f
  /-- instructions are carried out in the order in which they have been written -/
  ordered : ∀ ls, f.Path (l :: ls) → ((f.trace (l :: ls)).map Line.reg).Pairwise (· < ·)
  /-- and they are those of the stages -/
  carried : ∀ ls, f.Path (l :: ls) → Carried ss (f.trace (l :: ls))

/-- Once it returns, the function computes the values of all global variables. -/
theorem Staged.finish (h : Staged Γ o ss done g) (hrun : g.finish = .ok g') :
    ∀ d, g'.init = some d → ∃ l, Computes ss d.func l := by
  intro d hd
  obtain ⟨hnone, rfl⟩ | ⟨d₀, d₁, hsome, hret, rfl⟩ := finish_cases hrun
  · rw [hnone] at hd
    cases hd
  · obtain rfl := Option.some.inj hd
    obtain ⟨l, hpoint, hforward, hpasses⟩ := h.forward
    have hconsecutive := h.consecutive
    have hdraft : g.initDraft o = d₀ := by rw [Globals.initDraft, hsome, Option.getD_some]
    rw [hdraft] at hpoint hforward hpasses hconsecutive
    obtain ⟨_, hl, rfl⟩ := Emit.terminate_cases hret
    cases hpoint.symm.trans hl
    obtain ⟨b, hb, ho⟩ := hforward.isOpen
    have hgrown := h.grown
    rw [hdraft] at hgrown
    refine ⟨l, hforward.complete, fun s hs => (hgrown s hs).trans (Func.le_close hb ho),
      fun ls hp => ?_, fun ls hp => ?_⟩
    · obtain ⟨hp', htrace⟩ := hforward.trace_ret hp
      exact htrace ▸ hforward.ordered _ hp'
    · obtain ⟨hp', htrace⟩ := hforward.trace_ret hp
      refine htrace ▸ hconsecutive.carried (hforward.ordered _ hp') (fun _ _ => Nat.zero_le _)
        (hforward.below _ hp') fun s hs => hpasses s hs ls hp'

end

end Shader.Lowering
