import Shader.Proofs.Rooms.Bodies

/-!
# The function for the values of global variables keeps to their rooms

Every global variable has an address of its own, and the value of each is kept there by one store
of the function that computes them all, behind the code of its initializer.
-/

namespace Shader.Lowering

open Ir

/-- What the function that computes the values of global variables can refer to. -/
def Setting.ofInit (Γ : Signatures) (G : GlobalId → DataType → Bool → Prop) : Setting :=
  ⟨⟨initName, 0⟩, [], .void, Γ, G⟩

/-! ## Addresses of global variables -/

/-- A global variable is the first one with its name. -/
def FirstGlobal (vs : List GlobalVar) (id : GlobalId) (t : DataType) (c : Bool) : Prop :=
  id.copy = 0 ∧ ∃ v, vs.find? (fun v => v.var.name.text = id.name) = some v ∧
    v.var.type = t ∧ v.var.isConst = c

section

variable {vs done : List GlobalVar} {v : GlobalVar} {id : GlobalId} {t t' : DataType} {c c' : Bool}

theorem FirstGlobal.unique (h : FirstGlobal vs id t c) (h' : FirstGlobal vs id t' c') :
    t = t' ∧ c = c' := by
  obtain ⟨-, v, hv, rfl, rfl⟩ := h
  obtain ⟨-, w, hw, rfl, rfl⟩ := h'
  obtain rfl := Option.some.inj (hv.symm.trans hw)
  exact ⟨rfl, rfl⟩

theorem FirstGlobal.concat (h : FirstGlobal done id t c) : FirstGlobal (done ++ [v]) id t c := by
  obtain ⟨hcopy, w, hw, htype, hconst⟩ := h
  exact ⟨hcopy, w, by rw [List.find?_append, hw]; rfl, htype, hconst⟩

/-- A variable whose name is new. -/
theorem firstGlobal_concat (h : ∀ w ∈ done, w.var.name.text ≠ v.var.name.text) :
    FirstGlobal (done ++ [v]) ⟨v.var.name.text, 0⟩ v.var.type v.var.isConst := by
  have hnone : done.find? (fun w => w.var.name.text = v.var.name.text) = none :=
    List.find?_eq_none.2 fun w hw => by simpa using h w hw
  exact ⟨rfl, v, by simp [List.find?_append, hnone], rfl, rfl⟩

end

section

variable {g : Globals} {v : GlobalVar} {addr : Value}

/-- A variable that is declared is added to the scope. -/
theorem globalsDeclare_cases (hok : (g.declare v).1 = .ok addr) : ∃ σ,
    g.scopes.declare ⟨v.var.name.text, v.var.type, addr, v.var.isConst⟩ = .ok σ ∧
    (g.declare v).2.scopes = σ ∧ (g.declare v).2.bound = (v.var.name, v.var.type) :: g.bound := by
  obtain ⟨rfl, σ, hσ, hadded⟩ := Globals.declare_eq_of_ok hok
  exact ⟨σ, hσ, by rw [hadded], by rw [hadded]⟩

end

/-! ## Stages -/

/-- The address of the variable whose value a stage computes. -/
def Stage.addr (s : Stage) : Value :=
  .global ⟨s.var.var.name.text, 0⟩ (Ty.ofData s.var.var.type)

/-- What has been declared by stages: no room, but first values of global variables. -/
def Ledger.ofStages (ss : List Stage) : Ledger where
  first := ss.map fun s => (s.store.reg, s.addr)

section

variable {Γ : Signatures} {G : GlobalId → DataType → Bool → Prop} {D : Demand (.ofInit Γ G)}
  {o : Options} {ss : List Stage} {done : List GlobalVar} {g g' : Globals} {v : GlobalVar}

/-- The setting knows the variables that have been declared, and the demand their initializers. -/
structure Foreseen (D : Demand (.ofInit Γ G)) (done : List GlobalVar) : Prop where
  /-- the variables -/
  globals : ∀ id t c, FirstGlobal done id t c → G id t c
  /-- and their initializers -/
  permitted : ∀ v ∈ done, ∀ x ∈ v.var.init.toList, Permitted D x

theorem Foreseen.init (h : Foreseen D (done ++ [v])) : Foreseen D done :=
  ⟨fun id t c hid => h.globals id t c hid.concat,
    fun w hw => h.permitted w (List.mem_append_left _ hw)⟩

/-- The function that computes the values of global variables keeps to their addresses. -/
structure StagesTraced (D : Demand (.ofInit Γ G)) (o : Options) (ss : List Stage)
    (done : List GlobalVar) (g : Globals) : Prop where
  /-- the stages are those of the variables whose values are computed -/
  vars : ss.map Stage.var = done.filter isComputed
  /-- lowering goes through them -/
  lowered : ∀ s ∈ ss, s.Lowered Γ
  /-- their variables are the first with their names -/
  firsts : ∀ s ∈ ss,
    FirstGlobal done ⟨s.var.var.name.text, 0⟩ s.var.var.type s.var.var.isConst
  /-- and no others have these names -/
  names : (ss.map fun s => s.var.var.name.text).Nodup
  /-- the function is there if there is a stage -/
  init : ss ≠ [] → g.init.isSome = true
  /-- it keeps to the variables, every name in scope stands for one, and the values are kept -/
  traced : Foreseen D done → D.seen g.bound →
    Traced D (.ofStages ss) (g.initDraft o) ∧ g.scopes.All (NamesGlobal G) ∧
      ∀ s ∈ ss, s.store ∈ (g.initDraft o).func.code

namespace StagesTraced

theorem start (bound : List (Name × DataType)) : StagesTraced D o [] [] { bound } := by
  have hopened := declared_initFunc.start
  have hblocks : (startDraft o initFunc).func.blocks = _ := hopened.blocks
  refine ⟨rfl, List.forall_mem_nil _, List.forall_mem_nil _, .nil, by simp, fun _ _ =>
    ⟨⟨?_, ?_, ?_, ?_, ?_, ?_⟩, ?_, List.forall_mem_nil _⟩⟩
  · exact hopened.id
  · change (startDraft o initFunc).func.blocks ≠ []
    simp [hblocks]
  · intro l hl
    have hl : some (initFunc.start []).1 = some l := hl
    obtain rfl := Option.some.inj hl
    change _ ∈ (startDraft o initFunc).func.ownLabels
    rw [Func.ownLabels, hblocks]
    exact List.mem_cons_self
  · exact List.forall_mem_nil _
  · change ∀ line ∈ (startDraft o initFunc).func.code, _
    simp [Func.code, hblocks]
  · change ∀ v, _ ∈ (startDraft o initFunc).func.terms → _
    simp [Func.terms, hblocks]
  · intro frame hframe sym hsym
    obtain rfl := List.mem_singleton.1 hframe
    cases hsym

/-- A variable without a value to compute leaves the function as it is. -/
theorem skip (h : StagesTraced D o ss done g) (hv : v.var.init = none) (hinit : g'.init = g.init)
    (hseen : D.seen g'.bound → D.seen g.bound)
    (hscopes : Foreseen D (done ++ [v]) → g.scopes.All (NamesGlobal G) →
      g'.scopes.All (NamesGlobal G)) : StagesTraced D o ss (done ++ [v]) g' := by
  have hdraft : g'.initDraft o = g.initDraft o := by
    rw [Globals.initDraft, hinit, Globals.initDraft]
  refine ⟨?_, h.lowered, fun s hs => (h.firsts s hs).concat, h.names, ?_,
    fun hforeseen hseen' => ?_⟩
  · simp [h.vars, isComputed, hv]
  · rw [hinit]
    exact h.init
  · obtain ⟨htraced, hscopes', hstores⟩ := h.traced hforeseen.init (hseen hseen')
    rw [hdraft]
    exact ⟨htraced, hscopes hforeseen hscopes', hstores⟩

/-- The name of a variable that is declared stands for it. -/
theorem scopes_declare {addr : Value} (hnames : Named done g) (hok : (g.declare v).1 = .ok addr)
    (hforeseen : Foreseen D (done ++ [v])) (hscopes : g.scopes.All (NamesGlobal G)) :
    (g.declare v).2.scopes.All (NamesGlobal G) := by
  obtain ⟨σ, hσ, hσ', -⟩ := globalsDeclare_cases hok
  obtain rfl := addr_declare hnames hok
  rw [hσ']
  refine hscopes.declare ⟨_, hforeseen.globals _ _ _ (firstGlobal_concat (hnames.new hok)), rfl⟩ hσ

/-- A variable whose value is computed adds a stage. -/
theorem value (hD : Fitness D) (h : StagesTraced D o ss done g) (hnames : Named done g) {x : Expr}
    {operand : Operand} {addr : Value} {g₁ g₂ : Globals} (hinit : v.var.init = some x)
    (hwalk : g.walk o (expr Γ x) = .ok (.ok operand, g₁))
    (hdeclare : (g₁.declare v).1 = .ok addr)
    (hstore : (g₁.declare v).2.walk o (do
      let value ← initialValue v.var.type operand
      emit (Emit.store value addr)) = .ok (.ok (), g₂)) :
    ∃ s, StagesTraced D o (ss ++ [s]) (done ++ [v]) g₂ := by
  have hnames₁ : Named done g₁ := hnames.walk settles_expr hwalk
  have haddr := addr_declare hnames₁ hdeclare
  have hsettled := (frames_walk settles_expr hwalk).scopes
  obtain ⟨σ, -, hσ, hbound⟩ := globalsDeclare_cases hdeclare
  obtain ⟨b, hexpr, rfl⟩ := walk_cases hwalk
  have hsettled' := (frames_walk (frames_initStore forking_settles.toFraming) hstore).scopes
  obtain ⟨b₂, hrun, rfl⟩ := walk_cases hstore
  rw [Globals.initDraft, init_declare, hσ, hbound] at hrun
  obtain ⟨value, b₁, hvalue, hemit⟩ := bind_succeeds hrun
  obtain ⟨_, d, hput, -, rfl⟩ := emit_cases hemit
  obtain ⟨_, happend⟩ := Emit.discard_cases hput
  let s : Stage := ⟨v, x, ⟨g.initDraft o, g.scopes, g.bound⟩, operand, value, b₁⟩
  have hnew := hnames₁.new hdeclare
  refine ⟨s, ?_, ?_, ?_, ?_, fun _ => rfl, fun hforeseen hseen => ?_⟩
  · simp [h.vars, isComputed, hinit, s]
  · exact List.forall_mem_append.2 ⟨h.lowered,
      List.forall_mem_singleton.2 ⟨hinit, b, _, _, hexpr, hvalue⟩⟩
  · exact List.forall_mem_append.2 ⟨fun s hs => (h.firsts s hs).concat,
      List.forall_mem_singleton.2 (firstGlobal_concat hnew)⟩
  · rw [List.map_append, List.nodup_append]
    refine ⟨h.names, List.nodup_singleton _, fun name hname name' hname' heq => ?_⟩
    obtain ⟨s', hs', rfl⟩ := List.mem_map.1 hname
    obtain rfl := List.mem_singleton.1 hname'
    have hvar : s'.var ∈ done.filter isComputed := h.vars ▸ List.mem_map_of_mem hs'
    exact hnew _ (List.mem_filter.1 hvar).1 heq
  -- the initializer and its conversion keep to what has been declared before
  have hpermitted : Permitted D x := hforeseen.permitted v (by simp) x (by simp [hinit])
  obtain ⟨hseen₁, htraced₁⟩ := traces_expr (k := .ofStages ss) (P := fun _ => True) hD hpermitted
    _ _ _ hexpr
  obtain ⟨hseen₂, htraced₂⟩ := traces_initialValue (k := .ofStages ss) (t := v.var.type)
    (P := operand.Traced D (.ofStages ss)) hD (fun _ h => h) _ _ _ hvalue
  have hseen' := D.seen_tail (hseen₂ hseen)
  obtain ⟨htraced, hscopes, hstores⟩ := h.traced hforeseen.init (hseen₁ hseen')
  obtain ⟨hb, hgrows₁, hx⟩ :=
    htraced₁ hseen' ⟨htraced, hscopes.mono fun _ h => h.room⟩ trivial
  have hscopes' := scopes_declare hnames₁ hdeclare hforeseen (hsettled ▸ hscopes)
  rw [hσ] at hscopes'
  obtain ⟨hb₁, hgrows₂, hfit⟩ :=
    htraced₂ hseen ⟨hb.toTraced, hscopes'.mono fun _ h => h.room⟩ hx
  -- and the store goes to the new address
  have hk : Ledger.Le (.ofStages ss) (.ofStages (ss ++ [s])) :=
    ⟨fun _ h => h, by simp [Ledger.ofStages]⟩
  have hfirst : (b₁.draft.func.regs, addr) ∈ (Ledger.ofStages (ss ++ [s])).first := by
    simp [Ledger.ofStages, s, Stage.store, Stage.addr, haddr]
  obtain ⟨hd, hgrows₃, hmem, -⟩ := (hb₁.toTraced.mono hk (List.forall_mem_nil _)).append happend
    ⟨v.var.isConst, v.var.type, haddr ▸ .global (hforeseen.globals _ _ _ (firstGlobal_concat hnew)),
      D.fit_mono hk (.refl _) hfit, fun _ => hfirst⟩
  refine ⟨hd, ?_, List.forall_mem_append.2 ⟨fun s' hs' => ?_, List.forall_mem_singleton.2 ?_⟩⟩
  · rw [hsettled', hσ]
    exact hscopes'
  · exact ((hgrows₁.trans hgrows₂).trans hgrows₃).func.code (hstores s' hs')
  · rw [haddr] at hmem
    exact hmem

/-- A variable that does not fail. -/
theorem add (hD : Fitness D) (h : StagesTraced D o ss done g) (hnames : Named done g)
    (hadd : g.add Γ o v = .ok (.ok (), g')) :
    ∃ ss', StagesTraced D o ss' (done ++ [v]) g' := by
  generalize hr : (Except.ok () : Except Failure Unit) = r at hadd
  cases adds_of_add hadd with
  | bad => cases hr
  | repeated hbad hrepeated =>
    refine ⟨ss, h.skip ?_ rfl D.seen_tail fun _ hscopes => hscopes⟩
    simp only [Globals.isRepeated, Bool.and_eq_true, Option.isNone_iff_eq_none] at hrepeated
    exact hrepeated.1.2
  | plain hbad hinit =>
    rcases hdeclare : (g.declare v).1 with failure | addr
    · rw [hdeclare] at hr
      cases hr
    obtain ⟨σ, -, -, hbound⟩ := globalsDeclare_cases hdeclare
    refine ⟨ss, h.skip hinit init_declare (fun hseen => ?_) (scopes_declare hnames hdeclare)⟩
    rw [hbound] at hseen
    exact D.seen_tail hseen
  | failed => cases hr
  | valued hbad hinit hwalk hdeclare hstore =>
    subst hr
    obtain ⟨s, hs⟩ := h.value hD hnames hinit hwalk hdeclare hstore
    exact ⟨_, hs⟩

/-- All variables, if none of them fails. -/
theorem addGlobals (hD : Fitness D) {vs : List GlobalVar} {problems : List Problem}
    {bound : List (Name × DataType)}
    (hrun : addGlobals Γ o { bound } problems vs = .ok (g', [])) :
    ∃ ss, StagesTraced D o ss vs g' := by
  have hboth : Named vs g' ∧ ∃ ss, StagesTraced D o ss vs g' :=
    addGlobals_induction_ok (P := fun done g => Named done g ∧ ∃ ss, StagesTraced D o ss done g)
      (fun _ _ _ _ h hadd => ⟨h.1.add hadd, h.2.elim fun _ hss => hss.add hD h.1 hadd⟩)
      ⟨.start bound, _, .start bound⟩ hrun
  exact hboth.2

/-- The function is ended, and keeps to the variables. -/
theorem finish (h : StagesTraced D o ss done g) (hforeseen : Foreseen D done)
    (hseen : D.seen g.bound) (hrun : g.finish = .ok g') : g'.scopes.All (NamesGlobal G) ∧
      (ss ≠ [] → g'.init.isSome = true) ∧
      ∀ d, g'.init = some d → Traced D (.ofStages ss) d ∧ ∀ s ∈ ss, s.store ∈ d.func.code := by
  obtain ⟨-, hscopes', -, hinit⟩ := finish_frame hrun
  obtain ⟨htraced, hscopes, hstores⟩ := h.traced hforeseen hseen
  refine ⟨hscopes' ▸ hscopes, fun hss => hinit ▸ h.init hss, fun d hd => ?_⟩
  obtain ⟨hnone, rfl⟩ | ⟨d₀, d₁, hsome, hret, rfl⟩ := finish_cases hrun
  · rw [hnone] at hd
    cases hd
  · obtain rfl := Option.some.inj hd
    rw [Globals.initDraft, hsome, Option.getD_some] at htraced hstores
    obtain ⟨hd, hgrows⟩ := htraced.terminate (by simp) hret
    exact ⟨hd, fun s hs => hgrows.func.code (hstores s hs)⟩

end StagesTraced

end

end Shader.Lowering
