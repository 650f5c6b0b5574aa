import Shader.Lowering.Stmt
import Shader.Proofs.Lowering.Expressions

/-!
# The walk over statements

A statement may leave the point anywhere, or nowhere. What a control structure relies on is that the
blocks that it has made wait until it comes to them, and that control can go back to those where it
has been: this is its plan. What is nested in it runs in a realm of its own, to which none of these
blocks belongs, and leaves the plan as it is.

Nothing is promised to the blocks of statements: all that a statement uses from before is variables,
and these have room from the start.
-/

namespace Shader.Ir

/-! ## Plans -/

/-- A block to which control can go from everywhere: it has no choice, and nothing was promised to
it. -/
structure Site.Landing (s : Site) (k : Label) : Prop where
  /-- it has no choice -/
  block : ∃ c, s.func.At k c ∧ ¬ c.hasPhi
  /-- it is not the entry -/
  noEntry : k.index ≠ 0
  /-- nothing was promised -/
  given : s.given k.index = ∅

/-- The blocks of a control structure: those where it has been, and those that wait, in the order in
which it comes to them. -/
structure Site.Plan (ρ : Realm) (s : Site) (past coming : List Label) : Prop where
  /-- control can go back -/
  been : ∀ k ∈ past, s.Landing k
  /-- a block that waits is empty, and the point is elsewhere -/
  waiting : ∀ k ∈ coming, (∃ ways, s.Pending k ∅ ways) ∧ s.point ≠ some k
  /-- the blocks that wait are different ones -/
  distinct : coming.Nodup
  /-- all of them are new -/
  isNew : ∀ k ∈ past ++ coming, ρ.first ≤ k.index

variable {O : Outside} {ρ : Realm} {s s' : Site}

namespace Site.Landing

variable {k : Label}

theorem of_pending {ways : List Label} (h : s.Pending k ∅ ways) : s.Landing k :=
  ⟨⟨_, h.block, fun ⟨_, hmem, _⟩ => by cases hmem⟩, h.noEntry, h.given⟩

theorem target (h : s.Landing k) (hsees : ρ.Sees k) : s.Target ρ k :=
  ⟨hsees, h.block, h.noEntry, fun r hr => by rw [h.given] at hr; exact hr.elim⟩

theorem lt_labels (h : s.Landing k) (ht : s.func.Tidy) : k.index < s.func.labels := by
  obtain ⟨c, hc, -⟩ := h.block
  exact ht.lt_labels hc

/-- What is written in a realm to which the block is old gives it no choice. -/
theorem of_writes (h : s.Landing k) (ht : s.func.Tidy) (hw : Writes O ρ s s')
    (hold : k.index < ρ.first) : s'.Landing k where
  block := by
    obtain ⟨c, hc, hphi⟩ := h.block
    exact Steps.frame_phi hw hc hold hphi
  noEntry := h.noEntry
  given := (Steps.given_eq hw (h.lt_labels ht)).trans h.given

theorem moved (h : s.Landing k) (p : Option Label) : (s.moved p).Landing k :=
  ⟨h.block, h.noEntry, h.given⟩

theorem close (h : s.Landing k) (l : Label) (term : Term) :
    (s.withFunc (s.func.close l term)).Landing k where
  block := by
    obtain ⟨c, hc, hphi⟩ := h.block
    by_cases hk : k = l
    · subst hk
      exact ⟨_, Func.at_close_self hc, hphi⟩
    · exact ⟨c, (Func.at_close_ne hk).2 hc, hphi⟩
  noEntry := h.noEntry
  given := h.given

end Site.Landing

namespace Site.Plan

variable {past coming : List Label} {k : Label}

theorem nil (ρ : Realm) (s : Site) : s.Plan ρ [] [] :=
  ⟨by simp, by simp, List.nodup_nil, by simp⟩

theorem landing (h : s.Plan ρ past coming) (hk : k ∈ past ++ coming) : s.Landing k := by
  rcases List.mem_append.1 hk with hk | hk
  · exact h.been k hk
  · obtain ⟨⟨ways, hways⟩, -⟩ := h.waiting k hk
    exact .of_pending hways

theorem target (h : s.Plan ρ past coming) (hk : k ∈ past ++ coming) : s.Target ρ k :=
  (h.landing hk).target (.inl (h.isNew k hk))

/-- The next block that waits is open. -/
theorem next (h : s.Plan ρ past (k :: coming)) :
    ρ.Owns k ∧ s.point ≠ some k ∧ ∃ b, s.func.At k b ∧ b.term = none := by
  obtain ⟨⟨ways, hways⟩, hk⟩ := h.waiting k List.mem_cons_self
  exact ⟨.inl (h.isNew k (List.mem_append_right _ List.mem_cons_self)), hk, _, hways.block, rfl⟩

/-- Where the next block is as it was and the point has come to it, writing starts. -/
theorem starts (h : s.Plan ρ past (k :: coming)) (hk : s'.point = some k)
    (hat : ∀ b, s.func.At k b → s'.func.At k b) : s'.draft.Starts k := by
  obtain ⟨⟨ways, hways⟩, -⟩ := h.waiting k List.mem_cons_self
  exact ⟨hk, _, hat _ hways.block, rfl⟩

theorem ne_next (h : s.Plan ρ past (k :: coming)) {j : Label} (hj : j ∈ coming) : j ≠ k := by
  rintro rfl
  exact (List.nodup_cons.1 h.distinct).1 hj

/-- Another block is made. -/
theorem withBlock (h : s.Plan ρ past coming) (hs : s.Sane ρ) (hint : String) :
    (s.withBlock hint ∅).Plan ρ past (coming ++ [(s.func.addBlock hint).1]) where
  been := fun k hk => by
    have hland := h.been k hk
    have hlt := hland.lt_labels hs.tidy
    exact hland.of_writes (O := ⟨[], fun _ => none⟩) (ρ := s.realm) hs.tidy
      (.single (.block s hint ∅)) hlt
  waiting := fun k hk => by
    rcases List.mem_append.1 hk with hk | hk
    · obtain ⟨⟨ways, hways⟩, hpoint⟩ := h.waiting k hk
      exact ⟨⟨ways, hways.withBlock hs.tidy hint ∅⟩, hpoint⟩
    · obtain rfl := List.mem_singleton.1 hk
      refine ⟨⟨[], hs.pending hint ∅⟩, fun hl => ?_⟩
      obtain ⟨⟨b, hb, -⟩, -⟩ := hs.point _ hl
      exact Nat.lt_irrefl _ (hs.tidy.lt_labels hb)
  distinct := by
    refine List.nodup_append.2 ⟨h.distinct, List.nodup_singleton _, fun k hk j hj => ?_⟩
    obtain rfl := List.mem_singleton.1 hj
    rintro rfl
    exact Nat.lt_irrefl _ ((h.landing (List.mem_append_right _ hk)).lt_labels hs.tidy)
  isNew := fun k hk => by
    rw [← List.append_assoc] at hk
    rcases List.mem_append.1 hk with hk | hk
    · exact h.isNew k hk
    · obtain rfl := List.mem_singleton.1 hk
      exact hs.first

/-- The point goes to the next block, either from where control cannot come or behind a branch. -/
theorem moved (h : s.Plan ρ past (k :: coming)) : (s.moved (some k)).Plan ρ (k :: past) coming where
  been := fun j hj => by
    rcases List.mem_cons.1 hj with rfl | hj
    · exact (h.landing (List.mem_append_right _ List.mem_cons_self)).moved _
    · exact (h.been j hj).moved _
  waiting := fun j hj => by
    obtain ⟨⟨ways, hways⟩, -⟩ := h.waiting j (List.mem_cons_of_mem _ hj)
    exact ⟨⟨ways, hways.moved _⟩, fun hk => h.ne_next hj (Option.some.inj hk).symm⟩
  distinct := (List.nodup_cons.1 h.distinct).2
  isNew := fun j hj => h.isNew j (by simp at hj ⊢; tauto)

/-- The end of a block leaves the plan as it is. -/
theorem close (h : s.Plan ρ past coming) (hs : s.Sane ρ) {l : Label} (hl : s.point = some l)
    (term : Term) : (s.withFunc (s.func.close l term)).Plan ρ past coming where
  been := fun k hk => (h.been k hk).close l term
  waiting := fun k hk => by
    obtain ⟨⟨ways, hways⟩, hpoint⟩ := h.waiting k hk
    exact ⟨⟨_, hways.close hs hl (fun heq => hpoint (heq ▸ hl)) term⟩, hpoint⟩
  distinct := h.distinct
  isNew := h.isNew

/-- What is nested leaves the plan as it is. -/
theorem nested {goals : Label → Prop} {declares : Prop} (h : s.Plan ρ past coming)
    (ht : s.func.Tidy) (hw : Writes O (s.realmWith goals declares) s s')
    (hs' : s'.Sane (s.realmWith goals declares)) : s'.Plan ρ past coming where
  been := fun k hk => (h.been k hk).of_writes ht hw ((h.been k hk).lt_labels ht)
  waiting := fun k hk => by
    obtain ⟨⟨ways, hways⟩, hpoint⟩ := h.waiting k hk
    have hlt : k.index < s.func.labels := ht.lt_labels hways.block
    refine ⟨⟨_, hways.waits ht hw hlt hpoint⟩, fun hk' => ?_⟩
    rcases (hs'.point k hk').2 with hnew | hold
    · exact absurd hlt (Nat.not_lt_of_le hnew)
    · exact hpoint hold
  distinct := h.distinct
  isNew := h.isNew

end Site.Plan

/-! ## Runs -/

theorem Emit.get_bind {α : Type} (act : Draft → Emit α) (d : Draft) :
    (get >>= act : Emit α) d = act d d := rfl

theorem Emit.bind_run {α β : Type} {act : Emit α} {next : α → Emit β} {d d' : Draft} {a : α}
    (h : act d = .ok (a, d')) : (act >>= next) d = next a d' := by
  change Except.bind (act d) _ = _
  rw [h]
  rfl

theorem Emit.isReachable_run (d : Draft) : Emit.isReachable d = .ok (d.point.isSome, d) := rfl

/-! ## Room -/

theorem Emit.alloca_run {entry : Block} {blocks : List Block} {t : DataType} (hint : String)
    (h : s.func.blocks = entry :: blocks) :
    Emit.alloca t hint s.draft =
      .ok (.result s.func.id s.func.regs (s.func.claimName hint).1 (.pointer (Ty.ofData t)),
        (s.withFunc (s.func.reserve t hint)).draft) := by
  simp only [Site.withFunc, Func.reserve, h, List.modify_zero_cons]
  rw [Emit.alloca, Emit.get_bind, h]
  rfl

/-- Room for a variable is there from the start of the function on. -/
theorem Emits.alloca {t : DataType} (hint : String)
    (hvoid : t ≠ .void) :
    Emits O ρ (Emit.alloca t hint) s fun v s' => s'.Has O v (.pointer (Ty.ofData t)) ∧
      v.reg? = some s.func.regs ∧ s'.func.IsSlot s.func.regs ∧ s.draft.Stays s'.draft := by
  intro hs
  obtain ⟨l, b, hl, hb, ho, hown⟩ := hs.isOpen
  have hstep : Step O ρ.first ρ.home ρ.goals s (s.withFunc (s.func.reserve t hint)) :=
    .slot s hint hvoid
  obtain ⟨entry, blocks, hblocks⟩ := List.exists_cons_of_ne_nil hs.tidy.entry
  -- the entry is where the room is
  have hentry : s.func.At entry.label entry :=
    hs.tidy.at_of_getElem? (i := 0) (by rw [hblocks]; rfl)
  have hindex : entry.label.index = 0 := (hs.tidy.label 0 entry (by rw [hblocks]; rfl)).2
  have hat : (s.func.reserve t hint).At entry.label
      (s.func.withSlot t hint entry.label.index entry) := Func.at_reserve.2 ⟨entry, hentry, rfl⟩
  have hmem : s.func.slotLine t hint ∈
      (s.func.withSlot t hint entry.label.index entry).lines := by
    rw [Func.withSlot, if_pos hindex]
    exact Emit.mem_insertAlloca.2 (.inl rfl)
  have hslot : (s.func.reserve t hint).IsSlot s.func.regs :=
    ⟨entry.label, _, _, hat, hmem, rfl, rfl⟩
  have hlead : s.Leads O ρ (s.withFunc (s.func.reserve t hint)) := by
    refine ⟨⟨.single hstep, ⟨hs.of_writes (.single hstep) fun k hk => ?_, l, hl⟩,
      ?_⟩, ?_⟩
    · obtain rfl : l = k := Option.some.inj (hl.symm.trans hk)
      exact ⟨⟨_, Func.at_reserve.2 ⟨b, hb, rfl⟩, by simpa using ho⟩, hown⟩
    · rintro r ⟨k, hk, hr⟩
      exact ⟨k, hk, hstep.offers hs.tidy hr⟩
    · rintro k ⟨c, hc, hopen, hk⟩
      obtain ⟨c', hc', rfl⟩ := Func.at_reserve.1 hc
      exact ⟨c', hc', by simpa using hopen, hk⟩
  refine ⟨_, _, Emit.alloca_run hint hblocks, hlead,
    ⟨rfl, ⟨rfl, entry.label, _, _, hat, hmem, rfl, rfl, rfl⟩, ?_⟩, rfl, hslot, rfl, ?_⟩
  · intro r hr
    obtain rfl := Option.some.inj hr
    exact ⟨l, hl, .inr hslot⟩
  · intro k c _ hc
    exact ⟨_, Func.at_reserve.2 ⟨c, hc, rfl⟩, Func.body_withSlot _ c⟩

end Shader.Ir

namespace Shader.Lowering

open Ir

/-! ## Scopes -/

/-- The walk in a new scope. -/
def Walk.enter (x : Walk) : Walk := ⟨{ x.body with scopes := x.scopes.enter }, x.given⟩

/-- The walk with the declarations of another one. -/
def Walk.exit (x y : Walk) : Walk := ⟨{ y.body with scopes := x.scopes }, y.given⟩

/-- A scope of its own is closed again, however the walk in it ends. -/
theorem inScope_run {α : Type} {O : Outside} {ρ : Realm} {x y : Walk} {act : Lower α}
    {r : Except Failure α} (hrun : act.run x.enter.body = .ok (r, y.body))
    (hgoes : x.enter.Goes O ρ y) : (inScope act).run x.body = .ok (r, (x.exit y).body) := by
  change Except.bind (act.run x.enter.body) _ = _
  rw [hrun]
  simp only [Except.bind, Scopes.Extends.exit? hgoes.scopes]
  rfl

/-- A scope of its own is closed again, and then everything is declared as it was. -/
theorem walks_inScope {α : Type} {O : Outside} {ρ : Realm} {x : Walk} {act : Lower α}
    {P : α → Walk → Prop} (h : Walks O ρ act x.enter P) :
    Walks O ρ (inScope act) x fun a x' => ∃ y, x.enter.Goes O ρ y ∧ P a y ∧ x' = x.exit y := by
  intro hx
  obtain ⟨r, y, hrun, hgoes, hr⟩ := h hx
  refine ⟨r, x.exit y, inScope_run hrun hgoes, ⟨hgoes.writes, hgoes.sane, .refl _ _⟩, ?_⟩
  cases r with
  | error e => exact hr
  | ok a => exact ⟨y, hgoes, hr, rfl⟩

/-- A variable with room is declared, unless the scope has its name already. -/
theorem walks_declare {O : Outside} {ρ : Realm} {x : Walk} {n : Name} {type : DataType}
    {addr : Value} {isConst : Bool} (hx : x.site.Ready ρ) (hρ : ρ.declares)
    (hsym : SymbolSound O x.site.func ⟨n.text, type, addr, isConst⟩) :
    Walks O ρ (declare n type addr isConst) x fun _ x' => x'.site = x.site ∧
      x'.scopes = x.scopes.setTop (x.scopes.top ++ [⟨n.text, type, addr, isConst⟩]) := by
  intro _
  let sym : Symbol DataType Value := ⟨n.text, type, addr, isConst⟩
  rcases hdecl : x.scopes.declare sym with earlier | σ
  · refine ⟨.error ⟨n.pos, .redeclared n.text⟩, x, ?_, .refl hx.toSane, hx⟩
    rw [ExceptT.run, Lowering.declare, get_bind, hdecl]
    rfl
  · have hσ : σ = x.scopes.setTop (x.scopes.top ++ [sym]) := by
      unfold Scopes.declare at hdecl
      split at hdecl
      · cases hdecl
      · exact (Except.ok.inj hdecl).symm
    refine ⟨.ok (), ⟨{ x.body with scopes := σ, bound := (n, type) :: x.body.bound }, x.given⟩, ?_,
      ⟨.refl, hx.toSane, [sym], hσ, List.forall_mem_singleton.2 ⟨hρ, hsym⟩⟩, rfl, hσ⟩
    rw [ExceptT.run, Lowering.declare, get_bind, hdecl]
    rfl

/-! ## Declarations and conditions -/

section

variable {O : Outside} {ρ : Realm} {x : Walk} {Γ : Signatures}

theorem lowers_condition (hΓ : SignaturesSound O Γ) {c : Expr}
    (hσ : ScopesSound O x.site.func x.scopes) :
    Lowers O ρ (condition Γ c) x fun bit x' => x'.site.Has O bit .i1 :=
  Lowers.bind (lowers_expr hΓ c hσ) fun _ _ _ ha => Lowers.truthOf ha

/-- A condition of which nothing more is known. -/
theorem lowers_test (hΓ : SignaturesSound O Γ) {c : Expr}
    (hσ : ScopesSound O x.site.func x.scopes) :
    Lowers O ρ (condition Γ c) x fun bit x' => x'.site.Has O bit .i1 ∧ True :=
  (lowers_condition hΓ hσ).weaken fun _ _ _ h => ⟨h, trivial⟩

/-- Room has been made for a variable, its first value is kept there, and it is declared. -/
inductive Walk.Reserves (sym : Symbol DataType Value) (v : Value) (x x' : Walk) : Prop
  /-- the state when there is room -/
  | mk {x₁ : Walk} {u : Value} (reg : sym.handle.reg? = some x.site.func.regs)
      (slot : x'.site.func.IsSlot x.site.func.regs) (stays : x.site.draft.Stays x₁.site.draft)
      (le : x.site.func.Le x₁.site.func) (le₁ : x₁.site.func.Le x'.site.func)
      (puts : x₁.site.draft.Puts (.store v sym.handle) u x'.site.draft)
      (scopes₁ : x₁.scopes = x.scopes)
      (scopes : x'.scopes = x.scopes.setTop (x.scopes.top ++ [sym]))

/-- Room for a variable, its first value, and its name. -/
theorem walks_newVar {n : Name} {t : DataType} {isConst : Bool} {v : Value}
    (hx : x.site.Ready ρ) (hρ : ρ.declares) (hvoid : t ≠ .void)
    (hv : x.site.Has O v (Ty.ofData t)) :
    Walks O ρ (do
      let addr ← emit (Emit.alloca t n.text)
      emit (Emit.store v addr)
      declare n t addr isConst) x fun _ x' => x'.site.Ready ρ ∧
        ∃ addr, x.Reserves ⟨n.text, t, addr, isConst⟩ v x' := by
  refine Walks.bind (Lowers.emit (Emits.alloca n.text hvoid) hx)
    fun addr x₁ _ ⟨h₁, haddr, hreg, hslot, hstays⟩ => ?_
  refine Walks.bind (Lowers.emit (Emits.store_puts (Ty.ofData_ne_void hvoid) (h₁.site.has hv) haddr)
    h₁.site.ready) fun _ x₂ _ ⟨h₂, u, hputs⟩ => ?_
  have hslot₂ := hslot.mono h₂.site.le
  have hsym : SymbolSound O x₂.site.func ⟨n.text, t, addr, isConst⟩ := by
    refine ⟨hvoid, haddr.type, (h₂.site.has haddr).known, fun r hr => ?_⟩
    obtain rfl := Option.some.inj (hreg.symm.trans hr)
    exact hslot₂
  refine (walks_declare h₂.site.ready hρ hsym).weaken fun _ x₃ _ ⟨hsite, hscopes⟩ => ?_
  rw [h₂.scopes, h₁.scopes] at hscopes
  rw [← hsite] at hslot₂ hputs
  refine ⟨hsite ▸ h₂.site.ready, addr,
    .mk hreg hslot₂ hstays h₁.site.le ?_ hputs h₁.scopes hscopes⟩
  rw [hsite]
  exact h₂.site.le

theorem walks_varDecl (hΓ : SignaturesSound O Γ) {d : VarDecl} (hx : x.site.Ready ρ)
    (hρ : ρ.declares) (hσ : ScopesSound O x.site.func x.scopes) :
    Walks O ρ (varDecl Γ d) x fun _ x' => x'.site.Ready ρ := by
  unfold varDecl
  refine Walks.check hx fun hvoid => Walks.check hx fun _ => ?_
  dsimp only
  split
  next => exact (walks_newVar hx hρ hvoid (.zero _ O _)).weaken fun _ _ _ h => h.1
  next e _ =>
    refine Walks.bind (lowers_expr hΓ e hσ hx) fun a x₁ _ ⟨h₁, ha⟩ => ?_
    refine Walks.bind (Lowers.initialValue ha h₁.site.ready) fun v x₂ _ ⟨h₂, hv⟩ => ?_
    exact (walks_newVar h₂.site.ready hρ hvoid hv.2).weaken fun _ _ _ h => h.1

theorem walks_forInit (hΓ : SignaturesSound O Γ) {init : ForInit} (hx : x.site.Ready ρ)
    (hρ : ρ.declares) (hσ : ScopesSound O x.site.func x.scopes) :
    Walks O ρ (forInit Γ init) x fun _ x' => x'.site.Ready ρ := by
  cases init with
  | nothing => exact Walks.pure hx
  | var d => exact walks_varDecl hΓ hx hρ hσ
  | expr e =>
    exact Walks.discard ((lowers_expr hΓ e hσ hx).weaken fun _ x' _ h => h.1.site.ready)

end

/-! ## Surroundings of a statement -/

/-- From everywhere in a loop control can go where `break` and `continue` go. -/
def LoopSound (ρ : Realm) (s : Site) (loop : Option Loop) : Prop :=
  ∀ lp, loop = some lp → ∀ k, k = lp.leave ∨ k = lp.next →
    ρ.goals k ∧ k.index < ρ.first ∧ s.Landing k

/-- What a statement of a function with a result relies on. -/
structure Walk.Within (O : Outside) (ρ : Realm) (want : DataType) (loop : Option Loop)
    (x : Walk) : Prop where
  /-- what is there is in good shape -/
  sane : x.site.Sane ρ
  /-- variables may be declared -/
  declares : ρ.declares
  /-- the variables in scope have room -/
  scopes : ScopesSound O x.site.func x.scopes
  /-- the loop around can be left -/
  loop : LoopSound ρ x.site loop
  /-- the function yields what is wanted -/
  result : x.site.func.result = Ty.ofData want

/-- A control structure on its way, with its plan. -/
structure Walk.Stage (O : Outside) (ρ : Realm) (want : DataType) (loop : Option Loop)
    (past coming : List Label) (x : Walk) : Prop extends x.Within O ρ want loop where
  /-- the blocks of the control structure -/
  plan : x.site.Plan ρ past coming

section

variable {α : Type} {O : Outside} {ρ : Realm} {want : DataType} {loop : Option Loop}
  {past coming : List Label} {x x' : Walk} {Γ : Signatures} {Q : α → Walk → Prop}

theorem Walk.Within.goes (h : x.Within O ρ want loop) (hgoes : x.Goes O ρ x') :
    x'.Within O ρ want loop where
  sane := hgoes.sane
  declares := h.declares
  scopes := hgoes.scopesSound h.scopes
  loop := fun lp hlp k hk => by
    obtain ⟨hgoal, hold, hland⟩ := h.loop lp hlp k hk
    exact ⟨hgoal, hold, hland.of_writes h.sane.tidy hgoes.writes hold⟩
  result := hgoes.le.result.trans h.result

theorem Walk.Within.writes {s' : Site} (h : x.Within O ρ want loop) (hw : Writes O ρ x.site s')
    (hs : s'.Sane ρ) : (x.withSite s').Within O ρ want loop :=
  h.goes ⟨hw, hs, .refl _ _⟩

theorem Walk.Within.enter (h : x.Within O ρ want loop) : x.enter.Within O ρ want loop :=
  ⟨h.sane, h.declares, h.scopes.enter, h.loop, h.result⟩

/-- In a part of the realm, a statement in a scope of its own. -/
theorem Walk.Within.inner (h : x.Within O ρ want loop) (hx : x.site.Ready ρ) :
    x.enter.Within O (x.site.realmWith ρ.goals True) want loop where
  sane := (hx.innerWith _ _).toSane
  declares := trivial
  scopes := h.scopes.enter
  loop := fun lp hlp k hk => by
    obtain ⟨hgoal, hold, hland⟩ := h.loop lp hlp k hk
    exact ⟨hgoal, Nat.lt_of_lt_of_le hold h.sane.first, hland⟩
  result := h.result

/-- The body of a loop, in a scope of its own. -/
theorem Walk.Within.round {leave next : Label} (h : x.Within O ρ want loop)
    (hx : x.site.Ready ρ) (hleave : x.site.Landing leave) (hnext : x.site.Landing next) :
    x.enter.Within O (x.site.realmWith (fun k => k = leave ∨ k = next) True) want
      (some { leave, next }) where
  sane := (hx.innerWith _ _).toSane
  declares := trivial
  scopes := h.scopes.enter
  loop := by
    rintro _ ⟨⟩ k (rfl | rfl)
    · exact ⟨.inl rfl, hleave.lt_labels h.sane.tidy, hleave⟩
    · exact ⟨.inr rfl, hnext.lt_labels h.sane.tidy, hnext⟩
  result := h.result

/-- A control structure starts without a plan. -/
theorem Walk.Within.stage (h : x.Within O ρ want loop) : x.Stage O ρ want loop [] [] :=
  ⟨h, .nil _ _⟩

/-! ## Steps of a control structure -/

/-- Code has been written in the realm, and nothing has been declared. -/
structure Walk.Codes (O : Outside) (ρ : Realm) (x x' : Walk) : Prop where
  /-- by steps -/
  writes : Writes O ρ x.site x'.site
  /-- the same names are in scope -/
  scopes : x'.scopes = x.scopes

/-- The block at the point has been ended, and the walk goes on at the start of another one. -/
structure Walk.Branches (O : Outside) (ρ : Realm) (term : Term) (k : Label)
    (x x' : Walk) : Prop extends x.Codes O ρ x' where
  /-- the end of the block -/
  closes : x.site.draft.Closes term x'.site.draft
  /-- the start of the other one -/
  starts : x'.site.draft.Starts k

/-- If control comes to the point, it goes to a block, and the walk goes on at the start of another
one or nowhere. -/
structure Walk.Merges (O : Outside) (ρ : Realm) (j : Label) (here : Bool) (p : Option Label)
    (x x' : Walk) : Prop extends x.Codes O ρ x' where
  /-- the end of the block at the point, if there is one -/
  closes : ∀ l, x.site.point = some l → here = true ∧ x.site.draft.Closes (.br j) x'.site.draft
  /-- the start of the other one -/
  starts : ∀ k, p = some k → x'.site.draft.Starts k

/-- A block is made, to which the control structure comes after all others. -/
theorem walks_newBlock {rest : Label → Lower α} {hint : String}
    (hx : x.Stage O ρ want loop past coming) (hready : x.site.Ready ρ)
    (h : ∀ k x', x'.Stage O ρ want loop past (coming ++ [k]) → x.site.Keeps O ρ x'.site →
      x'.scopes = x.scopes ∧ x.site.draft.Stays x'.site.draft → Walks O ρ (rest k) x' Q) :
    Walks O ρ (emit (Emit.newBlock hint) >>= rest) x Q := by
  have hlead : x.site.Keeps O ρ (x.site.withBlock hint ∅) := hready.withBlock hint ∅
  refine Walks.bind (Walks.emit_run (Emit.newBlock_run x.site hint ∅) hlead.steps
    hlead.ready.toSane (Q := fun k x' => k = (x.site.func.addBlock hint).1 ∧
      x' = x.withSite (x.site.withBlock hint ∅)) ⟨rfl, rfl⟩) ?_
  rintro _ _ - ⟨rfl, rfl⟩
  exact h _ _ ⟨hx.writes hlead.steps hlead.ready.toSane, hx.plan.withBlock hx.sane hint⟩ hlead
    ⟨rfl, rfl, fun l b _ hb => ⟨b, Func.at_addBlock_old hb, rfl⟩⟩

/-- A branch, and the control structure comes to its next block. -/
theorem walks_close {rest : Unit → Lower α} {term : Term} {k : Label}
    (hx : x.Stage O ρ want loop past (k :: coming)) (hready : x.site.Ready ρ)
    (hty : term.WellTyped x.site.func.result) (hv : ∀ v ∈ term.operands, ∃ σ, x.site.Has O v σ)
    (htargets : ∀ j ∈ term.successors, j ∈ past ++ k :: coming)
    (h : ∀ x', x'.Stage O ρ want loop (k :: past) coming → x'.site.Ready ρ →
      x.Branches O ρ term k x' → Walks O ρ (rest ()) x' Q) :
    Walks O ρ (emit (Emit.terminate term) >>= fun _ => emit (Emit.setPoint (some k)) >>= rest)
      x Q := by
  obtain ⟨l, hl⟩ := hready.there
  obtain ⟨hown, hk, hopen⟩ := hx.plan.next
  obtain ⟨⟨b, hb, -⟩, -⟩ := hx.sane.point l hl
  have hne : k ≠ l := fun heq => hk (heq ▸ hl)
  refine Walks.goOn_bind hx.sane hl hty hv (fun j hj => hx.plan.target (htargets j hj)) ?_
    fun s' heq hw hs => ?_
  · rintro _ ⟨⟩
    exact ⟨hne, hown, hopen⟩
  · have hpoint : s'.point = some k := by rw [heq]; rfl
    refine h _ ⟨hx.writes hw hs, ?_⟩ ⟨hs, k, hpoint⟩ ⟨⟨hw, rfl⟩, ?_, ?_⟩
    · rw [heq]
      exact (hx.plan.close hx.sane hl term).moved
    · exact heq ▸ Site.closes_goOn hl hb term (some k)
    · exact hx.plan.starts hpoint fun c hc => heq ▸ (Func.at_close_ne hne).2 hc

theorem walks_jump {rest : Unit → Lower α} {term : Term} {k : Label}
    (hx : x.Stage O ρ want loop past (k :: coming)) (hready : x.site.Ready ρ)
    (hty : term.WellTyped x.site.func.result) (hv : ∀ v ∈ term.operands, ∃ σ, x.site.Has O v σ)
    (htargets : ∀ j ∈ term.successors, j ∈ past ++ k :: coming)
    (h : ∀ x', x'.Stage O ρ want loop (k :: past) coming → x'.site.Ready ρ →
      x.Branches O ρ term k x' → Walks O ρ (rest ()) x' Q) :
    Walks O ρ (emit (Emit.terminate term >>= fun _ => Emit.setPoint (some k)) >>= rest) x Q := by
  rw [emit_bind]
  exact Walks.assoc (walks_close hx hready hty hv htargets h)

theorem walks_jump_last {term : Term} {k : Label}
    (hx : x.Stage O ρ want loop past (k :: coming)) (hready : x.site.Ready ρ)
    (hty : term.WellTyped x.site.func.result) (hv : ∀ v ∈ term.operands, ∃ σ, x.site.Has O v σ)
    (htargets : ∀ j ∈ term.successors, j ∈ past ++ k :: coming) :
    Walks O ρ (emit (Emit.terminate term >>= fun _ => Emit.setPoint (some k))) x
      fun _ x' => x.Branches O ρ term k x' := by
  have h : Walks O ρ (emit (Emit.terminate term >>= fun _ => Emit.setPoint (some k)) >>=
      fun _ => pure ()) x fun _ x' => x.Branches O ρ term k x' :=
    walks_jump hx hready hty hv htargets fun x' hx' _ hbranch => Walks.pure hbranch
  simpa only [bind_pure_unit] using h

/-- The point goes on to the next block of a control structure, or nowhere, after a branch to one of
its blocks if control comes to the point. -/
theorem walks_merge {rest : Bool → Lower α} {p : Bool → Option Label} {j k : Label}
    (hx : x.Stage O ρ want loop past (k :: coming)) (hj : j ∈ past ++ k :: coming)
    (hp : ∀ here, p here = some k ∨ p here = none)
    (h : ∀ here x', x'.Within O ρ want loop →
      (p here = some k → x'.site.Plan ρ (k :: past) coming ∧ x'.site.Ready ρ) →
      x.Merges O ρ j here (p here) x' → Walks O ρ (rest here) x' Q) :
    Walks O ρ (brIfReachable j >>= fun here => emit (Emit.setPoint (p here)) >>= fun _ =>
      rest here) x Q := by
  obtain ⟨hown, hk, hopen⟩ := hx.plan.next
  -- if the point goes on at all, it is to the next block of the structure
  have hmove : ∀ here m, p here = some m → m = k := by
    intro here m hm
    rcases hp here with heq | heq
    · exact (Option.some.inj (heq.symm.trans hm)).symm
    · exact absurd (heq.symm.trans hm) (by simp)
  rcases hl : x.site.point with _ | l
  · -- control does not come here
    have hrun : (do
        let here ← Emit.isReachable
        if here then Emit.br j
        return here : Emit Bool) x.site.draft = .ok (false, x.site.draft) := by
      have hpoint : x.site.draft.point = none := hl
      rw [Emit.bind_run (Emit.isReachable_run _), hpoint]
      rfl
    have hw : Writes O ρ x.site (x.site.moved (p false)) := by
      refine .single (.move _ fun m hm => ?_)
      obtain rfl := hmove false m hm
      exact ⟨hown, hopen⟩
    have hs : (x.site.moved (p false)).Sane ρ := hx.sane.of_writes hw fun m hm => by
      obtain rfl := hmove false m hm
      exact ⟨hopen, hown⟩
    refine Walks.emit_emit hrun rfl hw hs (h false _ (hx.writes hw hs) (fun heq => ?_)
      ⟨⟨hw, rfl⟩, fun m hm => ?_, fun m hm => ?_⟩)
    · refine ⟨?_, hs, k, heq⟩
      rw [heq]
      exact hx.plan.moved
    · rw [hl] at hm
      cases hm
    · obtain rfl := hmove false m hm
      exact hx.plan.starts hm fun _ hb => hb
  -- control comes here, and the block of the point is ended with the branch
  · obtain ⟨⟨b, hb, ho⟩, -⟩ := hx.sane.point l hl
    have hrun : (do
        let here ← Emit.isReachable
        if here then Emit.br j
        return here : Emit Bool) x.site.draft =
          .ok (true, (x.site.withFunc (x.site.func.close l (.br j))).draft) := by
      have hpoint : x.site.draft.point = some l := hl
      rw [Emit.bind_run (Emit.isReachable_run _), hpoint]
      exact Emit.bind_run (Emit.terminate_run hx.sane.tidy hl hb ho)
    have hstep : ∀ m, p true = some m →
        m ≠ l ∧ ρ.Owns m ∧ ∃ b, x.site.func.At m b ∧ b.term = none := by
      intro m hm
      obtain rfl := hmove true m hm
      exact ⟨fun heq => hk (heq ▸ hl), hown, hopen⟩
    have htarget : ∀ m ∈ (Term.br j).successors, x.site.Target ρ m := by
      intro m hm
      obtain rfl := List.mem_singleton.1 hm
      exact hx.plan.target hj
    obtain ⟨hw, hs⟩ : Writes O ρ x.site (x.site.goOn l (.br j) (p true)) ∧
        (x.site.goOn l (.br j) (p true)).Sane ρ :=
      hx.sane.goOn hl trivial (fun _ h => by cases h) htarget hstep
    refine Walks.emit_emit hrun rfl hw hs (h true _ (hx.writes hw hs) (fun heq => ?_)
      ⟨⟨hw, rfl⟩, fun m hm => ⟨rfl, ?_⟩, fun m hm => ?_⟩)
    · refine ⟨?_, hs, k, heq⟩
      rw [heq]
      exact (hx.plan.close hx.sane hl (.br j)).moved
    · exact Site.closes_goOn hl hb (.br j) (p true)
    · obtain rfl := hmove true m hm
      exact hx.plan.starts hm fun c hc => (Func.at_close_ne (hstep m hm).1).2 hc

theorem walks_merge_last {p : Bool → Option Label} {j k : Label}
    (hx : x.Stage O ρ want loop past (k :: coming)) (hj : j ∈ past ++ k :: coming)
    (hp : ∀ here, p here = some k ∨ p here = none) :
    Walks O ρ (brIfReachable j >>= fun here => emit (Emit.setPoint (p here))) x
      fun _ x' => ∃ here, x.Merges O ρ j here (p here) x' := by
  have h : Walks O ρ (brIfReachable j >>= fun here => emit (Emit.setPoint (p here)) >>= fun _ =>
      pure ()) x fun _ x' => ∃ here, x.Merges O ρ j here (p here) x' :=
    walks_merge hx hj hp fun here x' hx' _ hmerge => Walks.pure ⟨here, hmerge⟩
  simpa only [bind_pure_unit] using h

/-- The point goes on to the next block of a control structure. -/
theorem walks_mergeTo {rest : Unit → Lower α} {j k : Label}
    (hx : x.Stage O ρ want loop past (k :: coming)) (hj : j ∈ past ++ k :: coming)
    (h : ∀ x' here, x'.Stage O ρ want loop (k :: past) coming → x'.site.Ready ρ →
      x.Merges O ρ j here (some k) x' → Walks O ρ (rest ()) x' Q) :
    Walks O ρ (discard (brIfReachable j) >>= fun _ => emit (Emit.setPoint (some k)) >>= rest)
      x Q := by
  rw [discard_bind]
  refine walks_merge hx hj (fun _ => .inl rfl) fun here x' hx' hplan hmerge => ?_
  exact h x' here ⟨hx', (hplan rfl).1⟩ (hplan rfl).2 hmerge

theorem walks_mergeTo_last {j k : Label} (hx : x.Stage O ρ want loop past (k :: coming))
    (hj : j ∈ past ++ k :: coming) :
    Walks O ρ (discard (brIfReachable j) >>= fun _ => emit (Emit.setPoint (some k))) x
      fun _ x' => ∃ here, x.Merges O ρ j here (some k) x' := by
  rw [discard_bind]
  exact walks_merge_last hx hj fun _ => .inl rfl

/-- What is nested in a control structure, in a scope of its own. -/
theorem walks_nested {goals : Label → Prop} {act : Lower Unit} {rest : Unit → Lower α}
    {P : Unit → Walk → Prop} (hx : x.Stage O ρ want loop past coming) (hready : x.site.Ready ρ)
    (hgoals : ∀ l, goals l → ρ.Sees l)
    (hact : Walks O (x.site.realmWith goals True) act x.enter P)
    (h : ∀ y, (x.exit y).Stage O ρ want loop past coming → x.Codes O ρ (x.exit y) →
      x.enter.Goes O (x.site.realmWith goals True) y → P () y → Walks O ρ (rest ()) (x.exit y) Q) :
    Walks O ρ (inScope act >>= rest) x Q := by
  have hinner := Walks.within (hready.innerWith goals True).toSane
    (hready.realmWith_le hgoals fun _ => hx.declares) (walks_inScope hact)
  refine Walks.bind hinner fun _ x' hgoes ⟨hgoes', y, hy, hP, heq⟩ => ?_
  subst heq
  refine h y ⟨hx.goes hgoes, ?_⟩ ⟨hgoes.writes, rfl⟩ hy hP
  exact hx.plan.nested hx.sane.tidy hgoes'.writes hgoes'.sane

/-- An expression in a control structure. -/
theorem walks_lowers {β : Type} {act : Lower β} {P : β → Walk → Prop} {rest : β → Lower α}
    (hx : x.Stage O ρ want loop past coming) (hready : x.site.Ready ρ)
    (hact : Lowers O x.site.realm act x P)
    (h : ∀ b x', x'.Stage O ρ want loop past coming → x.Leads O ρ x' → P b x' →
      Walks O ρ (rest b) x' Q) :
    Walks O ρ (act >>= rest) x Q := by
  have hinner := Walks.within hready.inner.toSane hready.realm_le (hact hready.inner)
  refine Walks.bind hinner fun b x' hgoes ⟨hgoes', hlead, hb⟩ => ?_
  have hlead' : x.Leads O ρ x' := ⟨hlead.site.widen hready.realm_le, hlead.scopes⟩
  exact h b x' ⟨hx.goes hgoes, hx.plan.nested hx.sane.tidy hgoes'.writes hgoes'.sane⟩ hlead' hb

/-- The test of a loop has been written, and the walk goes on at the start of a block. -/
def Walk.Tests (O : Outside) (ρ : Realm) (P : Expr → Value → Walk → Prop) (c : Option Expr)
    (round leave k : Label) (x x' : Walk) : Prop :=
  match c with
  | none => x.Branches O ρ (.br round) k x'
  | some e => ∃ bit x₁, x.Leads O ρ x₁ ∧ P e bit x₁ ∧
    x₁.Branches O ρ (.condBr bit round leave) k x'

/-- The test of a loop, and the control structure comes to its next block. -/
theorem walks_loopTest {P : Expr → Value → Walk → Prop} {c : Option Expr} {round leave k : Label}
    {rest : Unit → Lower α} (hx : x.Stage O ρ want loop past (k :: coming))
    (hready : x.site.Ready ρ) (htest : ∀ e, c = some e → Lowers O x.site.realm (condition Γ e) x
      fun bit x' => x'.site.Has O bit .i1 ∧ P e bit x')
    (hround : round ∈ past ++ k :: coming) (hleave : leave ∈ past ++ k :: coming)
    (h : ∀ x', x'.Stage O ρ want loop (k :: past) coming → x'.site.Ready ρ →
      x.Tests O ρ P c round leave k x' → Walks O ρ (rest ()) x' Q) :
    Walks O ρ (loopTest Γ c round leave >>= fun _ => emit (Emit.setPoint (some k)) >>= rest)
      x Q := by
  cases c with
  | none =>
    refine walks_close hx hready trivial (fun _ h => by cases h) (fun j hj => ?_) h
    obtain rfl := List.mem_singleton.1 hj
    exact hround
  | some c =>
    refine Walks.assoc (walks_lowers hx hready (htest c rfl)
      fun bit x₁ hx₁ hlead ⟨hbit, hP⟩ => ?_)
    refine walks_close hx₁ hlead.site.ready hbit.type hbit.one (fun j hj => ?_)
      fun x' hx' hready' hbranch => h x' hx' hready' ⟨bit, x₁, hlead, hP, hbranch⟩
    rcases List.mem_cons.1 hj with rfl | hj
    · exact hround
    · obtain rfl := List.mem_singleton.1 hj
      exact hleave

theorem walks_loopTest_last {P : Expr → Value → Walk → Prop} {c : Option Expr}
    {round leave k : Label} (hx : x.Stage O ρ want loop past (k :: coming))
    (hready : x.site.Ready ρ) (htest : ∀ e, c = some e → Lowers O x.site.realm (condition Γ e) x
      fun bit x' => x'.site.Has O bit .i1 ∧ P e bit x')
    (hround : round ∈ past ++ k :: coming) (hleave : leave ∈ past ++ k :: coming) :
    Walks O ρ (loopTest Γ c round leave >>= fun _ => emit (Emit.setPoint (some k))) x
      fun _ x' => x.Tests O ρ P c round leave k x' := by
  have h : Walks O ρ (loopTest Γ c round leave >>= fun _ => emit (Emit.setPoint (some k)) >>=
      fun _ => pure ()) x fun _ x' => x.Tests O ρ P c round leave k x' :=
    walks_loopTest hx hready htest hround hleave fun x' hx' _ htests => Walks.pure htests
  simpa only [bind_pure_unit] using h

/-! ## Statements that leave -/

/-- The end of a block from which no statement goes on. -/
theorem walks_leave {term : Term} (hx : x.Within O ρ want loop) (hready : x.site.Ready ρ)
    (hty : term.WellTyped x.site.func.result) (hv : ∀ v ∈ term.operands, ∃ σ, x.site.Has O v σ)
    (htargets : ∀ j ∈ term.successors, x.site.Target ρ j) :
    Walks O ρ (emit (Emit.terminate term) >>= fun _ => emit (Emit.setPoint none)) x
      fun _ x' => x.Codes O ρ x' ∧ x.site.draft.Closes term x'.site.draft := by
  obtain ⟨l, hl⟩ := hready.there
  obtain ⟨⟨b, hb, -⟩, -⟩ := hx.sane.point l hl
  rw [← emit_bind]
  obtain ⟨hw, hs⟩ := hx.sane.goOn hl hty hv htargets (p := none) fun _ h => by cases h
  exact Walks.emit_run (Emit.goOn_run hx.sane hl term none) hw hs
    ⟨⟨hw, rfl⟩, Site.closes_goOn hl hb term none⟩

theorem walks_branchTo {pos : Pos} {token : Token} (hx : x.Within O ρ want loop)
    (hready : x.site.Ready ρ) :
    Walks O ρ (branchTo pos token loop) x fun _ x' => ∃ lp, loop = some lp ∧ x.Codes O ρ x' ∧
      x.site.draft.Closes (.br (if token = .keyword .break then lp.leave else lp.next))
        x'.site.draft := by
  unfold branchTo
  cases loop with
  | none => exact Walks.fail hready
  | some lp =>
    have htarget : ∀ k, k = lp.leave ∨ k = lp.next → x.site.Target ρ k := by
      intro k hk
      obtain ⟨hgoal, -, hland⟩ := hx.loop lp rfl k hk
      exact hland.target (.inr hgoal)
    simp only [Emit.br, decide_eq_true_eq]
    rw [emit_bind]
    refine Walks.weaken (walks_leave hx hready trivial (fun _ h => by cases h)
      fun k hk => htarget k ?_) fun _ x' _ h => ⟨lp, rfl, h⟩
    obtain rfl := List.mem_singleton.1 hk
    split
    · exact .inl rfl
    · exact .inr rfl

theorem walks_returnFrom (hΓ : SignaturesSound O Γ) {pos : Pos} {result : Option Expr}
    (hx : x.Within O ρ want loop) (hready : x.site.Ready ρ) :
    Walks O ρ (returnFrom Γ want pos result) x fun _ _ => True := by
  unfold returnFrom
  cases result with
  | none =>
    refine Walks.check hready fun hvoid => Walks.weaken (walks_leave hx hready ?_
      (fun _ h => by cases h) fun _ h => by cases h) fun _ _ _ _ => trivial
    rw [hx.result, not_not.1 hvoid]
    rfl
  | some e =>
    refine Walks.check hready fun hvoid => ?_
    refine Walks.bind (lowers_expr hΓ e hx.scopes hready) fun a x₁ _ ⟨h₁, ha⟩ => ?_
    refine Walks.bind (Lowers.valueAs ha h₁.site.ready) fun v x₂ _ ⟨h₂, hv⟩ => ?_
    have hlead := h₁.trans h₂
    have hx₂ := hx.goes hlead.goes
    refine Walks.weaken (walks_leave hx₂ h₂.site.ready ?_ hv.2.one fun _ h => by cases h)
      fun _ _ _ _ => trivial
    rw [hx₂.result]
    exact ⟨Ty.ofData_ne_void hvoid, hv.2.type⟩

end

/-! ## Statements -/

section

variable {O : Outside} {Γ : Signatures} {want : DataType}

/-- Statements are walked over only where control comes to. -/
theorem Walks.ifReachable {O : Outside} {ρ : Realm} {x : Walk} {act : Lower Unit}
    {Q : Unit → Walk → Prop} (hx : x.site.Sane ρ) (hhere : x.site.Ready ρ → Walks O ρ act x Q)
    (hgone : x.site.point = none → Q () x) :
    Walks O ρ (do if ← emit Emit.isReachable then act) x Q := by
  have hrun : Emit.isReachable x.site.draft = .ok (x.site.point.isSome, x.site.draft) := rfl
  refine Walks.bind (Walks.emit_run hrun .refl hx
    (Q := fun here x' => here = x.site.point.isSome ∧ x = x') ⟨rfl, rfl⟩) ?_
  rintro _ _ - ⟨rfl, rfl⟩
  rcases hl : x.site.point with _ | l
  · exact Walks.pure (hgone hl)
  · exact hhere ⟨hx, l, hl⟩

mutual

theorem walks_stmt (hΓ : SignaturesSound O Γ) : ∀ (st : Stmt) {ρ : Realm} {x : Walk}
    {loop : Option Loop}, x.Within O ρ want loop → x.site.Ready ρ →
    Walks O ρ (stmt Γ want loop st) x fun _ _ => True
  | .empty _, ρ, x, loop, hx, hready => by
    unfold stmt
    exact Walks.pure trivial
  | .expr e, ρ, x, loop, hx, hready => by
    unfold stmt
    exact Walks.discard ((lowers_expr hΓ e hx.scopes hready).weaken fun _ _ _ _ => trivial)
  | .var d, ρ, x, loop, hx, hready => by
    unfold stmt
    exact (walks_varDecl hΓ hready hx.declares hx.scopes).weaken fun _ _ _ _ => trivial
  | .block _ body, ρ, x, loop, hx, hready => by
    unfold stmt
    exact (walks_inScope (walks_stmts hΓ body hx.enter)).weaken fun _ _ _ _ => trivial
  | .ifThen _ c yes, ρ, x, loop, hx, hready => by
    unfold stmt
    refine walks_lowers hx.stage hready (lowers_condition hΓ hx.scopes) fun bit x₁ hx₁ h₁ hbit => ?_
    refine walks_newBlock hx₁ h₁.site.ready fun whenTrue x₂ hx₂ h₂ _ => ?_
    refine walks_newBlock hx₂ h₂.ready fun done x₃ hx₃ h₃ _ => ?_
    replace hbit := (h₂.trans h₃).has hbit
    refine walks_jump hx₃ h₃.ready hbit.type hbit.one (by simp [Term.successors])
      fun x₄ hx₄ hready₄ _ => ?_
    refine walks_nested hx₄ hready₄ (fun _ hl => .inr hl) (walks_stmt hΓ yes
      (hx₄.inner hready₄) (hready₄.innerWith _ _)) fun y hx₅ _ _ _ => ?_
    exact (walks_mergeTo_last hx₅ (by simp)).weaken fun _ _ _ _ => trivial
  | .ifElse _ c yes no, ρ, x, loop, hx, hready => by
    unfold stmt
    refine walks_lowers hx.stage hready (lowers_condition hΓ hx.scopes) fun bit x₁ hx₁ h₁ hbit => ?_
    refine walks_newBlock hx₁ h₁.site.ready fun whenTrue x₂ hx₂ h₂ _ => ?_
    refine walks_newBlock hx₂ h₂.ready fun whenFalse x₃ hx₃ h₃ _ => ?_
    refine walks_newBlock hx₃ h₃.ready fun done x₄ hx₄ h₄ _ => ?_
    replace hbit := ((h₂.trans h₃).trans h₄).has hbit
    refine walks_jump hx₄ h₄.ready hbit.type hbit.one (by simp [Term.successors])
      fun x₅ hx₅ hready₅ _ => ?_
    refine walks_nested hx₅ hready₅ (fun _ hl => .inr hl) (walks_stmt hΓ yes
      (hx₅.inner hready₅) (hready₅.innerWith _ _)) fun y hx₆ _ _ _ => ?_
    -- the first branch may have left, then only the second one comes to the end
    refine walks_merge hx₆ (by simp) (fun _ => .inl rfl) fun merged x₇ hx₇ hplan₇ _ => ?_
    obtain ⟨hplan₇, hready₇⟩ := hplan₇ rfl
    refine walks_nested ⟨hx₇, hplan₇⟩ hready₇ (fun _ hl => .inr hl) (walks_stmt hΓ no
      (hx₇.inner hready₇) (hready₇.innerWith _ _)) fun y hx₈ _ _ _ => ?_
    refine (walks_merge_last hx₈ (by simp) fun merged' => ?_).weaken fun _ _ _ _ => trivial
    split
    · exact .inl rfl
    · exact .inr rfl
  | .forLoop _ init c post body, ρ, x, loop, hx, hready => by
    unfold stmt
    refine (walks_inScope (P := fun _ _ => True) ?_).weaken fun _ _ _ _ => trivial
    refine Walks.bind (walks_forInit hΓ hready hx.declares hx.enter.scopes)
      fun _ x₁ hgoes₁ hready₁ => ?_
    refine walks_newBlock (hx.enter.goes hgoes₁).stage hready₁ fun head x₂ hx₂ h₂ _ => ?_
    refine walks_newBlock hx₂ h₂.ready fun round x₃ hx₃ h₃ _ => ?_
    refine walks_newBlock hx₃ h₃.ready fun next x₄ hx₄ h₄ _ => ?_
    refine walks_newBlock hx₄ h₄.ready fun leave x₅ hx₅ h₅ _ => ?_
    refine walks_jump hx₅ h₅.ready trivial (fun _ h => by cases h)
      (by simp [Term.successors]) fun x₆ hx₆ hready₆ _ => ?_
    refine walks_loopTest hx₆ hready₆ (fun _ _ => lowers_test hΓ hx₆.scopes) (by simp) (by simp)
      fun x₇ hx₇ hready₇ _ => ?_
    refine walks_nested hx₇ hready₇ ?_ (walks_stmt hΓ body
      (hx₇.round hready₇ (hx₇.plan.landing (k := leave) (by simp))
        (hx₇.plan.landing (k := next) (by simp)))
      (hready₇.innerWith _ _)) fun y hx₈ _ _ _ => ?_
    -- what the body may jump to are the blocks opened for this loop
    · rintro _ (rfl | rfl) <;> exact .inl (hx₇.plan.isNew _ (by simp))
    refine walks_mergeTo hx₈ (by simp) fun x₉ _ hx₉ hready₉ _ => ?_
    -- the step of the loop goes back to its head
    have hback : ∀ x', x'.Stage O ρ want loop [next, round, head] [leave] → x'.site.Ready ρ →
        Walks O ρ (emit (Emit.br head >>= fun _ => Emit.setPoint (some leave))) x'
          fun _ _ => True := fun x' hx' hready' =>
      Walks.weaken (walks_jump_last hx' hready' trivial (fun _ h => by cases h)
        (by simp [Term.successors])) fun _ _ _ _ => trivial
    cases post with
    | none => exact hback x₉ hx₉ hready₉
    | some post =>
      dsimp only
      rw [discard_bind]
      exact walks_lowers hx₉ hready₉ (lowers_expr hΓ post hx₉.scopes) fun _ x' hx' h' _ =>
        hback x' hx' h'.site.ready
  | .whileLoop _ c body, ρ, x, loop, hx, hready => by
    unfold stmt
    refine walks_newBlock hx.stage hready fun head x₁ hx₁ h₁ _ => ?_
    refine walks_newBlock hx₁ h₁.ready fun round x₂ hx₂ h₂ _ => ?_
    refine walks_newBlock hx₂ h₂.ready fun leave x₃ hx₃ h₃ _ => ?_
    refine walks_jump hx₃ h₃.ready trivial (fun _ h => by cases h)
      (by simp [Term.successors]) fun x₄ hx₄ hready₄ _ => ?_
    refine walks_loopTest hx₄ hready₄ (fun _ _ => lowers_test hΓ hx₄.scopes) (by simp) (by simp)
      fun x₅ hx₅ hready₅ _ => ?_
    refine walks_nested hx₅ hready₅ ?_ (walks_stmt hΓ body
      (hx₅.round hready₅ (hx₅.plan.landing (k := leave) (by simp))
        (hx₅.plan.landing (k := head) (by simp)))
      (hready₅.innerWith _ _)) fun y hx₆ _ _ _ => ?_
    · rintro _ (rfl | rfl) <;> exact .inl (hx₅.plan.isNew _ (by simp))
    exact (walks_mergeTo_last hx₆ (by simp)).weaken fun _ _ _ _ => trivial
  | .doLoop _ body c, ρ, x, loop, hx, hready => by
    unfold stmt
    refine walks_newBlock hx.stage hready fun round x₁ hx₁ h₁ _ => ?_
    refine walks_newBlock hx₁ h₁.ready fun test x₂ hx₂ h₂ _ => ?_
    refine walks_newBlock hx₂ h₂.ready fun leave x₃ hx₃ h₃ _ => ?_
    refine walks_jump hx₃ h₃.ready trivial (fun _ h => by cases h)
      (by simp [Term.successors]) fun x₄ hx₄ hready₄ _ => ?_
    refine walks_nested hx₄ hready₄ ?_ (walks_stmt hΓ body
      (hx₄.round hready₄ (hx₄.plan.landing (k := leave) (by simp))
        (hx₄.plan.landing (k := test) (by simp)))
      (hready₄.innerWith _ _)) fun y hx₅ _ _ _ => ?_
    · rintro _ (rfl | rfl) <;> exact .inl (hx₄.plan.isNew _ (by simp))
    refine walks_mergeTo hx₅ (by simp) fun x₆ _ hx₆ hready₆ _ => ?_
    exact (walks_loopTest_last hx₆ hready₆ (fun _ _ => lowers_test hΓ hx₆.scopes) (by simp)
      (by simp)).weaken fun _ _ _ _ => trivial
  | .branch pos token, ρ, x, loop, hx, hready => by
    unfold stmt
    exact (walks_branchTo hx hready).weaken fun _ _ _ _ => trivial
  | .ret pos result, ρ, x, loop, hx, hready => by
    unfold stmt
    exact walks_returnFrom hΓ hx hready

theorem walks_stmts (hΓ : SignaturesSound O Γ) : ∀ (ss : List Stmt) {ρ : Realm} {x : Walk}
    {loop : Option Loop}, x.Within O ρ want loop →
    Walks O ρ (stmts Γ want loop ss) x fun _ _ => True
  | [], ρ, x, loop, hx => by
    unfold stmts
    exact Walks.pure trivial
  | st :: ss, ρ, x, loop, hx => by
    unfold stmts
    refine Walks.ifReachable hx.sane (fun hready => ?_) fun _ => trivial
    exact Walks.bind (walks_stmt hΓ st hx hready) fun _ x' hgoes _ =>
      walks_stmts hΓ ss (hx.goes hgoes)

end

end

end Shader.Lowering
