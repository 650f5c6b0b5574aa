import Shader.Proofs.Lowering.Prologue
import Shader.Proofs.Rooms.Statements

/-!
# Bodies keep to the rooms of variables

A function starts with the global variables in scope. The parameters that it only reads get room,
which is reserved and written before that of the variables that its statements declare; the blocks
that are open in the end return zero.
-/

namespace Shader.Lowering

open Ir

/-- What the body of a function can refer to. -/
def Setting.ofFunc (Γ : Signatures) (G : GlobalId → DataType → Bool → Prop) (f : FuncDecl) :
    Setting := ⟨⟨f.name.text, 0⟩, f.params, f.result, Γ, G⟩

/-- A name stands for a global variable. -/
def NamesGlobal (G : GlobalId → DataType → Bool → Prop) (sym : Symbol DataType Value) : Prop :=
  ∃ id, G id sym.type sym.isConst ∧ sym.handle = .global id (Ty.ofData sym.type)

theorem NamesGlobal.room {E : Setting} {k : Ledger} {f : Func} {sym : Symbol DataType Value}
    (h : NamesGlobal E.globals sym) : Room E k f sym.isConst sym.type sym.handle := by
  obtain ⟨id, hid, hhandle⟩ := h
  rw [hhandle]
  exact .global hid

section

variable {E : Setting} {D : Demand E} {k : Ledger}

/-! ## Parameters -/

/-- Room for the parameters that are only read, reserved from some number of instructions on. -/
structure Spilled (ps : List Param) (n : Nat) (slots : List Slot) (f : Func) : Prop where
  /-- each of them has its own, of its type -/
  types : slots.map Slot.type = (ps.filter fun p => p.storage ≠ .output).map Param.type
  /-- it may be written -/
  writable : ∀ s ∈ slots, s.isConst = false
  /-- it is in the code -/
  written : ∀ s ∈ slots, s.line ∈ f.code
  /-- in the order of the parameters -/
  ordered : slots.Pairwise fun s s' => s.reg < s'.reg
  /-- from a number on -/
  since : ∀ s ∈ slots, n ≤ s.reg

namespace Spilled

variable {ps : List Param} {p : Param} {n : Nat} {slots : List Slot} {s : Slot} {f f' : Func}

theorem nil : Spilled [] n [] f :=
  ⟨rfl, List.forall_mem_nil _, List.forall_mem_nil _, .nil, List.forall_mem_nil _⟩

theorem mono (h : Spilled ps n slots f) (hf : f.Grows f') : Spilled ps n slots f' :=
  ⟨h.types, h.writable, fun s hs => hf.code (h.written s hs), h.ordered, h.since⟩

/-- A parameter that is written to needs no room. -/
theorem output {m : Nat} (h : Spilled ps m slots f) (hout : p.storage = .output) (hn : n ≤ m) :
    Spilled (p :: ps) n slots f where
  types := by simpa [hout] using h.types
  writable := h.writable
  written := h.written
  ordered := h.ordered
  since := fun s hs => Nat.le_trans hn (h.since s hs)

/-- Other parameters get room one after another. -/
theorem cons {m : Nat} (h : Spilled ps m slots f) (hin : p.storage ≠ .output)
    (htype : s.type = p.type) (hconst : s.isConst = false) (hline : s.line ∈ f.code)
    (hn : n ≤ s.reg) (hm : s.reg < m) : Spilled (p :: ps) n (s :: slots) f where
  types := by simpa [hin, htype] using h.types
  writable := List.forall_mem_cons.2 ⟨hconst, h.writable⟩
  written := List.forall_mem_cons.2 ⟨hline, h.written⟩
  ordered := .cons (fun s' hs' => Nat.lt_of_lt_of_le hm (h.since s' hs')) h.ordered
  since := List.forall_mem_cons.2 ⟨hn, fun s' hs' =>
    Nat.le_trans hn (Nat.le_trans (Nat.le_of_lt hm) (h.since s' hs'))⟩

end Spilled

/-- Room for parameters, which is written as it is reserved. -/
theorem traced_bindParams (hD : Fitness D) : ∀ {ps : List Param} {i : Nat}, E.params.drop i = ps →
    ∀ {b b' : Body}, (bindParams E.id i ps).run b = .ok (.ok (), b') →
      (D.seen b'.bound → D.seen b.bound) ∧ ∀ k, D.seen b'.bound → BodyTraced D k b →
        ∃ slots : List Slot, BodyTraced D { k with slots := k.slots ++ slots } b' ∧
          b.draft.Grows b'.draft ∧ Spilled ps b.draft.func.regs slots b'.draft.func
  | [], _, _, b, b', hrun => by
    unfold bindParams at hrun
    cases hrun
    exact ⟨id, fun k _ hb => ⟨[], by simpa using hb, .refl _, .nil⟩⟩
  | p :: ps, i, hps, b, b', hrun => by
    have hp : E.params[i]? = some p := by
      have hhead := congrArg List.head? hps
      rwa [List.head?_drop] at hhead
    have hrest : E.params.drop (i + 1) = ps := by
      have htail := congrArg List.tail hps
      rwa [List.tail_drop] at htail
    unfold bindParams at hrun
    dsimp only at hrun
    split at hrun
    -- an output parameter is its own address, and needs no room
    next hout =>
      rw [pure_bind] at hrun
      obtain ⟨_, b₁, hdeclare, hwalk⟩ := bind_succeeds hrun
      obtain ⟨σ, hσ, rfl⟩ := declare_succeeds hdeclare
      obtain ⟨hseen, htraced⟩ := traced_bindParams hD hrest hwalk
      refine ⟨fun h => D.seen_tail (hseen h), fun k hseen' hb => ?_⟩
      obtain ⟨slots, hb', hgrows, hslots⟩ :=
        htraced k hseen' ⟨hb.toTraced, hb.scopes.declare (.param hp hout) hσ⟩
      exact ⟨slots, hb', hgrows, hslots.output hout (Nat.le_refl _)⟩
    next hin =>
      obtain ⟨_, b₀, hroom, hrun⟩ := bind_succeeds hrun
      obtain ⟨addr, d₀, hact, heq, rfl⟩ := emit_cases hroom
      cases heq
      obtain ⟨_, b₁, hdeclare, hwalk⟩ := bind_succeeds hrun
      obtain ⟨σ, hσ, rfl⟩ := declare_succeeds hdeclare
      obtain ⟨hseen, htraced⟩ := traced_bindParams hD hrest hwalk
      refine ⟨fun h => D.seen_tail (hseen h), fun k hseen' hb => ?_⟩
      -- any other gets a slot, and the argument is stored there before its name is declared
      obtain ⟨_, d₁, halloca, hput⟩ := Emit.bind_cases hact
      obtain ⟨_, d₂, hstore, hpure⟩ := Emit.bind_cases hput
      cases hpure
      obtain ⟨s, htype, hconst, hreg, rfl, hline, hregs, hgrows₁, hd₁⟩ :=
        hb.toTraced.alloca false halloca
      have hmore : k.Le { k with slots := k.slots ++ [s] } :=
        ⟨List.subset_append_left _ _, fun _ h => h⟩
      have hs : Room E { k with slots := k.slots ++ [s] } d₁.func false p.type (s.addr E.id) :=
        htype ▸ hconst ▸ .slot (List.mem_append_right _ List.mem_cons_self)
      obtain ⟨hd₂, hgrows₂⟩ := hd₁.store hs (hD.param hp hin) hstore
      have hgrows := hgrows₁.trans hgrows₂
      have hscopes := (hb.scopes.mono fun _ hroom => hroom.mono hmore hgrows.func).declare
        (hs.mono (.refl _) hgrows₂.func) hσ
      obtain ⟨slots, hb', hgrows', hslots⟩ := htraced _ hseen' ⟨hd₂, hscopes⟩
      refine ⟨s :: slots, by simpa using hb', hgrows.trans hgrows', ?_⟩
      refine hslots.cons hin htype hconst ?_ hreg.ge ?_
      · exact hgrows'.func.code (hgrows₂.func.code hline)
      · exact Nat.lt_of_lt_of_le (hregs ▸ Nat.lt_succ_self _) hgrows₂.func.regs

/-! ## The end -/

/-- Blocks that are left open return zero. -/
theorem Traced.closeBlocks (hD : Fitness D) {d d' : Draft} (h : Traced D k d)
    (hrun : (closeBlocks E.result).run d = .ok ((), d')) :
    Traced D k d' ∧ d.func.Grows d'.func := by
  have hclose : ∀ {ls : List Label} {d : Draft}, ls ⊆ d.func.ownLabels → Traced D k d →
      (ls.forM fun l => do
        Emit.setPoint (some l)
        Emit.ret (if E.result = DataType.void then none else some (.zero E.result))) d =
          .ok ((), d') →
      Traced D k d' ∧ d.func.Grows d'.func := by
    intro ls
    induction ls with
    | nil =>
      rintro d - h ⟨⟩
      exact ⟨h, .refl _⟩
    | cons l ls ih =>
      intro d hls h hrun
      obtain ⟨_, d₁, hact, hrest⟩ := Emit.bind_cases hrun
      obtain ⟨_, d₀, hset, hret⟩ := Emit.bind_cases hact
      cases hset
      have hpoint : Traced D k { d with point := some l } := h.setPoint fun m hm =>
        Option.some.inj hm ▸ hls List.mem_cons_self
      have hzero : ∀ v, Term.ret (if E.result = .void then none else some (.zero E.result)) =
          .ret (some v) → D.fit k d.func E.result v := by
        intro v hv
        split at hv
        · cases hv
        · cases hv
          exact hD.zero
      obtain ⟨hd₁, hgrows⟩ := hpoint.terminate hzero hret
      obtain ⟨hd', hgrows'⟩ := ih (fun m hm => hgrows.func.labels (hls (.tail _ hm))) hd₁ hrest
      exact ⟨hd', hgrows.func.trans hgrows'⟩
  obtain ⟨ls, d₀, hopen, hrest⟩ := Emit.bind_cases hrun
  cases hopen
  refine hclose (fun l hl => ?_) h hrest
  obtain ⟨b, hb, rfl⟩ := List.mem_map.1 hl
  exact List.mem_map_of_mem (List.mem_of_mem_filter hb)

/-- The function that computes the values of global variables is called without arguments. -/
theorem traces_callInit : Traces D k (fun _ => True) (emit (Emit.call ⟨initName, 0⟩ .void []))
    fun _ _ => True := by
  refine .emit fun d v d' hd _ hrun => ?_
  obtain ⟨hd', hgrows, -⟩ := hd.append hrun (.inl rfl)
  exact ⟨hd', hgrows, trivial⟩

end

/-! ## Bodies -/

section

variable {o : Options} {c : Context} {f : FuncDecl} {g : Func}
  {G : GlobalId → DataType → Bool → Prop} {D : Demand (.ofFunc c.sigs G f)}

theorem bodyTraced_startWalk (hscopes : c.scopes.All (NamesGlobal G)) :
    BodyTraced D {} (startWalk o c f).enter.body := by
  have hopened := opened_startWalk o c f
  have hblocks : (startWalk o c f).enter.body.draft.func.blocks = _ := hopened.blocks
  refine ⟨⟨hopened.id, by simp [hblocks], fun l hl => ?_, List.forall_mem_nil _, ?_, ?_⟩, ?_⟩
  · have hl : some ((declaration f).start []).1 = some l := hl
    obtain rfl := Option.some.inj hl
    rw [Func.ownLabels, hblocks]
    exact List.mem_cons_self
  · simp [Func.code, hblocks]
  · simp [Func.terms, hblocks]
  · exact Scopes.All.enter (hscopes.mono fun _ h => h.room)

/-- The code of a body keeps to the room for parameters and for the variables that its statements
declare. -/
theorem exists_declared {bound : List (Name × DataType)} (hD : Fitness D)
    (hscopes : c.scopes.All (NamesGlobal G))
    (hpermitted : ∀ x ∈ Stmt.allExprs f.body, Permitted D x)
    (hrun : lowerBody o c f = .ok (.ok (), g, bound)) (hseen : D.seen bound) :
    ∃ (n : Nat) (slots : List Slot) (ls : List Local) (d : Draft), d.func = g ∧
      Traced D (Ledger.with { slots } ⟨f.name.text, 0⟩ ls) d ∧
      Declared (.ofFunc c.sigs G f) n ls (Stmt.allDeclared f.body) g ∧
      Spilled f.params 0 slots g ∧ ∀ s ∈ slots, s.reg < n := by
  obtain ⟨b₁, b₂, b₃, d, hparams, hcall, hstmts, hclose, rfl, rfl⟩ := lowerBody_cases hrun
  obtain ⟨hseen₁, htraced₁⟩ := traced_bindParams hD (i := 0) rfl hparams
  have hcalls : (D.seen b₂.bound → D.seen b₁.bound) ∧ ∀ k, D.seen b₂.bound → BodyTraced D k b₁ →
      BodyTraced D k b₂ ∧ b₁.draft.Grows b₂.draft := by
    split at hcall
    · obtain ⟨v, hcall⟩ := hcall
      refine ⟨(traces_callInit (k := {}) _ _ _ hcall).1, fun k hseen hb => ?_⟩
      obtain ⟨hb₂, hgrows, -⟩ := (traces_callInit (k := k) _ _ _ hcall).2 hseen hb trivial
      exact ⟨hb₂, hgrows⟩
    · subst hcall
      exact ⟨id, fun k _ hb => ⟨hb, .refl _⟩⟩
  obtain ⟨hseen₃, hdeclares⟩ := declares_stmts (P := fun _ => True) (p := true) hD
    hpermitted b₂ () b₃ hstmts
  obtain ⟨slots, hb₁, hgrows₁, hslots⟩ := htraced₁ {} (hcalls.1 (hseen₃ hseen))
    (bodyTraced_startWalk hscopes)
  obtain ⟨hb₂, hgrows₂⟩ := hcalls.2 _ (hseen₃ hseen) hb₁
  obtain ⟨ls, hb₃, hgrows₃, hls, -, -⟩ := hdeclares _ hseen hb₂ trivial
    (hgrows₂.point (hgrows₁.point rfl))
  obtain ⟨hd, hgrows₄⟩ := hb₃.toTraced.closeBlocks hD hclose
  have hgrows := hgrows₃.trans hgrows₄
  refine ⟨_, slots, ls, d, rfl, hd, hls.mono hgrows₄, ?_, fun s hs => ?_⟩
  · have hspilled := hslots.mono (hgrows₂.func.trans hgrows)
    exact { hspilled with since := fun _ _ => Nat.zero_le _ }
  · exact hb₂.below s (by simpa using hs)

end

end Shader.Lowering
