import Shader.Proofs.Rooms.Expressions

/-!
# Statements keep to the rooms of variables

A declaration reserves room, and the next instruction keeps the first value there; then the name is
in scope. The declarations that control can come to are lowered one after another, in the order of
the source, so the room of a variable is found by its place among them. `Declares` says of a walk
over statements which declarations it lowers, and `Declared` what has been written for them.
-/

namespace Shader.Stmt

mutual

/-- Control never comes behind a statement: it returns, or leaves a loop or a round of it. -/
def leaves : Stmt → Bool
  | block _ body => someLeaves body
  | ifElse _ _ yes no => leaves yes && leaves no
  | branch _ _ | ret _ _ => true
  | _ => false

/-- Control never comes behind one of the statements. -/
def someLeaves : List Stmt → Bool
  | [] => false
  | s :: ss => leaves s || someLeaves ss

end

end Shader.Stmt

/-- The declaration in the first clause of a loop. -/
def Shader.ForInit.declared : Shader.ForInit → List Shader.VarDecl
  | var d => [d]
  | _ => []

namespace Shader.Stmt

mutual

/-- The declarations in a statement, those left out behind which control never comes. -/
def declared : Stmt → List VarDecl
  | var d => [d]
  | block _ body => allDeclared body
  | ifThen _ _ yes => declared yes
  | ifElse _ _ yes no => declared yes ++ declared no
  | forLoop _ init _ _ body => init.declared ++ declared body
  | whileLoop _ _ body | doLoop _ body _ => declared body
  | _ => []

/-- The declarations in statements. -/
def allDeclared : List Stmt → List VarDecl
  | [] => []
  | s :: ss => declared s ++ if leaves s then [] else allDeclared ss

end

end Shader.Stmt

namespace Shader.Lowering

open Ir

/-! ## Local variables -/

/-- The first value of a local variable. -/
def firstValue (Γ : Signatures) (d : VarDecl) : Lower Value :=
  match d.init with
  | none => pure (.zero d.type)
  | some x => do initialValue d.type (← expr Γ x)

/-- A local variable, and what has been written for its declaration. -/
structure Local where
  /-- the declaration -/
  decl : VarDecl
  /-- the number of the instruction that reserves its room -/
  reg : Nat
  /-- the name of its address -/
  name : String
  /-- its first value -/
  value : Value

namespace Local

/-- The room of the variable. -/
def slot (l : Local) : Slot := ⟨l.reg, l.name, l.decl.type, l.decl.isConst⟩

/-- The address of the variable. -/
def addr (id : FuncId) (l : Local) : Value := l.slot.addr id

/-- The store of its first value. -/
def store (id : FuncId) (l : Local) : Line := ⟨l.reg + 1, "", .store l.value (l.addr id)⟩

/-- The declaration has been lowered: the first value has been computed, the room has been reserved
next, and the name stands for its address. -/
structure Lowered (Γ : Signatures) (id : FuncId) (l : Local) : Prop where
  /-- it is walked over -/
  walk : ∃ b b₁ b', (firstValue Γ l.decl).run b = .ok (.ok l.value, b₁) ∧
    b₁.draft.func.regs = l.reg ∧ (varDecl Γ l.decl).run b = .ok (.ok (), b') ∧
    b'.scopes.lookup? l.decl.name.text =
      some ⟨l.decl.name.text, l.decl.type, l.addr id, l.decl.isConst⟩

end Local

/-- What has been declared, with further variables. -/
def Ledger.with (k : Ledger) (id : FuncId) (ls : List Local) : Ledger where
  slots := k.slots ++ ls.map Local.slot
  first := k.first ++ ls.map fun l => (l.reg + 1, l.addr id)

@[simp] theorem Ledger.with_nil (k : Ledger) (id : FuncId) : k.with id [] = k := by
  simp [Ledger.with]

theorem Ledger.with_with (k : Ledger) (id : FuncId) (ls ls' : List Local) :
    (k.with id ls).with id ls' = k.with id (ls ++ ls') := by
  simp [Ledger.with]

theorem Ledger.le_with (k : Ledger) (id : FuncId) (ls : List Local) : k.Le (k.with id ls) :=
  ⟨List.subset_append_left _ _, List.subset_append_left _ _⟩

/-- Declarations have been lowered, from some number of instructions on. -/
structure Declared (E : Setting) (n : Nat) (ls : List Local) (ds : List VarDecl) (f : Func) :
    Prop where
  /-- the variables are those of the declarations -/
  decls : ls.map Local.decl = ds
  /-- each has been lowered -/
  lowered : ∀ l ∈ ls, l.Lowered E.sigs E.id
  /-- its room and its first value are in the code -/
  written : ∀ l ∈ ls, l.slot.line ∈ f.code ∧ l.store E.id ∈ f.code
  /-- their numbers follow one another -/
  ordered : ls.Pairwise fun l l' => l.reg < l'.reg
  /-- from a number on -/
  since : ∀ l ∈ ls, n ≤ l.reg
  /-- up to the last one -/
  below : ∀ l ∈ ls, l.reg < f.regs

namespace Declared

variable {E : Setting} {n : Nat} {ls ls' : List Local} {ds ds' : List VarDecl} {f f' : Func}

theorem nil : Declared E n [] [] f :=
  ⟨rfl, List.forall_mem_nil _, List.forall_mem_nil _, .nil, List.forall_mem_nil _,
    List.forall_mem_nil _⟩

theorem mono (h : Declared E n ls ds f) (hf : f.Grows f') : Declared E n ls ds f' where
  decls := h.decls
  lowered := h.lowered
  written := fun l hl => ⟨hf.code (h.written l hl).1, hf.code (h.written l hl).2⟩
  ordered := h.ordered
  since := h.since
  below := fun l hl => Nat.lt_of_lt_of_le (h.below l hl) hf.regs

theorem append (h : Declared E n ls ds f) (hf : f.Grows f') (hn : n ≤ f.regs)
    (h' : Declared E f.regs ls' ds' f') : Declared E n (ls ++ ls') (ds ++ ds') f' where
  decls := by rw [List.map_append, h.decls, h'.decls]
  lowered := List.forall_mem_append.2 ⟨h.lowered, h'.lowered⟩
  written := List.forall_mem_append.2 ⟨(h.mono hf).written, h'.written⟩
  ordered := List.pairwise_append.2 ⟨h.ordered, h'.ordered, fun l hl l' hl' =>
    Nat.lt_of_lt_of_le (h.below l hl) (h'.since l' hl')⟩
  since := List.forall_mem_append.2 ⟨h.since, fun l hl => Nat.le_trans hn (h'.since l hl)⟩
  below := List.forall_mem_append.2 ⟨(h.mono hf).below, h'.below⟩

end Declared

/-! ## Walks over statements -/

section

variable {E : Setting} {D : Demand E} {α β : Type}

/-- From a state with, or without, a point, a walk that succeeds lowers declarations and keeps to
the variables, and it leads to a state with, or without, a point. -/
def Declares (D : Demand E) (P : Func → Prop) (p : Bool) (act : Lower α) (ds : List VarDecl)
    (p' : α → Bool) (Q : α → Func → Prop) : Prop :=
  ∀ b a b', act.run b = .ok (.ok a, b') → (D.seen b'.bound → D.seen b.bound) ∧
    ∀ k, D.seen b'.bound → BodyTraced D k b → P b.draft.func → b.draft.point.isSome = p →
      ∃ ls, BodyTraced D (k.with E.id ls) b' ∧ b.draft.func.Grows b'.draft.func ∧
        Declared E b.draft.func.regs ls ds b'.draft.func ∧ b'.draft.point.isSome = p' a ∧
        Q a b'.draft.func

namespace Declares

variable {P P' : Func → Prop} {p : Bool} {act : Lower α} {ds ds' : List VarDecl} {m m' : α → Bool}
  {Q Q' : α → Func → Prop}

theorem weaken (h : Declares D P p act ds m Q) (hP : ∀ f, P' f → P f) (hQ : ∀ a f, Q a f → Q' a f)
    : Declares D P' p act ds m Q' := by
  intro b a b' hrun
  obtain ⟨hseen, hdeclares⟩ := h b a b' hrun
  refine ⟨hseen, fun k hseen' hb hp hpoint => ?_⟩
  obtain ⟨ls, hb', hgrows, hls, hpoint', hq⟩ := hdeclares k hseen' hb (hP _ hp) hpoint
  exact ⟨ls, hb', hgrows, hls, hpoint', hQ _ _ hq⟩

/-- A walk that declares nothing. -/
theorem of_traces (h : ∀ k, Traces D k P act Q) : Declares D P true act [] (fun _ => true) Q := by
  intro b a b' hrun
  refine ⟨(h {} b a b' hrun).1, fun k hseen hb hp hpoint => ?_⟩
  obtain ⟨hb', hgrows, hq⟩ := (h k b a b' hrun).2 hseen hb hp
  exact ⟨[], by rwa [Ledger.with_nil], hgrows.func, .nil, hgrows.point hpoint, hq⟩

theorem pure {a : α} (h : ∀ f, P f → Q a f) : Declares D P p (Pure.pure a) [] (fun _ => p) Q := by
  rintro b _ _ ⟨⟩
  exact ⟨id, fun k _ hb hp hpoint =>
    ⟨[], by rwa [Ledger.with_nil], .refl _, .nil, hpoint, h _ hp⟩⟩

theorem bind [Lasts P] {f : α → Lower β} {p' : β → Bool} {R : β → Func → Prop}
    (h : Declares D P p act ds m Q)
    (hf : ∀ a, Declares D (fun g => P g ∧ Q a g) (m a) (f a) ds' p' R) :
    Declares D P p (act >>= f) (ds ++ ds') p' R := by
  intro b c b'' hrun
  obtain ⟨a, b₁, hact, hrest⟩ := bind_succeeds hrun
  obtain ⟨hseen₁, hdeclares₁⟩ := h b a b₁ hact
  obtain ⟨hseen₂, hdeclares₂⟩ := hf a b₁ c b'' hrest
  refine ⟨fun hseen => hseen₁ (hseen₂ hseen), fun k hseen hb hp hpoint => ?_⟩
  obtain ⟨ls, hb₁, hgrows₁, hls, hpoint₁, hq⟩ := hdeclares₁ k (hseen₂ hseen) hb hp hpoint
  obtain ⟨ls', hb₂, hgrows₂, hls', hpoint₂, hr⟩ :=
    hdeclares₂ _ hseen hb₁ ⟨Lasts.mono hgrows₁ hp, hq⟩ hpoint₁
  exact ⟨ls ++ ls', by rwa [← Ledger.with_with], hgrows₁.trans hgrows₂,
    hls.append hgrows₂ hgrows₁.regs hls', hpoint₂, hr⟩

/-- A walk that declares nothing, and then another one. -/
theorem step [Lasts P] {f : α → Lower β} {p' : β → Bool} {R : β → Func → Prop}
    (h : Declares D P p act [] m Q)
    (hf : ∀ a, Declares D (fun g => P g ∧ Q a g) (m a) (f a) ds p' R) :
    Declares D P p (act >>= f) ds p' R :=
  .bind h hf

/-- A walk, and then another one that declares nothing. -/
theorem last [Lasts P] {f : α → Lower β} {p' : β → Bool} {R : β → Func → Prop}
    (h : Declares D P p act ds m Q)
    (hf : ∀ a, Declares D (fun g => P g ∧ Q a g) (m a) (f a) [] p' R) :
    Declares D P p (act >>= f) ds p' R :=
  ds.append_nil ▸ .bind h hf

theorem check {q : Prop} {_ : Decidable q} {pos : Pos} {cause : Cause} {rest : Unit → Lower α}
    (h : ¬ q → Declares D P p (rest ()) ds m Q) :
    Declares D P p (if q then Lowering.fail pos cause >>= rest else rest ()) ds m Q := by
  split
  · rintro b a b' ⟨⟩
  next hq => exact h hq

theorem fail {pos : Pos} {cause : Cause} : Declares D P p (Lowering.fail pos cause) ds m Q := by
  rintro b a b' ⟨⟩

/-- What is known of declarations and of the point may be put in another way. -/
theorem of_eq (h : Declares D P p act ds m Q) (hds : ds = ds')
    (hm : ∀ f a, P f → m a = m' a) : Declares D P p act ds' m' Q := by
  subst hds
  intro b a b' hrun
  obtain ⟨hseen, hdeclares⟩ := h b a b' hrun
  refine ⟨hseen, fun k hseen' hb hp hpoint => ?_⟩
  obtain ⟨ls, hb', hgrows, hls, hpoint', hq⟩ := hdeclares k hseen' hb hp hpoint
  exact ⟨ls, hb', hgrows, hls, hpoint'.trans (hm _ _ hp), hq⟩

/-- A walk that is never begun. -/
theorem absurd (h : Declares D P' p act ds m Q) (hP : ∀ f, ¬ P f) {p' : Bool} :
    Declares D P p' act ds' m' Q' :=
  fun b a b' hrun => ⟨(h b a b' hrun).1, fun _ _ _ hp => (hP _ hp).elim⟩

theorem discard (h : Declares D P p act ds (fun _ => p) Q) :
    Declares D P p (Functor.discard act) ds (fun _ => p) fun _ _ => True := by
  intro b _ b' hrun
  obtain ⟨a, b₁, hact, hpure⟩ := bind_succeeds hrun
  cases hpure
  exact h.weaken (fun _ hp => hp) (fun _ _ _ => trivial) b a _ hact

/-- Writing changes the code alone. -/
theorem emit {act : Emit α} (h : ∀ k d a d', Traced D k d → P d.func → d.point.isSome = p →
      act d = .ok (a, d') → Traced D k d' ∧ d.func.Grows d'.func ∧ d'.point.isSome = m a ∧
        Q a d'.func) :
    Declares D P p (Lowering.emit act) [] m Q := by
  intro b a b' hrun
  obtain ⟨a', d, hact, heq, rfl⟩ := emit_cases hrun
  cases heq
  refine ⟨id, fun k _ hb hp hpoint => ?_⟩
  obtain ⟨hd, hgrows, hpoint', hq⟩ := h k b.draft a d hb.toTraced hp hpoint hact
  refine ⟨[], ?_, hgrows, .nil, hpoint', hq⟩
  rw [Ledger.with_nil]
  exact ⟨hd, hb.scopes.mono fun _ hroom => hroom.mono (.refl k) hgrows⟩

/-- The declarations in a scope are forgotten at its end, and their room stays. -/
theorem inScope (h : Declares D P p act ds m Q) :
    Declares D P p (Lowering.inScope act) ds m Q := by
  intro b a b' hrun
  obtain ⟨b₁, σ, hact, hexit, rfl⟩ := inScope_cases hrun
  obtain ⟨hseen, hdeclares⟩ := h _ a b₁ hact
  refine ⟨hseen, fun k hseen' hb hp hpoint => ?_⟩
  obtain ⟨ls, hb₁, hgrows, hls, hpoint', hq⟩ :=
    hdeclares k hseen' ⟨hb.toTraced, hb.scopes.enter⟩ hp hpoint
  exact ⟨ls, ⟨hb₁.toTraced, hb₁.scopes.exit? hexit⟩, hgrows, hls, hpoint', hq⟩

end Declares

/-! ## Declarations -/

/-- A declaration that is lowered: its first value, its room, the store, and its name. -/
theorem varDecl_cases {Γ : Signatures} {d : VarDecl} {b b' : Body}
    (h : (varDecl Γ d).run b = .ok (.ok (), b')) :
    ∃ v b₁, (firstValue Γ d).run b = .ok (.ok v, b₁) ∧
      (do
        let addr ← emit (Emit.alloca d.type d.name.text)
        emit (Emit.store v addr)
        declare d.name d.type addr d.isConst : Lower Unit).run b₁ = .ok (.ok (), b') := by
  unfold varDecl at h
  by_cases hvoid : d.type = .void
  · rw [if_pos hvoid] at h
    cases h
  rw [if_neg hvoid] at h
  by_cases hbare : (d.isConst && d.init.isNone) = true
  · rw [if_pos hbare] at h
    cases h
  rw [if_neg hbare] at h
  unfold firstValue
  rcases hinit : d.init with _ | x
  · rw [hinit] at h
    exact ⟨_, b, rfl, h⟩
  · rw [hinit] at h
    obtain ⟨y, b₁, hexpr, hrest⟩ := bind_succeeds h
    obtain ⟨v, b₂, hvalue, hrest⟩ := bind_succeeds hrest
    refine ⟨v, b₂, ?_, hrest⟩
    change Except.bind ((expr Γ x).run b) _ = _
    rw [hexpr]
    exact hvalue

variable {P : Func → Prop} (hD : Fitness D)
include hD

theorem traces_firstValue {k : Ledger} [Lasts P] {d : VarDecl}
    (hd : ∀ x ∈ d.init.toList, Permitted D x) :
    Traces D k P (firstValue E.sigs d) fun v f => D.fit k f d.type v := by
  unfold firstValue
  rcases hinit : d.init with _ | x
  · exact .pure fun _ _ => hD.zero
  · refine .bind (traces_expr hD (hd x (by simp [hinit]))) fun y => ?_
    exact traces_initialValue hD fun _ h => h.2

/-- The room of a variable is reserved, and its first value is kept there next. -/
theorem declares_varDecl [Lasts P] {d : VarDecl} (hd : ∀ x ∈ d.init.toList, Permitted D x) :
    Declares D P true (varDecl E.sigs d) [d] (fun _ => true) fun _ _ => True := by
  intro b a b' hrun
  obtain ⟨v, b₁, hvalue, hrest⟩ := varDecl_cases hrun
  obtain ⟨addr, b₂, halloca, hrest⟩ := bind_succeeds hrest
  obtain ⟨_, b₃, hstore, hdeclare⟩ := bind_succeeds hrest
  obtain ⟨_, d₂, hroom, heq, rfl⟩ := emit_cases halloca
  cases heq
  obtain ⟨_, d₃, hput, -, rfl⟩ := emit_cases hstore
  obtain ⟨σ, hσ, rfl⟩ := declare_succeeds hdeclare
  have hfirst := fun k => traces_firstValue (P := fun _ => True) (k := k) hD hd b v b₁ hvalue
  refine ⟨fun hseen => (hfirst {}).1 (D.seen_tail hseen), fun k hseen hb _ hpoint => ?_⟩
  obtain ⟨hb₁, hgrows₁, hfit⟩ := (hfirst k).2 (D.seen_tail hseen) hb trivial
  obtain ⟨s, htype, hconst, hreg, rfl, hslot, hregs, hgrows₂, hd₂⟩ :=
    hb₁.toTraced.alloca d.isConst hroom
  obtain ⟨_, happend⟩ := Emit.discard_cases hput
  -- the room is that of the declaration, so the ledger grows by this local variable
  let l : Local := ⟨d, s.reg, s.name, v⟩
  have hl : l.slot = s := by simp [l, Local.slot, ← htype, ← hconst]
  have haddr : l.addr E.id = s.addr E.id := congrArg (Slot.addr E.id) hl
  have hmore : Ledger.Le { k with slots := k.slots ++ [s] } (k.with E.id [l]) :=
    ⟨by simp [Ledger.with, hl], List.subset_append_left _ _⟩
  have hk : k.Le (k.with E.id [l]) := k.le_with E.id [l]
  have hroom' : Room E (k.with E.id [l]) d₂.func d.isConst d.type (s.addr E.id) := by
    have hmem : s ∈ (k.with E.id [l]).slots := by simp [Ledger.with, hl]
    exact htype ▸ hconst ▸ Room.slot hmem
  have hbelow : ∀ s' ∈ (k.with E.id [l]).slots, s'.reg < d₂.func.regs := by
    simpa [Ledger.with, hl] using hd₂.below
  obtain ⟨hd₃, hgrows₃, hmem, -⟩ := (hd₂.mono hmore hbelow).append happend
    ⟨d.isConst, d.type, hroom', D.fit_mono hk hgrows₂.func hfit, fun _ => by
      simp [Ledger.with, haddr, hregs, l]⟩
  have hgrown := hgrows₂.trans hgrows₃
  refine ⟨[l], ⟨⟨hd₃.id, hd₃.entry, hd₃.point, hd₃.below, hd₃.line, hd₃.term⟩, ?_⟩,
    (hgrows₁.trans hgrown).func, ?_, ?_, trivial⟩
  · refine (hb₁.scopes.mono fun _ hroom => hroom.mono hk hgrown.func).declare ?_ hσ
    exact hroom'.mono (.refl _) hgrows₃.func
  · refine ⟨rfl, ?_, ?_, List.pairwise_singleton _ _, ?_, ?_⟩
    · refine List.forall_mem_singleton.2 ⟨b, b₁, _, hvalue, hreg.symm, hrun, ?_⟩
      exact haddr ▸ Scopes.lookup?_declare hσ
    · refine List.forall_mem_singleton.2 ⟨hgrows₃.func.code (hl ▸ hslot), ?_⟩
      rw [Local.store, haddr]
      exact hregs ▸ hmem
    · exact List.forall_mem_singleton.2 (hgrows₁.func.regs.trans_eq hreg.symm)
    · refine List.forall_mem_singleton.2 ?_
      have := hgrows₃.func.regs
      rw [hregs] at this
      exact this
  · exact (hgrows₁.trans hgrown).point hpoint

end

/-! ## The point -/

section

variable {E : Setting} {D : Demand E} {P : Func → Prop} {p : Bool}

theorem declares_newBlock {hint : String} :
    Declares D P p (emit (Emit.newBlock hint)) [] (fun _ => p) fun l f => l ∈ f.ownLabels := by
  refine .emit fun k d l d' hd _ hpoint hrun => ?_
  obtain ⟨hd', hgrows, hl⟩ := hd.newBlock hrun
  obtain ⟨-, rfl⟩ := Emit.newBlock_cases hrun
  exact ⟨hd', hgrows.func, hpoint, hl⟩

theorem declares_setPoint {q : Option Label} (hq : ∀ l, q = some l → ∀ f, P f → l ∈ f.ownLabels) :
    Declares D P p (emit (Emit.setPoint q)) [] (fun _ => q.isSome) fun _ _ => True := by
  refine .emit fun k d _ d' hd hp _ hrun => ?_
  cases hrun
  exact ⟨hd.setPoint fun l hl => hq l hl _ hp, .refl _, rfl, trivial⟩

theorem declares_terminate {t : Term}
    (ht : ∀ v, t = .ret (some v) → ∀ k f, P f → D.fit k f E.result v) :
    Declares D P true (emit (Emit.terminate t)) [] (fun _ => true) fun _ _ => True :=
  .of_traces fun k => traces_terminate fun v hv f hp => ht v hv k f hp

/-- The block at the point is ended, and the point moves. -/
theorem declares_jump {t : Term} {q : Option Label} (ht : ∀ v, t ≠ .ret (some v))
    (hq : ∀ l, q = some l → ∀ f, P f → l ∈ f.ownLabels) :
    Declares D P true (emit do
      Emit.terminate t
      Emit.setPoint q) [] (fun _ => q.isSome) fun _ _ => True := by
  refine .emit fun k d _ d' hd hp _ hrun => ?_
  obtain ⟨_, d₁, hterm, hset⟩ := Emit.bind_cases hrun
  cases hset
  obtain ⟨hd₁, hgrows⟩ := hd.terminate (fun v hv => absurd hv (ht v)) hterm
  exact ⟨hd₁.setPoint fun l hl => hgrows.func.labels (hq l hl _ hp), hgrows.func, rfl, trivial⟩

theorem declares_jumpTo {t : Term} {l : Label} (hl : ∀ f, P f → l ∈ f.ownLabels)
    (ht : ∀ v, t ≠ .ret (some v) := by simp) :
    Declares D P true (emit do
      Emit.terminate t
      Emit.setPoint (some l)) [] (fun _ => true) fun _ _ => True :=
  declares_jump ht fun _ hm => Option.some.inj hm ▸ hl

theorem declares_moveTo {l : Label} (hl : ∀ f, P f → l ∈ f.ownLabels) :
    Declares D P p (emit (Emit.setPoint (some l))) [] (fun _ => true) fun _ _ => True :=
  declares_setPoint fun _ hm => Option.some.inj hm ▸ hl

theorem declares_isReachable :
    Declares D P p (emit Emit.isReachable) [] (fun _ => p) fun here _ => here = p := by
  refine .emit fun k d _ d' hd _ hpoint hrun => ?_
  cases hrun
  exact ⟨hd, .refl _, hpoint, hpoint⟩

theorem declares_brIfReachable {target : Label} :
    Declares D P p (brIfReachable target) [] (fun _ => p) fun here _ => here = p := by
  refine .emit fun k d here d' hd hp hpoint hrun => ?_
  obtain ⟨_, d₁, hhere, hrest⟩ := Emit.bind_cases hrun
  cases hhere
  cases p with
  | false =>
    rw [if_neg (by simp [hpoint])] at hrest
    cases hrest
    exact ⟨hd, .refl _, hpoint, hpoint⟩
  | true =>
    rw [if_pos hpoint] at hrest
    obtain ⟨_, d₂, hbr, hpure⟩ := Emit.bind_cases hrest
    cases hpure
    obtain ⟨hd', hgrows⟩ := hd.terminate (fun _ hret => by cases hret) hbr
    exact ⟨hd', hgrows.func, hgrows.point hpoint, hpoint⟩

theorem declares_branchTo {pos : Pos} {token : Token} {loop : Option Loop} :
    Declares D P true (branchTo pos token loop) [] (fun _ => false) fun _ _ => True := by
  cases loop with
  | none => exact .fail
  | some loop => exact declares_jump nofun nofun

/-! ## Statements -/

variable [Lasts P]

theorem declares_condition (hD : Fitness D) {c : Expr} (hc : Permitted D c) :
    Declares D P true (condition E.sigs c) [] (fun _ => true) fun _ _ => True :=
  .of_traces fun _ => .bind (traces_expr hD hc) fun _ => stepwise_truthOf (evaluating_traces D _ _)

theorem declares_expr (hD : Fitness D) {x : Expr} (hx : Permitted D x) :
    Declares D P true (Functor.discard (expr E.sigs x)) [] (fun _ => true) fun _ _ => True :=
  .of_traces fun _ => .bind (traces_expr hD hx) fun _ => .pure fun _ _ => trivial

theorem declares_forInit (hD : Fitness D) : ∀ {init : ForInit}, (∀ x ∈ init.exprs, Permitted D x) →
    Declares D P true (forInit E.sigs init) init.declared (fun _ => true) fun _ _ => True
  | .nothing, _ => .pure fun _ _ => trivial
  | .var _, h => declares_varDecl hD h
  | .expr x, h => declares_expr hD (h x List.mem_cons_self)

theorem declares_loopTest (hD : Fitness D) {c : Option Expr} {body leave : Label}
    (hc : ∀ x ∈ c.toList, Permitted D x) :
    Declares D P true (loopTest E.sigs c body leave) [] (fun _ => true) fun _ _ => True := by
  cases c with
  | none => exact declares_terminate nofun
  | some c =>
    exact .bind (declares_condition hD (hc c (by simp))) fun _ => declares_terminate nofun

theorem declares_returnFrom (hD : Fitness D) {pos : Pos} {result : Option Expr}
    (hresult : ∀ x ∈ result.toList, Permitted D x) :
    Declares D P true (returnFrom E.sigs E.result pos result) [] (fun _ => false)
      fun _ _ => True := by
  unfold returnFrom
  cases result with
  | none =>
    refine .check fun _ => ?_
    exact .bind (declares_terminate nofun) fun _ => declares_setPoint nofun
  | some x =>
    refine .check fun _ => ?_
    have hx : Permitted D x := hresult x (by simp)
    have hvalue : Declares D P true (do
        let v ← valueAs (← expr E.sigs x) E.result
        emit (Emit.ret (some v))) [] (fun _ => true) fun _ _ => True := by
      refine .of_traces fun k => .bind (traces_expr hD hx) fun y => ?_
      refine .bind (traces_valueAs hD fun _ h => h.2) fun v => traces_terminate ?_
      rintro _ ⟨⟩ f h
      exact h.2
    have hmove := hvalue.step fun _ => declares_setPoint (q := none) (by simp)
    simp only [bind_assoc] at hmove
    exact hmove

end

section

variable {E : Setting} {D : Demand E}

mutual

/-- A statement lowers its declarations, and control comes behind it unless it leaves. -/
theorem declares_stmt (hD : Fitness D) : ∀ {s : Stmt}, (∀ x ∈ s.exprs, Permitted D x) →
    ∀ {P : Func → Prop} [Lasts P] {loop : Option Loop},
      Declares D P true (stmt E.sigs E.result loop s) s.declared (fun _ => !s.leaves)
        fun _ _ => True
  | .empty _, _, P, _, _ => by
    unfold stmt
    exact .pure fun _ _ => trivial
  | .expr x, h, P, _, _ => by
    unfold stmt
    exact declares_expr hD (h x List.mem_cons_self)
  | .var d, h, P, _, _ => by
    unfold stmt
    exact declares_varDecl hD h
  | .block _ body, h, P, _, _ => by
    unfold stmt
    exact .inScope (declares_stmts hD h)
  | .ifThen _ c yes, h, P, _, _ => by
    obtain ⟨hc, hyes⟩ := List.forall_mem_cons.1 h
    unfold stmt
    refine .step (declares_condition hD hc) fun bit => ?_
    refine .step declares_newBlock fun whenTrue => .step declares_newBlock fun done => ?_
    refine .step (declares_jumpTo fun f hf => by tauto) fun _ => ?_
    refine .last (.inScope (declares_stmt hD hyes)) fun _ => ?_
    refine .step (.discard declares_brIfReachable) fun _ => ?_
    exact declares_moveTo fun f hf => by tauto
  | .ifElse _ c yes no, h, P, _, _ => by
    obtain ⟨hc, hbranches⟩ := List.forall_mem_cons.1 h
    obtain ⟨hyes, hno⟩ := List.forall_mem_append.1 hbranches
    unfold stmt
    refine .step (declares_condition hD hc) fun bit => ?_
    refine .step declares_newBlock fun whenTrue => .step declares_newBlock fun whenFalse => ?_
    refine .step declares_newBlock fun done => ?_
    refine .step (declares_jumpTo fun f hf => by tauto) fun _ => ?_
    refine .bind (.inScope (declares_stmt hD hyes)) fun _ => ?_
    refine .step declares_brIfReachable fun merged => ?_
    refine .step (declares_moveTo fun f hf => by tauto) fun _ => ?_
    refine .last (.inScope (declares_stmt hD hno)) fun _ => ?_
    refine .step declares_brIfReachable fun merged' => ?_
    refine .of_eq (declares_setPoint fun l hl f hf => ?_) rfl fun f _ hf => ?_
    · rw [Option.ite_none_right_eq_some] at hl
      obtain ⟨-, hl⟩ := hl
      obtain rfl := Option.some.inj hl
      tauto
    -- a merge is made exactly by the branches that do not leave
    · have hmerged : merged = !yes.leaves := by tauto
      have hmerged' : merged' = !no.leaves := by tauto
      rw [hmerged, hmerged', Stmt.leaves]
      cases yes.leaves <;> cases no.leaves <;> rfl
  | .forLoop _ init c post body, h, P, _, _ => by
    obtain ⟨hinit, hrest⟩ := List.forall_mem_append.1 h
    obtain ⟨hc, hrest⟩ := List.forall_mem_append.1 hrest
    obtain ⟨hpost, hbody⟩ := List.forall_mem_append.1 hrest
    unfold stmt
    refine .inScope (.bind (declares_forInit hD hinit) fun _ => ?_)
    refine .step declares_newBlock fun head => .step declares_newBlock fun round => ?_
    refine .step declares_newBlock fun next => .step declares_newBlock fun leave => ?_
    refine .step (declares_jumpTo fun f hf => by tauto) fun _ => ?_
    refine .step (declares_loopTest hD hc) fun _ => ?_
    refine .step (declares_moveTo fun f hf => by tauto) fun _ => ?_
    refine .last (.inScope (declares_stmt hD hbody)) fun _ => ?_
    refine .step (.discard declares_brIfReachable) fun _ => ?_
    refine .step (declares_moveTo fun f hf => by tauto) fun _ => ?_
    cases post with
    | none => exact declares_jumpTo fun f hf => by tauto
    | some post =>
      refine .step (declares_expr hD (hpost post (by simp))) fun _ => ?_
      exact declares_jumpTo fun f hf => by tauto
  | .whileLoop _ c body, h, P, _, _ => by
    obtain ⟨hc, hbody⟩ := List.forall_mem_cons.1 h
    unfold stmt
    refine .step declares_newBlock fun head => .step declares_newBlock fun round => ?_
    refine .step declares_newBlock fun leave => ?_
    refine .step (declares_jumpTo fun f hf => by tauto) fun _ => ?_
    refine .step (declares_loopTest hD (List.forall_mem_singleton.2 hc)) fun _ => ?_
    refine .step (declares_moveTo fun f hf => by tauto) fun _ => ?_
    refine .last (.inScope (declares_stmt hD hbody)) fun _ => ?_
    refine .step (.discard declares_brIfReachable) fun _ => ?_
    exact declares_moveTo fun f hf => by tauto
  | .doLoop _ body c, h, P, _, _ => by
    obtain ⟨hbody, hc⟩ := List.forall_mem_append.1 h
    unfold stmt
    refine .step declares_newBlock fun round => .step declares_newBlock fun test => ?_
    refine .step declares_newBlock fun leave => ?_
    refine .step (declares_jumpTo fun f hf => by tauto) fun _ => ?_
    refine .last (.inScope (declares_stmt hD hbody)) fun _ => ?_
    refine .step (.discard declares_brIfReachable) fun _ => ?_
    refine .step (declares_moveTo fun f hf => by tauto) fun _ => ?_
    refine .step (declares_loopTest hD hc) fun _ => ?_
    exact declares_moveTo fun f hf => by tauto
  | .branch _ _, _, P, _, _ => by
    unfold stmt
    exact declares_branchTo
  | .ret _ _, h, P, _, _ => by
    unfold stmt
    exact declares_returnFrom hD h

theorem declares_stmts (hD : Fitness D) : ∀ {ss : List Stmt},
    (∀ x ∈ Stmt.allExprs ss, Permitted D x) →
    ∀ {P : Func → Prop} [Lasts P] {loop : Option Loop} {p : Bool},
      Declares D P p (stmts E.sigs E.result loop ss) (if p then Stmt.allDeclared ss else [])
        (fun _ => p && !Stmt.someLeaves ss) fun _ _ => True
  | [], _, P, _, _, p => by
    unfold stmts
    refine .of_eq (.pure fun _ _ => trivial) ?_ fun _ _ _ => ?_
    · cases p <;> rfl
    · cases p <;> rfl
  | s :: ss, h, P, _, loop, p => by
    obtain ⟨hs, hss⟩ := List.forall_mem_append.1 h
    unfold stmts
    refine .step declares_isReachable fun here => ?_
    have hwalk {P : Func → Prop} [Lasts P] : Declares D P true
        (stmt E.sigs E.result loop s >>= fun _ => stmts E.sigs E.result loop ss)
        (Stmt.allDeclared (s :: ss)) (fun _ => !Stmt.someLeaves (s :: ss)) fun _ _ => True := by
      refine .of_eq (.bind (declares_stmt hD hs) fun _ => declares_stmts hD hss) ?_ fun _ _ _ => ?_
      · cases hleaves : s.leaves <;> simp [Stmt.allDeclared, hleaves]
      · simp [Stmt.someLeaves]
    -- control comes to the statements from everywhere, or from nowhere
    cases here <;> cases p
    · exact .pure fun _ _ => trivial
    · have hnone : Declares D (fun _ => True) false (pure ()) [] (fun _ => false) fun _ _ => True :=
        .pure fun _ _ => trivial
      exact hnone.absurd (by simp)
    · exact (hwalk (P := fun _ => True)).absurd (by simp)
    · exact hwalk

end

end

end Shader.Lowering
