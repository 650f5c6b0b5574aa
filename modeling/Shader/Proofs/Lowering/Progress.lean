import Shader.Lowering.Operand
import Shader.Proofs.Ir.Dominance

/-!
# Progress of writing and walking

What code for an expression does to a site: it goes on from an open block to an open block, and
everything that could be used at the start can be used at the end. This is `Site.Leads`, which is
transitive, so that it is shown for each operation and then holds of what is composed of them.

A realm says which blocks may be touched meanwhile. Every realm to which the point belongs will do;
the smallest one, `Site.realm`, has only the block at the point and those that are still to be made.
What is shown in a smaller realm holds in a larger one, and leaves alone what is outside of the
smaller.

`Emits` says that writing succeeds, leads on, and ends with a result of which something is known.
`Walks` says the same of a walk, except that it may end with a failure of the shader, and that it
may leave the point anywhere, or nowhere if it does not fail; `Lowers` is the case of a walk over an
expression, which leads on if it does not fail.
-/

namespace Shader.Ir

/-- The blocks that may be touched, and whether variables may be declared meanwhile. -/
structure Realm where
  /-- the blocks from this number on are new -/
  first : Nat
  /-- the older block that may be written to -/
  home : Option Label
  /-- the older blocks that may be gone to -/
  goals : Label → Prop
  /-- whether variables may be declared -/
  declares : Prop

namespace Realm

/-- A block that may be written to. -/
def Owns (ρ : Realm) (l : Label) : Prop := ρ.first ≤ l.index ∨ ρ.home = some l

/-- A block that may be gone to. -/
def Sees (ρ : Realm) (l : Label) : Prop := ρ.first ≤ l.index ∨ ρ.goals l

/-- Everything that may be done in the one realm may be done in the other. -/
structure Le (ρ ρ' : Realm) : Prop where
  /-- what is new is new -/
  first : ρ'.first ≤ ρ.first
  /-- the block that may be written to -/
  home : ∀ l, ρ.home = some l → ρ'.Owns l
  /-- the blocks that may be gone to -/
  goals : ∀ l, ρ.goals l → ρ'.Sees l
  /-- whether variables may be declared -/
  declares : ρ.declares → ρ'.declares

/-- A larger realm owns more. -/
theorem Le.owns {ρ ρ' : Realm} (h : ρ.Le ρ') {l : Label} (hl : ρ.Owns l) : ρ'.Owns l := by
  rcases hl with hl | hl
  · exact .inl (Nat.le_trans h.first hl)
  · exact h.home l hl

end Realm

/-- Everything may be done. -/
def Realm.all : Realm := ⟨0, none, fun _ => False, True⟩

theorem Realm.owns_all (l : Label) : Realm.all.Owns l := .inl (Nat.zero_le _)

/-- Writing in a realm. -/
abbrev Writes (O : Outside) (ρ : Realm) : Site → Site → Prop := Steps O ρ.first ρ.home ρ.goals

/-- What is written in any realm is written. -/
theorem Writes.all {O : Outside} {ρ : Realm} {s s' : Site} (h : Writes O ρ s s') :
    Writes O .all s s' :=
  Steps.mono h (Nat.zero_le _) (fun l _ => Realm.owns_all l) fun _ _ => .inl (Nat.zero_le _)

namespace Site

/-- A function in good shape; if there is a point, it is at the end of an open block of the
realm. -/
structure Sane (ρ : Realm) (s : Site) : Prop where
  /-- labels are places -/
  tidy : s.func.Tidy
  /-- what is there hangs together -/
  shaped : s.func.Shaped
  /-- blocks that are still to be made are new -/
  first : ρ.first ≤ s.func.labels
  /-- the block at the point is open -/
  point : ∀ l, s.point = some l → (∃ b, s.func.At l b ∧ b.term = none) ∧ ρ.Owns l

/-- Writing can go on: there is a point. -/
structure Ready (ρ : Realm) (s : Site) : Prop extends Sane ρ s where
  /-- the point -/
  there : ∃ l, s.point = some l

/-- The realm of what is written at the point, and may go to some older blocks. -/
def realmWith (s : Site) (goals : Label → Prop) (declares : Prop) : Realm :=
  ⟨s.func.labels, s.point, goals, declares⟩

/-- The realm of what is written at the point, goes to no older block, and declares nothing. -/
def realm (s : Site) : Realm := s.realmWith (fun _ => False) False

/-- The result of an instruction can be used at the point. -/
def Offered (s : Site) (r : Nat) : Prop := ∃ l, s.point = some l ∧ s.Offers l r

/-- A value of a type can be used at the point. -/
structure Has (s : Site) (O : Outside) (v : Value) (τ : Ty) : Prop where
  /-- it is of the type -/
  type : v.type = τ
  /-- and refers to something of this type -/
  known : v.Known O s.func
  /-- that has been computed -/
  offered : ∀ r, v.reg? = some r → s.Offered r

/-- An open block at which writing does not go on. -/
def Idle (s : Site) (l : Label) : Prop :=
  ∃ b, s.func.At l b ∧ b.term = none ∧ s.point ≠ some l

/-- Code has been written from an open block to an open block, in which everything can be used that
could be used in the first. -/
structure Keeps (O : Outside) (ρ : Realm) (s s' : Site) : Prop where
  /-- by steps -/
  steps : Writes O ρ s s'
  /-- writing can go on -/
  ready : s'.Ready ρ
  /-- nothing is lost -/
  offered : ∀ r, s.Offered r → s'.Offered r

/-- Besides, no further block is left open. -/
structure Leads (O : Outside) (ρ : Realm) (s s' : Site) : Prop extends s.Keeps O ρ s' where
  /-- all blocks that were made are ended, but for the one at the point -/
  closed : ∀ l, s'.Idle l → s.Idle l

variable {O : Outside} {ρ : Realm} {s s' s'' : Site}

/-- A value that is there at the point can be used there. -/
theorem Has.canUse {v : Value} {τ : Ty} (h : s.Has O v τ) {l : Label} (hl : s.point = some l) :
    s.CanUse O l v := by
  refine ⟨h.known, fun r hr => ?_⟩
  obtain ⟨k, hk, hoffers⟩ := h.offered r hr
  rw [hl] at hk
  obtain rfl := Option.some.inj hk
  exact hoffers

/-- Constants can be used everywhere. -/
theorem Has.const (s : Site) (O : Outside) (c : Const) : s.Has O (.const c) c.type :=
  ⟨rfl, trivial, fun _ hr => by cases hr⟩

theorem Has.int (s : Site) (O : Outside) (v : Int) : s.Has O (.int v) .i32 := Has.const s O (.int v)

theorem Has.index (s : Site) (O : Outside) (i : Nat) : s.Has O (.index i) .i32 := Has.int s O i

/-- The zero of a type can be used anywhere. -/
theorem Has.zero (s : Site) (O : Outside) (t : DataType) : s.Has O (.zero t) (Ty.ofData t) := by
  have h := Has.const s O (.zeroOf t)
  rw [Const.type_zeroOf] at h
  exact h

/-- The open block at the point. -/
theorem Ready.isOpen (h : s.Ready ρ) :
    ∃ l b, s.point = some l ∧ s.func.At l b ∧ b.term = none ∧ ρ.Owns l := by
  obtain ⟨l, hl⟩ := h.there
  obtain ⟨⟨b, hb, ho⟩, hown⟩ := h.point l hl
  exact ⟨l, b, hl, hb, ho, hown⟩

/-- The point belongs to the smallest realms. -/
theorem Ready.innerWith (h : s.Ready ρ) (goals : Label → Prop) (declares : Prop) :
    s.Ready (s.realmWith goals declares) :=
  ⟨⟨h.tidy, h.shaped, Nat.le_refl _, fun l hl => ⟨(h.point l hl).1, .inr hl⟩⟩, h.there⟩

theorem Ready.inner (h : s.Ready ρ) : s.Ready s.realm := h.innerWith _ _

/-- A site where code has been written that ends at an open block of the realm. -/
theorem Sane.of_writes (h : s.Sane ρ) (hw : Writes O ρ s s')
    (hp : ∀ l, s'.point = some l → (∃ b, s'.func.At l b ∧ b.term = none) ∧ ρ.Owns l) :
    s'.Sane ρ :=
  ⟨Steps.tidy hw h.tidy, Steps.shaped hw h.tidy h.shaped,
    Nat.le_trans h.first (Steps.le hw).labels, hp⟩

/-- The smallest realms are part of every one to which the point belongs. -/
theorem Ready.realmWith_le (h : s.Ready ρ) {goals : Label → Prop} {declares : Prop}
    (hg : ∀ l, goals l → ρ.Sees l) (hd : declares → ρ.declares) :
    (s.realmWith goals declares).Le ρ :=
  ⟨h.first, fun l hl => (h.point l hl).2, hg, hd⟩

theorem Ready.realm_le (h : s.Ready ρ) : s.realm.Le ρ := h.realmWith_le (fun _ hf => hf.elim) nofun

/-- What is sane in a realm is sane in a larger one. -/
theorem Sane.widen {ρ' : Realm} (h : s.Sane ρ') (hρ : ρ'.Le ρ) : s.Sane ρ :=
  ⟨h.tidy, h.shaped, Nat.le_trans hρ.first h.first,
    fun l hl => ⟨(h.point l hl).1, hρ.owns (h.point l hl).2⟩⟩

namespace Keeps

/-- Going on keeps what is kept. -/
theorem trans (h₁ : s.Keeps O ρ s') (h₂ : s'.Keeps O ρ s'') : s.Keeps O ρ s'' where
  steps := h₁.steps.trans h₂.steps
  ready := h₂.ready
  offered := fun r hr => h₂.offered r (h₁.offered r hr)

theorem le (h : s.Keeps O ρ s') : s.func.Le s'.func := Steps.le h.steps

/-- A value can be used later on as well. -/
theorem has (h : s.Keeps O ρ s') {v : Value} {τ : Ty} (hv : s.Has O v τ) : s'.Has O v τ :=
  ⟨hv.type, hv.known.mono h.le, fun r hr => h.offered r (hv.offered r hr)⟩

/-- What happens in a realm happens in a larger one. -/
theorem widen {ρ' : Realm} (h : s.Keeps O ρ' s') (hρ : ρ'.Le ρ) : s.Keeps O ρ s' :=
  ⟨Steps.mono h.steps hρ.first hρ.home hρ.goals, ⟨h.ready.toSane.widen hρ, h.ready.there⟩,
    h.offered⟩

end Keeps

namespace Leads

theorem refl (h : s.Ready ρ) : s.Leads O ρ s := ⟨⟨.refl, h, fun _ hr => hr⟩, fun _ hl => hl⟩

theorem trans (h₁ : s.Leads O ρ s') (h₂ : s'.Leads O ρ s'') : s.Leads O ρ s'' :=
  ⟨h₁.toKeeps.trans h₂.toKeeps, fun l hl => h₁.closed l (h₂.closed l hl)⟩

theorem widen {ρ' : Realm} (h : s.Leads O ρ' s') (hρ : ρ'.Le ρ) : s.Leads O ρ s' :=
  ⟨h.toKeeps.widen hρ, h.closed⟩

end Leads

end Site

/-! ## Writing -/

/-- Writing succeeds at every site where it can go on, leads on, and ends with a result. -/
def Emits {α : Type} (O : Outside) (ρ : Realm) (act : Emit α) (s : Site)
    (Q : α → Site → Prop) : Prop :=
  s.Ready ρ → ∃ a s', act s.draft = .ok (a, s'.draft) ∧ s.Leads O ρ s' ∧ Q a s'

namespace Emits

variable {α β : Type} {O : Outside} {ρ : Realm} {s : Site}

theorem pure {a : α} {Q : α → Site → Prop} (h : Q a s) : Emits O ρ (Pure.pure a) s Q :=
  fun hs => ⟨a, s, rfl, .refl hs, h⟩

theorem bind {act : Emit α} {f : α → Emit β} {P : α → Site → Prop} {Q : β → Site → Prop}
    (h : Emits O ρ act s P) (hf : ∀ a s', s.Leads O ρ s' → P a s' → Emits O ρ (f a) s' Q) :
    Emits O ρ (act >>= f) s Q := by
  intro hs
  obtain ⟨a, s', hrun, hlead, ha⟩ := h hs
  obtain ⟨b, s'', hrun', hlead', hb⟩ := hf a s' hlead ha hlead.ready
  refine ⟨b, s'', ?_, hlead.trans hlead', hb⟩
  change Except.bind (act s.draft) _ = _
  rw [hrun]
  exact hrun'

/-- Less may be said of what is written. -/
theorem weaken {act : Emit α} {P Q : α → Site → Prop} (h : Emits O ρ act s P)
    (hPQ : ∀ a s', s.Leads O ρ s' → P a s' → Q a s') : Emits O ρ act s Q := by
  intro hs
  obtain ⟨a, s', hrun, hlead, ha⟩ := h hs
  exact ⟨a, s', hrun, hlead, hPQ a s' hlead ha⟩

theorem discard {act : Emit α} {Q : Unit → Site → Prop} (h : Emits O ρ act s fun _ => Q ()) :
    Emits O ρ (Functor.discard act) s Q :=
  bind h fun _ _ _ h => pure h

/-- A fold keeps what every round keeps. -/
theorem foldlM {f : β → α → Emit β} {P : β → Site → Prop} {l : List α} {b : β}
    (h : ∀ s' b, ∀ a ∈ l, s.Leads O ρ s' → P b s' → Emits O ρ (f b a) s' P) (hb : P b s) :
    Emits O ρ (l.foldlM f b) s P := by
  intro hs
  induction l generalizing s b with
  | nil => exact Emits.pure hb hs
  | cons a l ih =>
    rw [List.foldlM_cons]
    refine Emits.bind (h s b a List.mem_cons_self (.refl hs) hb) (fun c s' hlead hc => ?_) hs
    intro hs'
    exact ih (fun s'' d x hx hlead' => h s'' d x (List.mem_cons_of_mem _ hx) (hlead.trans hlead'))
      hc hs'

/-- The results for all elements of a list. -/
theorem mapM {f : α → Emit β} {P : β → Site → Prop} {l : List α}
    (hmono : ∀ b s₁ s₂, s₁.Leads O ρ s₂ → P b s₁ → P b s₂)
    (h : ∀ s', ∀ a ∈ l, s.Leads O ρ s' → Emits O ρ (f a) s' P) :
    Emits O ρ (l.mapM f) s fun bs s' => bs.length = l.length ∧ ∀ b ∈ bs, P b s' := by
  intro hs
  induction l generalizing s with
  | nil => exact Emits.pure ⟨rfl, fun _ hb => by cases hb⟩ hs
  | cons a l ih =>
    rw [List.mapM_cons]
    refine Emits.bind (h s a List.mem_cons_self (.refl hs)) (fun b s' hlead hb => ?_) hs
    refine Emits.bind (fun hs' => ih (fun s'' x hx hlead' =>
      h s'' x (List.mem_cons_of_mem _ hx) (hlead.trans hlead')) hs') fun bs s'' hlead' hbs => ?_
    refine Emits.pure ⟨by simp [hbs.1], fun c hc => ?_⟩
    rcases List.mem_cons.1 hc with rfl | hc
    · exact hmono _ _ _ hlead' hb
    · exact hbs.2 c hc

end Emits

/-! ### The primitives -/

section

variable {O : Outside} {ρ : Realm} {s : Site}

/-- The block at the point is there, and not even a guarded draft refuses it. -/
theorem Emit.openPoint_run (ht : s.func.Tidy) {l : Label} {b : Block} (hl : s.point = some l)
    (hb : s.func.At l b) (ho : b.term = none) : Emit.openPoint s.draft = .ok (l, s.draft) := by
  have hopen : s.draft.isOpen l = true := by
    have hfind := ht.block?_eq hb
    rw [Func.block?, Func.allBlocks, ht.detached, List.append_nil] at hfind
    simp [Draft.isOpen, hfind, ho]
  simp only [Emit.openPoint, bind, StateT.bind, get, getThe, MonadStateOf.get, StateT.get, pure,
    Except.pure, Except.bind, hl, hopen]
  rw [Bool.not_true, Bool.and_false, if_neg Bool.false_ne_true]
  rfl

/-- An instruction at the end of an open block is no fault. -/
theorem Emit.append_run (ht : s.func.Tidy) {l : Label} {b : Block} (hl : s.point = some l)
    (hb : s.func.At l b) (ho : b.term = none) {inst : Inst} {τ : Ty} (hτ : inst.type? = some τ) :
    Emit.append inst s.draft =
      .ok (.result s.func.id s.func.regs "" τ, (s.withFunc (s.func.put l inst)).draft) := by
  simp only [Emit.append, hτ]
  change Except.bind (Emit.openPoint s.draft) _ = _
  rw [Emit.openPoint_run ht hl hb ho]
  rfl

/-- Ending an open block is no fault. -/
theorem Emit.terminate_run (ht : s.func.Tidy) {l : Label} {b : Block} (hl : s.point = some l)
    (hb : s.func.At l b) (ho : b.term = none) {term : Term} :
    Emit.terminate term s.draft = .ok ((), (s.withFunc (s.func.close l term)).draft) := by
  simp only [Emit.terminate]
  change Except.bind (Emit.openPoint s.draft) _ = _
  rw [Emit.openPoint_run ht hl hb ho]
  rfl

/-- The result of an instruction at the end of a block. -/
theorem Site.has_put {l : Label} {b : Block} (hl : s.point = some l) (hb : s.func.At l b)
    {inst : Inst} {τ : Ty} (hτ : inst.type? = some τ) :
    (s.withFunc (s.func.put l inst)).Has O (.result s.func.id s.func.regs "" τ) τ := by
  have hat : (s.func.put l inst).At l (s.func.withLine inst b) := Func.at_put_self hb
  have hmem : ({ reg := s.func.regs, inst } : Line) ∈ (s.func.withLine inst b).lines :=
    List.mem_append_right _ (List.mem_singleton.2 rfl)
  refine ⟨rfl, ⟨rfl, l, _, _, hat, hmem, rfl, rfl, hτ⟩, fun r hr => ?_⟩
  obtain rfl := Option.some.inj hr
  exact ⟨l, hl, .inl ⟨_, hat, .inr (List.mem_map.2 ⟨_, hmem, rfl⟩)⟩⟩

theorem Site.Ready.put {l : Label} {b : Block} (h : s.Ready ρ) (hl : s.point = some l)
    (hb : s.func.At l b) (ho : b.term = none) (hown : ρ.Owns l) {inst : Inst}
    (hstep : Step O ρ.first ρ.home ρ.goals s (s.withFunc (s.func.put l inst))) :
    s.Leads O ρ (s.withFunc (s.func.put l inst)) where
  steps := .single hstep
  ready := ⟨h.of_writes (.single hstep) fun k hk => by
    obtain rfl : l = k := Option.some.inj (hl.symm.trans hk)
    exact ⟨⟨_, Func.at_put_self hb, ho⟩, hown⟩, l, hl⟩
  offered := fun _ ⟨k, hk, hr⟩ => ⟨k, hk, hstep.offers h.tidy hr⟩
  closed := fun k ⟨c, hc, hopen, hk⟩ => by
    have hne : k ≠ l := by
      rintro rfl
      exact hk hl
    exact ⟨c, (Func.at_put_ne hne).1 hc, hopen, hk⟩

/-- An instruction at the point. -/
theorem Emits.append_puts {inst : Inst} {τ : Ty} (ha : inst.isAlloca = false)
    (hi : inst.incoming? = none) (hty : inst.WellTyped O) (hτ : inst.type? = some τ)
    (hv : ∀ v ∈ inst.operands, ∃ σ, s.Has O v σ) :
    Emits O ρ (Emit.append inst) s fun v s' => s'.Has O v τ ∧ s.draft.Puts inst v s'.draft := by
  intro hs
  obtain ⟨l, b, hl, hb, ho, hown⟩ := hs.isOpen
  have hstep : Step O ρ.first ρ.home ρ.goals s (s.withFunc (s.func.put l inst)) :=
    .put hl hb ho hown ha hi hty fun v hmem => by
      obtain ⟨σ, hσ⟩ := hv v hmem
      exact hσ.canUse hl
  exact ⟨_, _, Emit.append_run hs.tidy hl hb ho hτ, hs.put hl hb ho hown hstep,
    Site.has_put hl hb hτ, l, b, τ, hl, hb, rfl, hτ, rfl⟩

/-- A well typed instruction with operands that can be used is written, and its result can be used.
-/
theorem Emits.append {inst : Inst} {τ : Ty} (ha : inst.isAlloca = false)
    (hi : inst.incoming? = none) (hty : inst.WellTyped O) (hτ : inst.type? = some τ)
    (hv : ∀ v ∈ inst.operands, ∃ σ, s.Has O v σ) :
    Emits O ρ (Emit.append inst) s fun v s' => s'.Has O v τ :=
  (append_puts ha hi hty hτ hv).weaken fun _ _ _ h => h.1

end

end Shader.Ir

namespace Shader.Scopes

variable {τ α : Type} {P Q : Symbol τ α → Prop} {s s' s'' : Scopes τ α}

/-- Only the innermost frame has got more declarations, of some kind. -/
def Extends (P : Symbol τ α → Prop) (s s' : Scopes τ α) : Prop :=
  ∃ more, s' = s.setTop (s.top ++ more) ∧ ∀ sym ∈ more, P sym

theorem Extends.mono (h : s.Extends P s') (hPQ : ∀ sym, P sym → Q sym) : s.Extends Q s' := by
  obtain ⟨more, rfl, hmore⟩ := h
  exact ⟨more, rfl, fun sym hsym => hPQ sym (hmore sym hsym)⟩

theorem Extends.refl (P : Symbol τ α → Prop) (s : Scopes τ α) : s.Extends P s :=
  ⟨[], by rcases s with ⟨_ | ⟨f, inner⟩, root⟩ <;> simp [setTop, top], fun _ h => by cases h⟩

theorem Extends.trans (h₁ : s.Extends P s') (h₂ : s'.Extends Q s'') (hPQ : ∀ sym, P sym → Q sym) :
    s.Extends Q s'' := by
  obtain ⟨more, rfl, hmore⟩ := h₁
  obtain ⟨more', rfl, hmore'⟩ := h₂
  refine ⟨more ++ more', ?_, fun sym hsym => ?_⟩
  · rcases s with ⟨_ | ⟨f, inner⟩, root⟩ <;> simp [setTop, top, List.append_assoc]
  · rcases List.mem_append.1 hsym with hsym | hsym
    · exact hPQ sym (hmore sym hsym)
    · exact hmore' sym hsym

/-- A scope that has been opened can be closed, and then everything is as it was. -/
theorem Extends.exit? (h : s.enter.Extends P s') : s'.exit? = some s := by
  obtain ⟨more, rfl, -⟩ := h
  rfl

/-- A declaration in view is an earlier one or a new one. -/
theorem Extends.mem (h : s.Extends P s') {frame : Frame τ α} (hframe : frame ∈ s'.frames)
    {sym : Symbol τ α} (hsym : sym ∈ frame) : (∃ frame ∈ s.frames, sym ∈ frame) ∨ P sym := by
  obtain ⟨more, rfl, hmore⟩ := h
  have hframes : frame ∈ s.frames ∨ frame = s.top ++ more := by
    rcases s with ⟨_ | ⟨top, inner⟩, root⟩
    · exact .inr (List.mem_singleton.1 hframe)
    · rcases List.mem_cons.1 hframe with rfl | hframe
      · exact .inr rfl
      · exact .inl (List.mem_cons_of_mem _ hframe)
  have htop : s.top ∈ s.frames := by
    rcases s with ⟨_ | ⟨top, inner⟩, root⟩ <;> exact List.mem_cons_self
  rcases hframes with hold | rfl
  · exact .inl ⟨frame, hold, hsym⟩
  · rcases List.mem_append.1 hsym with hold | hnew
    · exact .inl ⟨_, htop, hold⟩
    · exact .inr (hmore sym hnew)

end Shader.Scopes

namespace Shader.Lowering

open Ir

/-! ## Declared variables -/

/-- A declared variable has room of its type that can be used everywhere in a function. -/
structure SymbolSound (O : Outside) (f : Func) (sym : Symbol DataType Value) : Prop where
  /-- it has values -/
  noVoid : sym.type ≠ .void
  /-- its address is one of such a value -/
  type : sym.handle.type = .pointer (Ty.ofData sym.type)
  /-- and refers to something -/
  known : sym.handle.Known O f
  /-- which is there from the start -/
  slot : ∀ r, sym.handle.reg? = some r → f.IsSlot r

theorem SymbolSound.mono {O : Outside} {f f' : Func} {sym : Symbol DataType Value}
    (h : SymbolSound O f sym) (hle : f.Le f') : SymbolSound O f' sym :=
  ⟨h.noVoid, h.type, h.known.mono hle, fun r hr => (h.slot r hr).mono hle⟩

/-- All variables in view have room. -/
def ScopesSound (O : Outside) (f : Func) (σ : Scopes DataType Value) : Prop :=
  ∀ frame ∈ σ.frames, ∀ sym ∈ frame, SymbolSound O f sym

/-- Names stay sound where the code goes on. -/
theorem ScopesSound.mono {O : Outside} {f f' : Func} {σ : Scopes DataType Value}
    (h : ScopesSound O f σ) (hle : f.Le f') : ScopesSound O f' σ :=
  fun frame hframe sym hsym => (h frame hframe sym hsym).mono hle

theorem ScopesSound.enter {O : Outside} {f : Func} {σ : Scopes DataType Value}
    (h : ScopesSound O f σ) : ScopesSound O f σ.enter := by
  intro frame hframe sym hsym
  rcases List.mem_cons.1 hframe with rfl | hframe
  · cases hsym
  · exact h frame hframe sym hsym

/-- Names that are declared soundly are added to sound ones. -/
theorem ScopesSound.extends {O : Outside} {f : Func} {σ σ' : Scopes DataType Value}
    (h : ScopesSound O f σ) (hσ : σ.Extends (SymbolSound O f) σ') : ScopesSound O f σ' := by
  intro frame hframe sym hsym
  rcases hσ.mem hframe hsym with ⟨frame', hframe', hsym'⟩ | hnew
  · exact h frame' hframe' sym hsym'
  · exact hnew

/-! ## Walking -/

/-- A walk over a definition at some time: its state, and what control brings along to each
block. -/
structure Walk where
  /-- the state -/
  body : Body
  /-- the instructions that have been carried out whenever control comes to a block -/
  given : Nat → Set Nat

namespace Walk

/-- Where the walk writes. -/
def site (x : Walk) : Site := ⟨x.body.draft, x.given⟩

/-- The walk with other code. -/
def withSite (x : Walk) (s : Site) : Walk := ⟨{ x.body with draft := s.draft }, s.given⟩

/-- What is declared. -/
abbrev scopes (x : Walk) : Scopes DataType Value := x.body.scopes

/-- The walk has written in the realm, and has declared variables with room in the innermost scope
only, if any. -/
structure Goes (O : Outside) (ρ : Realm) (x x' : Walk) : Prop where
  /-- by steps -/
  writes : Writes O ρ x.site x'.site
  /-- what is there is in good shape -/
  sane : x'.site.Sane ρ
  /-- the scopes around the innermost one are as they were -/
  scopes : x.scopes.Extends (fun sym => ρ.declares ∧ SymbolSound O x'.site.func sym) x'.scopes

/-- The walk has led on, and has declared nothing. -/
structure Leads (O : Outside) (ρ : Realm) (x x' : Walk) : Prop where
  /-- the code leads on -/
  site : x.site.Leads O ρ x'.site
  /-- the same names are in scope -/
  scopes : x'.scopes = x.scopes

/-- Code has been added, and nothing has been declared. -/
structure Onward (x x' : Walk) : Prop where
  /-- what was there has grown -/
  le : x.site.func.Le x'.site.func
  /-- the same names are in scope -/
  scopes : x'.scopes = x.scopes

variable {O : Outside} {ρ : Realm} {x x' x'' : Walk}

theorem Goes.refl (h : x.site.Sane ρ) : x.Goes O ρ x := ⟨.refl, h, .refl _ _⟩

theorem Goes.le (h : x.Goes O ρ x') : x.site.func.Le x'.site.func := Steps.le h.writes

theorem Goes.trans (h₁ : x.Goes O ρ x') (h₂ : x'.Goes O ρ x'') : x.Goes O ρ x'' :=
  ⟨h₁.writes.trans h₂.writes, h₂.sane,
    h₁.scopes.trans h₂.scopes fun _ hsym => ⟨hsym.1, hsym.2.mono h₂.le⟩⟩

/-- All variables keep their room. -/
theorem Goes.scopesSound (h : x.Goes O ρ x') (hσ : ScopesSound O x.site.func x.scopes) :
    ScopesSound O x'.site.func x'.scopes :=
  (hσ.mono h.le).extends (h.scopes.mono fun _ hsym => hsym.2)

/-- Where nothing may be declared, nothing is. -/
theorem Goes.scopes_eq (h : x.Goes O ρ x') (hρ : ¬ ρ.declares) : x'.scopes = x.scopes := by
  obtain ⟨more, hσ, hmore⟩ := h.scopes
  rcases more with _ | ⟨sym, more⟩
  · rw [hσ]
    rcases x.scopes with ⟨_ | ⟨f, inner⟩, root⟩ <;> simp [Scopes.setTop, Scopes.top]
  · exact absurd (hmore sym List.mem_cons_self).1 hρ

theorem Goes.widen {ρ' : Realm} (h : x.Goes O ρ' x') (hρ : ρ'.Le ρ) : x.Goes O ρ x' :=
  ⟨Steps.mono h.writes hρ.first hρ.home hρ.goals, h.sane.widen hρ,
    h.scopes.mono fun _ hsym => ⟨hρ.declares hsym.1, hsym.2⟩⟩

theorem Leads.refl (h : x.site.Ready ρ) : x.Leads O ρ x := ⟨.refl h, rfl⟩

theorem Leads.trans (h₁ : x.Leads O ρ x') (h₂ : x'.Leads O ρ x'') : x.Leads O ρ x'' :=
  ⟨h₁.site.trans h₂.site, h₂.scopes.trans h₁.scopes⟩

theorem Leads.onward (h : x.Leads O ρ x') : x.Onward x' := ⟨h.site.le, h.scopes⟩

theorem Leads.goes (h : x.Leads O ρ x') : x.Goes O ρ x' :=
  ⟨h.site.steps, h.site.ready.toSane, h.scopes ▸ .refl _ _⟩

theorem Leads.scopesSound (h : x.Leads O ρ x') (hσ : ScopesSound O x.site.func x.scopes) :
    ScopesSound O x'.site.func x'.scopes := h.goes.scopesSound hσ

end Walk

/-- Writing one thing after another. -/
theorem emit_bind {α β : Type} (first : Emit α) (second : α → Emit β) :
    emit (first >>= second) = emit first >>= fun a => emit (second a) := by
  funext b
  change Except.bind (Except.bind (first b.draft) _) _ =
    Except.bind (Except.bind (first b.draft) _) _
  rcases first b.draft with e | ⟨a, d⟩ <;> rfl

/-- A result that is not asked for. -/
theorem discard_bind {α β : Type} (act : Lower α) (rest : Unit → Lower β) :
    discard act >>= rest = act >>= fun _ => rest () := by
  change (act >>= fun _ => pure ()) >>= rest = _
  rw [bind_assoc]
  rfl

/-- How a walk may end: with a failure, at a place where writing can go on, or with a result. -/
def Ends {α : Type} (ρ : Realm) (Q : α → Walk → Prop) : Except Failure α → Walk → Prop
  | .error _, x => x.site.Ready ρ
  | .ok a, x => Q a x

/-- A walk meets no fault, and ends. -/
def Walks {α : Type} (O : Outside) (ρ : Realm) (act : Lower α) (x : Walk)
    (Q : α → Walk → Prop) : Prop :=
  x.site.Sane ρ → ∃ r x', act.run x.body = .ok (r, x'.body) ∧ x.Goes O ρ x' ∧ Ends ρ Q r x'

namespace Walks

variable {α β : Type} {O : Outside} {ρ : Realm} {x : Walk}

theorem pure {a : α} {Q : α → Walk → Prop} (h : Q a x) : Walks O ρ (Pure.pure a) x Q :=
  fun hx => ⟨.ok a, x, rfl, .refl hx, h⟩

theorem fail {pos : Pos} {cause : Cause} {Q : α → Walk → Prop} (hx : x.site.Ready ρ) :
    Walks O ρ (Lowering.fail pos cause) x Q :=
  fun _ => ⟨.error ⟨pos, cause⟩, x, rfl, .refl hx.toSane, hx⟩

theorem bind {act : Lower α} {f : α → Lower β} {P : α → Walk → Prop} {Q : β → Walk → Prop}
    (h : Walks O ρ act x P) (hf : ∀ a x', x.Goes O ρ x' → P a x' → Walks O ρ (f a) x' Q) :
    Walks O ρ (act >>= f) x Q := by
  intro hx
  obtain ⟨r, x', hrun, hgoes, hr⟩ := h hx
  cases r with
  | error e =>
    refine ⟨.error e, x', ?_, hgoes, hr⟩
    change Except.bind (act.run x.body) _ = _
    rw [hrun]
    rfl
  | ok a =>
    obtain ⟨r', x'', hrun', hgoes', hr'⟩ := hf a x' hgoes hr hgoes.sane
    refine ⟨r', x'', ?_, hgoes.trans hgoes', hr'⟩
    change Except.bind (act.run x.body) _ = _
    rw [hrun]
    exact hrun'

theorem weaken {act : Lower α} {P Q : α → Walk → Prop} (h : Walks O ρ act x P)
    (hPQ : ∀ a x', x.Goes O ρ x' → P a x' → Q a x') : Walks O ρ act x Q := by
  intro hx
  obtain ⟨r, x', hrun, hgoes, hr⟩ := h hx
  refine ⟨r, x', hrun, hgoes, ?_⟩
  cases r with
  | error e => exact hr
  | ok a => exact hPQ a x' hgoes hr

theorem discard {act : Lower α} {Q : Unit → Walk → Prop} (h : Walks O ρ act x fun _ => Q ()) :
    Walks O ρ (Functor.discard act) x Q :=
  bind h fun _ _ _ h => pure h

/-- Another cause for a failure. -/
theorem insteadOf {act : Lower α} {pos : Pos} {cause : Cause} {Q : α → Walk → Prop}
    (h : Walks O ρ act x Q) : Walks O ρ (Lowering.insteadOf act pos cause) x Q := by
  intro hx
  obtain ⟨r, x', hrun, hgoes, hr⟩ := h hx
  cases r with
  | error e =>
    refine ⟨.error ⟨pos, cause⟩, x', ?_, hgoes, hr⟩
    change Except.bind (act.run x.body) _ = _
    rw [hrun]
    rfl
  | ok a =>
    refine ⟨.ok a, x', ?_, hgoes, hr⟩
    change Except.bind (act.run x.body) _ = _
    rw [hrun]
    rfl

/-- Writing whose outcome is known. -/
theorem emit_run {act : Emit α} {a : α} {s' : Site} {Q : α → Walk → Prop}
    (hrun : act x.site.draft = .ok (a, s'.draft)) (hw : Writes O ρ x.site s') (hs : s'.Sane ρ)
    (h : Q a (x.withSite s')) : Walks O ρ (Lowering.emit act) x Q := by
  intro _
  refine ⟨.ok a, x.withSite s', ?_, ⟨hw, hs, .refl _ _⟩, h⟩
  change Except.bind (act x.site.draft) _ = _
  rw [hrun]
  rfl

/-- Writing twice; in between, the point need not be at an open block. -/
theorem emit_emit {β γ : Type} {first : Emit α} {second : α → Emit β} {rest : α → β → Lower γ}
    {Q : γ → Walk → Prop} {a : α} {b : β} {d : Draft} {s' : Site}
    (hfirst : first x.site.draft = .ok (a, d)) (hsecond : second a d = .ok (b, s'.draft))
    (hw : Writes O ρ x.site s') (hs : s'.Sane ρ) (h : Walks O ρ (rest a b) (x.withSite s') Q) :
    Walks O ρ (Lowering.emit first >>= fun a => Lowering.emit (second a) >>= rest a) x Q := by
  intro _
  obtain ⟨r, x', hrun, hgoes, hr⟩ := h hs
  have hgoes₁ : x.Goes O ρ (x.withSite s') := ⟨hw, hs, .refl _ _⟩
  refine ⟨r, x', ?_, hgoes₁.trans hgoes, hr⟩
  change Except.bind (Except.bind (first x.site.draft) _) _ = _
  rw [hfirst]
  change Except.bind (Except.bind (second a d) _) _ = _
  rw [hsecond]
  exact hrun

/-- A walk in a smaller realm. -/
theorem within {ρ' : Realm} {act : Lower α} {Q : α → Walk → Prop} (hx : x.site.Sane ρ')
    (hρ : ρ'.Le ρ) (h : Walks O ρ' act x Q) :
    Walks O ρ act x fun a x' => x.Goes O ρ' x' ∧ Q a x' := by
  intro _
  obtain ⟨r, x', hrun, hgoes, hr⟩ := h hx
  refine ⟨r, x', hrun, hgoes.widen hρ, ?_⟩
  cases r with
  | error e => exact ⟨hr.toSane.widen hρ, hr.there⟩
  | ok a => exact ⟨hgoes, hr⟩

theorem widen {ρ' : Realm} {act : Lower α} {Q : α → Walk → Prop} (hx : x.site.Sane ρ')
    (hρ : ρ'.Le ρ) (h : Walks O ρ' act x Q) : Walks O ρ act x Q :=
  (within hx hρ h).weaken fun _ _ _ h => h.2

theorem unassoc {γ : Type} {act : Lower α} {f : α → Lower β} {rest : β → Lower γ}
    {Q : γ → Walk → Prop} (h : Walks O ρ ((act >>= f) >>= rest) x Q) :
    Walks O ρ (act >>= fun a => f a >>= rest) x Q := by
  rw [bind_assoc] at h
  exact h

/-- Two results, of which both are used later. -/
theorem pair {γ : Type} {first : Lower α} {second : α → Lower β} {rest : α → β → Lower γ}
    {Q : γ → Walk → Prop} (h : Walks O ρ ((do
      let a ← first
      let b ← second a
      return (a, b)) >>= fun p => rest p.1 p.2) x Q) :
    Walks O ρ (first >>= fun a => second a >>= rest a) x Q := by
  simpa only [bind_assoc, pure_bind] using h

theorem assoc {γ : Type} {act : Lower α} {f : α → Lower β} {rest : β → Lower γ}
    {Q : γ → Walk → Prop} (h : Walks O ρ (act >>= fun a => f a >>= rest) x Q) :
    Walks O ρ ((act >>= f) >>= rest) x Q := by
  rw [bind_assoc]
  exact h

/-- A walk that fails unless a condition holds. -/
theorem check {p : Prop} {_ : Decidable p} {pos : Pos} {cause : Cause} {rest : Unit → Lower α}
    {Q : α → Walk → Prop} (hx : x.site.Ready ρ) (h : ¬ p → Walks O ρ (rest ()) x Q) :
    Walks O ρ (if p then Lowering.fail pos cause >>= rest else rest ()) x Q := by
  split
  next => exact bind (P := fun _ _ => False) (fail hx) fun _ _ _ hf => hf.elim
  next hp => exact h hp

end Walks

/-- A walk over an expression meets no fault; if it does not fail, it leads on to a result. -/
def Lowers {α : Type} (O : Outside) (ρ : Realm) (act : Lower α) (x : Walk)
    (Q : α → Walk → Prop) : Prop :=
  x.site.Ready ρ → Walks O ρ act x fun a x' => x.Leads O ρ x' ∧ Q a x'

namespace Lowers

variable {α β : Type} {O : Outside} {ρ : Realm} {x : Walk}

theorem pure {a : α} {Q : α → Walk → Prop} (h : Q a x) : Lowers O ρ (Pure.pure a) x Q :=
  fun hx => Walks.pure ⟨.refl hx, h⟩

theorem fail {pos : Pos} {cause : Cause} {Q : α → Walk → Prop} :
    Lowers O ρ (Lowering.fail pos cause) x Q :=
  fun hx => Walks.fail hx

theorem bind {act : Lower α} {f : α → Lower β} {P : α → Walk → Prop} {Q : β → Walk → Prop}
    (h : Lowers O ρ act x P) (hf : ∀ a x', x.Leads O ρ x' → P a x' → Lowers O ρ (f a) x' Q) :
    Lowers O ρ (act >>= f) x Q := by
  intro hx
  refine Walks.bind (h hx) fun a x' _ ha => ?_
  refine (hf a x' ha.1 ha.2 ha.1.site.ready).weaken fun b x'' _ hb => ?_
  exact ⟨ha.1.trans hb.1, hb.2⟩

/-- Two results, of which both are used later. -/
theorem pair {γ : Type} {first : Lower α} {second : α → Lower β} {rest : α → β → Lower γ}
    {Q : γ → Walk → Prop} (h : Lowers O ρ ((do
      let a ← first
      let b ← second a
      return (a, b)) >>= fun p => rest p.1 p.2) x Q) :
    Lowers O ρ (first >>= fun a => second a >>= rest a) x Q :=
  fun hx => Walks.pair (h hx)

theorem unassoc {γ : Type} {act : Lower α} {f : α → Lower β} {rest : β → Lower γ}
    {Q : γ → Walk → Prop} (h : Lowers O ρ ((act >>= f) >>= rest) x Q) :
    Lowers O ρ (act >>= fun a => f a >>= rest) x Q :=
  fun hx => Walks.unassoc (h hx)

theorem weaken {act : Lower α} {P Q : α → Walk → Prop} (h : Lowers O ρ act x P)
    (hPQ : ∀ a x', x.Leads O ρ x' → P a x' → Q a x') : Lowers O ρ act x Q :=
  fun hx => (h hx).weaken fun a x' _ ha => ⟨ha.1, hPQ a x' ha.1 ha.2⟩

theorem map {act : Lower α} {f : α → β} {P : α → Walk → Prop} {Q : β → Walk → Prop}
    (h : Lowers O ρ act x P) (hf : ∀ a x', x.Leads O ρ x' → P a x' → Q (f a) x') :
    Lowers O ρ (f <$> act) x Q :=
  Lowers.bind h fun a x' hlead ha => Lowers.pure (hf a x' hlead ha)

theorem insteadOf {act : Lower α} {pos : Pos} {cause : Cause} {Q : α → Walk → Prop}
    (h : Lowers O ρ act x Q) : Lowers O ρ (Lowering.insteadOf act pos cause) x Q :=
  fun hx => Walks.insteadOf (h hx)

/-- Writing is a walk that does not fail. -/
theorem emit {act : Emit α} {Q : α → Site → Prop} (h : Emits O ρ act x.site Q) :
    Lowers O ρ (Lowering.emit act) x fun a x' => Q a x'.site := by
  intro hx
  obtain ⟨a, s', hrun, hlead, ha⟩ := h hx
  exact Walks.emit_run hrun hlead.steps hlead.ready.toSane ⟨⟨hlead, rfl⟩, ha⟩

/-- The type of a name is noted, which changes no code and no scope. -/
theorem bindName {n : Name} {t : DataType} {Q : Unit → Walk → Prop}
    (h : ∀ x', x'.site = x.site → x'.scopes = x.scopes → Q () x') :
    Lowers O ρ (Lowering.bindName n t) x Q := by
  intro hx _
  refine ⟨.ok (), ⟨{ x.body with bound := (n, t) :: x.body.bound }, x.given⟩, rfl,
    ⟨.refl, hx.toSane, .refl _ _⟩, ⟨.refl hx, rfl⟩, h _ rfl rfl⟩

theorem check {p : Prop} {_ : Decidable p} {pos : Pos} {cause : Cause} {rest : Unit → Lower α}
    {Q : α → Walk → Prop} (h : ¬ p → Lowers O ρ (rest ()) x Q) :
    Lowers O ρ (if p then Lowering.fail pos cause >>= rest else rest ()) x Q :=
  fun hx => Walks.check hx fun hp => h hp hx

end Lowers

end Shader.Lowering
