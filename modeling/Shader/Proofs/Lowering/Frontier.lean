import Shader.Proofs.Lowering.Forward
import Shader.Proofs.Lowering.Walking

/-!
# Where control can be when code ends

While statements without a loop are written, control can be at the end of some blocks: at the
point, and at blocks where it was sent and where writing has not gone on yet. Other blocks have been
made and wait, and maybe control never comes to them.

`Func.Frontier` says which open blocks control can come to. They are exactly those that it is sent
to at all, since nothing is written at a block that it cannot come to. Every walk over an expression
moves the point and changes nothing else of the frontier.
-/

namespace Shader.Ir

namespace Func

variable {f g : Func} {E W V : Set Label} {l k : Label} {b : Block} {t : Term}

/-- Control is sent to the block, or starts there. -/
def Targeted (f : Func) (l : Label) : Prop := l.index = 0 ∨ ∃ k b, f.At k b ∧ l ∈ b.successors

/-- The open blocks `E` are those that control can come to; the blocks `W` are open as well. -/
structure Frontier (f : Func) (E W : Set Label) : Prop where
  /-- labels are places -/
  tidy : f.Tidy
  /-- control goes to blocks of the function -/
  inside : ∀ l b, f.At l b → ∀ k ∈ b.successors, ∃ c, f.At k c
  /-- the blocks are open -/
  isOpen : ∀ l, l ∈ E ∨ l ∈ W → ∃ b, f.At l b ∧ b.term = none
  /-- control can come to the first ones -/
  reached : ∀ l ∈ E, f.Reachable l
  /-- and is sent to no others that are open -/
  covers : ∀ l b, f.At l b → b.term = none → f.Targeted l → l ∈ E

theorem Reachable.targeted (ht : f.Tidy) (h : f.Reachable l) : f.Targeted l := by
  obtain ⟨ls, hp⟩ := h
  cases hp with
  | entry he => exact .inl (ht.at_head he).2
  | next _ hb hl => exact .inr ⟨_, _, hb, hl⟩

namespace Frontier

/-- Control can come to an open block exactly if it is one of the frontier. -/
theorem reachable_iff (h : f.Frontier E W) (hb : f.At l b) (ho : b.term = none) :
    f.Reachable l ↔ l ∈ E :=
  ⟨fun hl => h.covers l b hb ho (hl.targeted h.tidy), h.reached l⟩

theorem weaken (h : f.Frontier E W) (hV : V ⊆ W) : f.Frontier E V :=
  { h with isOpen := fun l hl => h.isOpen l (hl.imp_right fun hl => hV hl) }

/-- The blocks that control can come to are the same in a function with the same ways. -/
theorem reachable_congr (h : f.Frontier E W) (htidy : g.Tidy)
    (hsame : ∀ l b, f.At l b → ∃ c, g.At l c ∧ c.successors = b.successors) :
    g.Reachable l ↔ f.Reachable l := by
  have hgo : ∀ {ls}, g.Path ls → f.Path ls ∧ ∀ l ∈ ls.head?, ∃ b, f.At l b := by
    intro ls hp
    induction hp with
    | @entry e he =>
      obtain ⟨hat, h0⟩ := htidy.at_head he
      obtain ⟨e', he'⟩ := Option.isSome_iff_exists.1 (List.isSome_head?.2 h.tidy.entry)
      obtain ⟨hat', h0'⟩ := h.tidy.at_head he'
      obtain ⟨c, hc, -⟩ := hsame _ _ hat'
      have hlabel := hat.label_ext hc (h0.trans h0'.symm)
      rw [hlabel]
      exact ⟨.entry he', by simpa using ⟨e', hat'⟩⟩
    | @next m n ms c _ hc hn ih =>
      obtain ⟨hp, hat⟩ := ih
      obtain ⟨b, hb⟩ := hat m rfl
      obtain ⟨c', hc', heq⟩ := hsame m b hb
      obtain rfl := hc.unique hc'
      rw [heq] at hn
      exact ⟨.next hp hb hn, by simpa using h.inside m b hb n hn⟩
  constructor
  · rintro ⟨ls, hp⟩
    exact ⟨ls, (hgo hp).1⟩
  · rintro ⟨ls, hp⟩
    refine ⟨ls, hp.transfer h.tidy fun m b hb => ?_⟩
    obtain ⟨c, hc, heq⟩ := hsame m b hb
    exact ⟨c, hc, fun n hn => heq ▸ hn⟩

/-- What is written inside blocks does not matter. -/
theorem congr (h : f.Frontier E W) (htidy : g.Tidy)
    (hto : ∀ l b, f.At l b → ∃ c, g.At l c ∧ c.term = b.term)
    (hback : ∀ l c, g.At l c → ∃ b, f.At l b ∧ c.term = b.term) : g.Frontier E W := by
  have hways : ∀ {b c : Block}, c.term = b.term → c.successors = b.successors := fun heq => by
    rw [Block.successors, Block.successors, heq]
  have hsame : ∀ l b, f.At l b → ∃ c, g.At l c ∧ c.successors = b.successors := fun l b hb =>
    (hto l b hb).imp fun _ hc => ⟨hc.1, hways hc.2⟩
  refine ⟨htidy, fun l c hc k hk => ?_, fun l hl => ?_, fun l hl => ?_, fun l c hc ho hl => ?_⟩
  · obtain ⟨b, hb, heq⟩ := hback l c hc
    obtain ⟨d, hd⟩ := h.inside l b hb k (hways heq ▸ hk)
    exact (hto k d hd).imp fun _ he => he.1
  · obtain ⟨b, hb, ho⟩ := h.isOpen l hl
    obtain ⟨c, hc, heq⟩ := hto l b hb
    exact ⟨c, hc, heq.trans ho⟩
  · exact (h.reachable_congr htidy hsame).2 (h.reached l hl)
  · obtain ⟨b, hb, heq⟩ := hback l c hc
    refine h.covers l b hb (heq.symm.trans ho) (hl.imp_right ?_)
    rintro ⟨k, d, hd, hl⟩
    obtain ⟨e, he, heq⟩ := hback k d hd
    exact ⟨k, e, he, hways heq ▸ hl⟩

/-! ### What is written -/

theorem put (h : f.Frontier E W) (hl : l ∈ E) (inst : Inst) : (f.put l inst).Frontier E W := by
  obtain ⟨b, hb, -⟩ := h.isOpen l (.inl hl)
  refine h.congr h.tidy.put (fun k c hc => ?_) fun k c hc => ?_
  · by_cases hk : k = l
    · subst hk
      obtain rfl := hc.unique hb
      exact ⟨_, at_put_self hb, rfl⟩
    · exact ⟨c, (at_put_ne hk).2 hc, rfl⟩
  · obtain ⟨d, hd, hterm⟩ := Forward.term_put hb hc
    exact ⟨d, hd, hterm.symm⟩

theorem reserve {type : DataType} {hint : String} (h : f.Frontier E W) :
    (f.reserve type hint).Frontier E W := by
  refine h.congr h.tidy.reserve (fun k c hc => ?_) fun k c hc => ?_
  · exact ⟨_, at_reserve.2 ⟨c, hc, rfl⟩, term_withSlot _ _⟩
  · obtain ⟨d, hd, rfl⟩ := at_reserve.1 hc
    exact ⟨d, hd, term_withSlot _ _⟩

theorem notMem_addBlock (h : f.Frontier E W) (hint : String) :
    (f.addBlock hint).1 ∉ E ∧ (f.addBlock hint).1 ∉ W := by
  have hnew : ¬((f.addBlock hint).1 ∈ E ∨ (f.addBlock hint).1 ∈ W) := fun hmem => by
    obtain ⟨b, hb, -⟩ := h.isOpen _ hmem
    exact Nat.lt_irrefl _ (h.tidy.lt_labels hb)
  exact not_or.1 hnew

/-- Nothing is sent to a new block. -/
theorem addBlock (h : f.Frontier E W) (hint : String) :
    (f.addBlock hint).2.Frontier E (insert (f.addBlock hint).1 W) := by
  have hle : f.Le (f.addBlock hint).2 := le_addBlock
  have hsent : ∀ l, (f.addBlock hint).2.Targeted l → f.Targeted l := fun l hl => by
    refine hl.imp_right ?_
    rintro ⟨k, c, hc, hl⟩
    rcases at_addBlock h.tidy hc with hc | ⟨-, rfl⟩
    · exact ⟨k, c, hc, hl⟩
    · simp [Block.successors] at hl
  have hnew : ¬ f.Targeted (f.addBlock hint).1 := by
    rintro (h0 | ⟨k, c, hc, hl⟩)
    · have hpos := List.length_pos_of_ne_nil h.tidy.entry
      rw [index_addBlock, h.tidy.count] at h0
      omega
    · obtain ⟨d, hd⟩ := h.inside k c hc _ hl
      exact Nat.lt_irrefl _ (h.tidy.lt_labels hd)
  refine ⟨h.tidy.addBlock, fun l c hc k hk => ?_, fun l hl => ?_, fun l hl => ?_,
    fun l c hc ho hl => ?_⟩
  · rcases at_addBlock h.tidy hc with hc | ⟨-, rfl⟩
    · exact hle.at (h.inside l c hc k hk).choose_spec
    · simp [Block.successors] at hk
  · by_cases heq : l = (f.addBlock hint).1
    · exact heq ▸ ⟨_, at_addBlock_new h.tidy, rfl⟩
    · obtain ⟨b, hb, ho⟩ := h.isOpen l (hl.imp_right fun hl => hl.resolve_left heq)
      exact ⟨b, at_addBlock_old hb, ho⟩
  · exact hle.reachable h.tidy (h.reached l hl)
  · rcases at_addBlock h.tidy hc with hc | ⟨rfl, -⟩
    · exact h.covers l c hc ho (hsent l hl)
    · exact absurd (hsent _ hl) hnew

/-- A block of the frontier sends control to others. -/
theorem close (h : f.Frontier E W) (hl : l ∈ E) (hW : l ∉ W)
    (hsucc : ∀ m ∈ t.successors, m ≠ l ∧ (m ∈ E ∨ m ∈ W)) :
    (f.close l t).Frontier (E \ {l} ∪ {m | m ∈ t.successors}) W := by
  obtain ⟨b, hb, ho⟩ := h.isOpen l (.inl hl)
  have hle : f.Le (f.close l t) := le_close hb ho
  have hself : (f.close l t).At l { b with term := some t } := at_close_self hb
  have hsplit : ∀ {m c}, (f.close l t).At m c →
      (m = l ∧ c = { b with term := some t }) ∨ m ≠ l ∧ f.At m c := fun {m c} hc => by
    by_cases hm : m = l
    · subst hm
      exact .inl ⟨rfl, hc.unique hself⟩
    · exact .inr ⟨hm, (at_close_ne hm).1 hc⟩
  have hkeep : ∀ m, m ≠ l → m ∈ E ∨ m ∈ W → ∃ c, (f.close l t).At m c ∧ c.term = none :=
    fun m hm hmem => (h.isOpen m hmem).imp fun c hc => ⟨(at_close_ne hm).2 hc.1, hc.2⟩
  refine ⟨h.tidy.close, fun m c hc k hk => ?_, fun m hm => ?_, fun m hm => ?_,
    fun m c hc hopen hm => ?_⟩
  · obtain ⟨rfl, rfl⟩ | ⟨-, hc⟩ := hsplit hc
    · obtain ⟨hne, hmem⟩ := hsucc k hk
      exact (hkeep k hne hmem).imp fun _ hd => hd.1
    · exact hle.at (h.inside m c hc k hk).choose_spec
  · rcases hm with (⟨hm, hne⟩ | hm) | hm
    · exact hkeep m hne (.inl hm)
    · exact hkeep m (hsucc m hm).1 (hsucc m hm).2
    · exact hkeep m (fun heq => hW (heq ▸ hm)) (.inr hm)
  · rcases hm with ⟨hm, -⟩ | hm
    · exact hle.reachable h.tidy (h.reached m hm)
    · obtain ⟨ls, hp⟩ := hle.reachable h.tidy (h.reached l hl)
      exact ⟨l :: ls, .next hp hself hm⟩
  · obtain ⟨rfl, rfl⟩ | ⟨hne, hc⟩ := hsplit hc
    · cases hopen
    rcases hm with h0 | ⟨k, d, hd, hm⟩
    · exact .inl ⟨h.covers m c hc hopen (.inl h0), hne⟩
    · obtain ⟨rfl, rfl⟩ | ⟨-, hd⟩ := hsplit hd
      · exact .inr hm
      · exact .inl ⟨h.covers m c hc hopen (.inr ⟨k, d, hd, hm⟩), hne⟩

end Frontier

end Func

end Shader.Ir

namespace Shader.Lowering

open Ir

/-! ## Walks that move the point -/

variable {α : Type} {E F W V : Set Label} {t : Term} {p : Option Label}

/-- Control can be at the point and at the blocks `E` when code ends. -/
structure Fronted (E W : Set Label) (d : Draft) : Prop where
  /-- these blocks are the frontier -/
  frontier : d.func.Frontier (E ∪ {l | d.point = some l}) W
  /-- and the point is none of the others -/
  apart : ∀ l, d.point = some l → l ∉ E ∧ l ∉ W

namespace Fronted

variable {d d' : Draft}

theorem append {inst : Inst} {v : Value} (h : Fronted E W d)
    (hrun : Emit.append inst d = .ok (v, d')) : Fronted E W d' := by
  obtain ⟨l, _, hl, -, -, rfl⟩ := Emit.append_cases hrun
  exact ⟨h.frontier.put (.inr hl) inst, h.apart⟩

theorem alloca {type : DataType} {name : String} {v : Value} (h : Fronted E W d)
    (hrun : Emit.alloca type name d = .ok (v, d')) : Fronted E W d' := by
  obtain ⟨-, -, rfl⟩ := Emit.alloca_cases hrun
  exact ⟨h.frontier.reserve, h.apart⟩

theorem newBlock {hint : String} {l : Label} (h : Fronted E W d)
    (hrun : Emit.newBlock hint d = .ok (l, d')) :
    (l ∉ E ∧ l ∉ W) ∧ Fronted E (insert l W) d' := by
  obtain ⟨rfl, rfl⟩ := Emit.newBlock_cases hrun
  obtain ⟨hE, hW⟩ := h.frontier.notMem_addBlock hint
  refine ⟨⟨fun hl => hE (.inl hl), hW⟩, h.frontier.addBlock hint, fun l hl => ?_⟩
  refine ⟨(h.apart l hl).1, ?_⟩
  rintro (rfl | hmem)
  · exact hE (.inr hl)
  · exact (h.apart l hl).2 hmem

/-- Control leaves the point for blocks that it can come to already or that wait. -/
theorem terminate {u : Unit} (h : Fronted E W d) (hrun : Emit.terminate t d = .ok (u, d'))
    (hsucc : ∀ m ∈ t.successors, m ∈ E ∨ m ∈ W) :
    d'.func.Frontier (E ∪ {m | m ∈ t.successors}) W := by
  obtain ⟨l, hl, rfl⟩ := Emit.terminate_cases hrun
  obtain ⟨hE, hW⟩ := h.apart l hl
  have hclosed := h.frontier.close (l := l) (t := t) (.inr hl) hW fun m hm =>
    ⟨by grind, (hsucc m hm).imp_left .inl⟩
  have hsame : (E ∪ {k | d.point = some k}) \ {l} = E := by
    ext k
    grind
  rwa [hsame] at hclosed

end Fronted

/-- A walk moves the point, and control can be nowhere else that it could not be before. -/
def Fronts {α : Type} (act : Lower α) : Prop := ∀ E W, Maintains (Fronted E W) act

theorem stepwise_fronts : Stepwise Fronts :=
  .all fun _ => .all fun _ => stepwise_maintains Fronted.append

theorem resolving_fronts : Resolving Fronts := .all fun _ => .all fun _ => resolving_maintains

theorem fronted_newBlock {hint : String} :
    Brings (fun b => Fronted E W b.draft) (emit (Emit.newBlock hint)) fun l b =>
      (l ∉ E ∧ l ∉ W) ∧ Fronted E (insert l W) b.draft :=
  .emit fun _ _ _ hb hrun => hb.newBlock hrun

theorem fronted_terminate (hsucc : ∀ m ∈ t.successors, m ∈ E ∨ m ∈ W) :
    Brings (fun b => Fronted E W b.draft) (emit (Emit.terminate t)) fun _ b =>
      b.draft.func.Frontier (E ∪ {m | m ∈ t.successors}) W :=
  .emit fun _ _ _ hb hrun => hb.terminate hrun hsucc

/-- Writing goes on at a block of the frontier, or nowhere. -/
theorem fronted_setPoint (hE : E = F ∪ {l | p = some l}) (hW : V ⊆ W)
    (hp : ∀ l, p = some l → l ∉ F ∧ l ∉ V) :
    Brings (fun b => b.draft.func.Frontier E W) (emit (Emit.setPoint p)) fun _ b =>
      Fronted F V b.draft := by
  refine .emit fun b _ d hb hrun => ?_
  cases hrun
  exact ⟨hE ▸ hb.weaken hW, hp⟩

/-- The block at the point is ended, and writing goes on at another block. -/
theorem fronted_jump {k : Label} (hsucc : ∀ m ∈ t.successors, m ∈ E ∨ m ∈ W)
    (hE : E ∪ {m | m ∈ t.successors} = insert k F) (hW : V ⊆ W) (hk : k ∉ F ∧ k ∉ V) :
    Brings (fun b => Fronted E W b.draft) (do
      emit (Emit.terminate t)
      emit (Emit.setPoint (some k))) fun _ b => Fronted F V b.draft := by
  refine .bind (fronted_terminate hsucc) fun _ => fronted_setPoint ?_ hW ?_
  · rw [hE]
    ext m
    grind
  · rintro l ⟨⟩
    exact hk

theorem fronted_goOn {Q : α → Body → Prop} {rest : Lower α} {k : Label}
    (hsucc : ∀ m ∈ t.successors, m ∈ E ∨ m ∈ W)
    (hE : E ∪ {m | m ∈ t.successors} = insert k F) (hW : V ⊆ W) (hk : k ∉ F ∧ k ∉ V)
    (hrest : Brings (fun b => Fronted F V b.draft) rest Q) :
    Brings (fun b => Fronted E W b.draft) (do
      emit (Emit.terminate t)
      emit (Emit.setPoint (some k))
      rest) Q := by
  have hjump := Brings.bind (fronted_jump hsucc hE hW hk) fun _ => hrest
  rwa [bind_assoc] at hjump

/-! ## Expressions -/

/-- The second operand of an operator that may skip it is a detour. -/
theorem fronts_detour {pos : Pos} {lc : Value} {rhs : Lower Operand} {cause : DataType → Cause}
    {hint hint' : String} (term : Label → Label → Term) (hrhs : Fronts rhs)
    (hterm : ∀ more done, ∀ m, m ∈ (term more done).successors ↔ m = more ∨ m = done) :
    Fronts (do
      let source ← emit Emit.openPoint
      let more ← emit (Emit.newBlock hint)
      let done ← emit (Emit.newBlock hint')
      emit (Emit.terminate (term more done))
      emit (Emit.setPoint (some more))
      let rc ← truthOf cause (← rhs)
      let last ← emit Emit.openPoint
      emit (Emit.terminate (.br done))
      emit (Emit.setPoint (some done))
      return Operand.value pos .int (← emit do
        Emit.fromBool (← Emit.phi [(lc, source), (rc, last)]))) := by
  intro E W
  have hsteps := stepwise_fronts.evaluating
  refine .bind maintains_openPoint fun source => .bind fronted_newBlock fun more => ?_
  refine .assuming fun hmore => .bind fronted_newBlock fun done => .assuming fun hdone => ?_
  refine fronted_goOn (F := insert done E) (V := W) ?_ ?_ ?_ ?_ ?_
  · grind
  · ext m
    grind
  · grind
  · grind
  refine .bind (hrhs _ _) fun x => .bind (stepwise_truthOf hsteps _ _) fun rc => ?_
  refine .bind maintains_openPoint fun last => ?_
  refine fronted_goOn (t := .br done) (F := E) (V := W) ?_ ?_ ?_ ?_ ?_
  · grind [Term.successors]
  · ext m
    grind [Term.successors]
  · grind
  · grind
  refine .bind (hsteps.emit (.bind .phi fun _ => .append rfl) E W) fun _ => ?_
  exact .pure fun _ hb => hb

theorem fronts_logical {pos : Pos} {op : LogicOp} {l : Operand} {rhs : Lower Operand}
    (hrhs : Fronts rhs) : Fronts (logical pos op l rhs) := by
  have hsteps := stepwise_fronts.evaluating
  cases op with
  | xor => exact stepwise_logical_xor hsteps hrhs
  | and =>
    refine stepwise_fronts.bind (stepwise_truthOf hsteps) fun lc => ?_
    exact fronts_detour (fun more done => .condBr lc more done) hrhs fun _ _ _ => by
      simp [Term.successors]
  | or =>
    refine stepwise_fronts.bind (stepwise_truthOf hsteps) fun lc => ?_
    exact fronts_detour (fun more done => .condBr lc done more) hrhs fun _ _ _ => by
      simp [Term.successors, or_comm]

/-- Control can be at the end of the first alternative while the second one is written. -/
theorem fronts_choice {pos : Pos} {c : Value} {yes no : Lower Operand} (hyes : Fronts yes)
    (hno : Fronts no) : Fronts (choice pos c yes no) := by
  intro E W
  have hsteps := stepwise_fronts.evaluating
  refine .bind fronted_newBlock fun whenTrue => .assuming fun htrue => ?_
  refine .bind fronted_newBlock fun whenFalse => .assuming fun hfalse => ?_
  refine .bind fronted_newBlock fun done => .assuming fun hdone => ?_
  refine fronted_goOn (t := .condBr c whenTrue whenFalse) (F := insert whenFalse E)
    (V := insert done W) ?_ ?_ ?_ ?_ ?_
  · simp [Term.successors]
  · ext m
    grind [Term.successors]
  · grind
  · grind
  refine .bind (hyes _ _) fun x => .bind (stepwise_alternative hsteps _ _) fun xv => ?_
  refine .bind maintains_openPoint fun xEnd => ?_
  refine fronted_goOn (t := .br done) (F := insert done E) (V := W) ?_ ?_ ?_ ?_ ?_
  · simp [Term.successors]
  · ext m
    grind [Term.successors]
  · grind
  · grind
  refine .bind (hno _ _) fun y => .bind (stepwise_otherwise hsteps _ _) fun yv => ?_
  refine .bind maintains_openPoint fun yEnd => ?_
  refine fronted_goOn (t := .br done) (F := E) (V := W) ?_ ?_ ?_ ?_ ?_
  · simp [Term.successors]
  · ext m
    grind [Term.successors]
  · exact fun _ hm => hm
  · grind
  split
  · exact .bind (hsteps.emit .phi E W) fun _ => .pure fun _ hb => hb
  · exact .pure fun _ hb => hb

theorem splitting_fronts : Splitting Fronts where
  toStepwise := stepwise_fronts
  logical := fronts_logical
  choice := fronts_choice

/-- Walks over expressions move the point. -/
theorem fronts_expr {Γ : Signatures} {e : Expr} : Fronts (expr Γ e) :=
  stepwise_expr stepwise_fronts resolving_fronts (.inr splitting_fronts)

end Shader.Lowering
