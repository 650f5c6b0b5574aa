import Mathlib.Data.Set.Insert
import Shader.Proofs.Ir.Dominance
import Shader.Proofs.Lowering.Success

/-!
# Code that only goes forward

The code of an expression has no loop. Control leaves a block for one that has been made since and
is still empty, and every block that is made is gone to before the code is complete. So instructions
are carried out in the order of their numbers, whichever way control takes, and nothing is written
that control cannot come to.

`Func.Forward` says this of a function that is being written. Some blocks may wait: they have been
made, and control has not come to them yet. Every walk over an expression keeps it, and leaves the
blocks waiting that waited before.
-/

namespace Shader.Ir.Func

variable {f f' : Func} {l k : Label} {ls : List Label} {b : Block}

/-! ## What is carried out along a path -/

/-- The instructions of the block at the place of a label. -/
def linesAt (f : Func) (l : Label) : List Line := ((f.blocks[l.index]?).map Block.lines).getD []

/-- The instructions that are carried out along a path, whose last block comes first. -/
def trace (f : Func) : List Label → List Line
  | [] => []
  | l :: ls => f.trace ls ++ f.linesAt l

theorem linesAt_eq (h : f.At l b) : f.linesAt l = b.lines := by simp [linesAt, h.1]

theorem trace_congr (h : ∀ l ∈ ls, f'.linesAt l = f.linesAt l) : f'.trace ls = f.trace ls := by
  induction ls with
  | nil => rfl
  | cons l ls ih =>
    obtain ⟨hl, hls⟩ := List.forall_mem_cons.1 h
    simp [trace, hl, ih hls]

theorem Tidy.at_head (h : f.Tidy) {e : Block} (he : f.blocks.head? = some e) :
    f.At e.label e ∧ e.label.index = 0 := by
  rw [List.head?_eq_getElem?] at he
  exact ⟨h.at_of_getElem? he, (h.label 0 e he).2⟩

theorem At.head (h : f.At l b) (h0 : l.index = 0) : f.blocks.head? = some b := by
  rw [List.head?_eq_getElem?, ← h0]
  exact h.1

/-- A function in which control can go on at least as in another has at least its paths. -/
theorem Path.transfer (ht : f.Tidy)
    (h : ∀ l b, f.At l b → ∃ b', f'.At l b' ∧ ∀ k ∈ b.successors, k ∈ b'.successors)
    (hp : f.Path ls) : f'.Path ls := by
  induction hp with
  | entry he =>
    obtain ⟨hat, h0⟩ := ht.at_head he
    obtain ⟨e', hat', -⟩ := h _ _ hat
    rw [← hat'.2]
    exact .entry (hat'.head h0)
  | next _ hb hk ih =>
    obtain ⟨b', hb', hways⟩ := h _ _ hb
    exact .next ih hb' (hways _ hk)

/-- Paths stay while a function grows. -/
theorem Le.path (h : f.Le f') (ht : f.Tidy) (hp : f.Path ls) : f'.Path ls := by
  refine hp.transfer ht fun l b hb => ?_
  obtain ⟨b', hb', hle⟩ := h.blocks l b hb
  refine ⟨b', hb', fun k hk => ?_⟩
  rcases hterm : b.term with _ | t
  · simp [Block.successors_eq_nil hterm] at hk
  · simpa [Block.successors, hterm, (hle.closed t hterm).1] using hk

theorem Le.reachable (h : f.Le f') (ht : f.Tidy) (hl : f.Reachable l) : f'.Reachable l := by
  obtain ⟨ls, hp⟩ := hl
  exact ⟨ls, h.path ht hp⟩

/-- The blocks before the last one of a path are left by some way. -/
theorem Path.left (hp : f.Path (k :: ls)) : ∀ m ∈ ls, ∃ c, f.At m c ∧ c.successors ≠ [] := by
  generalize hpath : k :: ls = path at hp
  induction hp generalizing k ls with
  | entry => simp [(List.cons.inj hpath).2]
  | @next m n ms c _ hc hn ih =>
    obtain ⟨rfl, rfl⟩ := List.cons.inj hpath
    exact List.forall_mem_cons.2 ⟨⟨c, hc, List.ne_nil_of_mem hn⟩, ih rfl⟩

/-! ## Functions that are written forward -/

/-- A function whose code only goes forward, up to the open block where writing goes on. Some blocks
wait, and control has not come to them. -/
structure Forward (f : Func) (waiting : Set Label) (here : Label) : Prop where
  /-- labels are places -/
  tidy : f.Tidy
  /-- writing goes on at an open block -/
  isOpen : ∃ b, f.At here b ∧ b.term = none
  /-- which does not wait -/
  awake : here ∉ waiting
  /-- a block that waits is empty and open -/
  waits : ∀ k ∈ waiting, f.At k { label := k }
  /-- all others are ended -/
  ended : ∀ l b, f.At l b → l ∉ waiting → l ≠ here → ∃ t, b.term = some t
  /-- but none returns -/
  stays : ∀ l b v, f.At l b → b.term ≠ some (.ret v)
  /-- control goes to blocks of the function -/
  inside : ∀ l b, f.At l b → ∀ k ∈ b.successors, ∃ c, f.At k c
  /-- control can come to every block that does not wait -/
  reached : ∀ l b, f.At l b → l ∉ waiting → f.Reachable l
  /-- instructions are carried out in the order of their numbers -/
  ordered : ∀ ls, f.Path ls → ((f.trace ls).map Line.reg).Pairwise (· < ·)
  /-- which are those of instructions that have been written -/
  below : ∀ ls, f.Path ls → ∀ line ∈ f.trace ls, line.reg < f.regs

namespace Forward

variable {W : Set Label}

/-- Every block of a path is there. -/
theorem at_of_path (h : f.Forward W l) (hp : f.Path ls) : ∀ m ∈ ls, ∃ c, f.At m c := by
  induction hp with
  | entry he => exact List.forall_mem_singleton.2 ⟨_, (h.tidy.at_head he).1⟩
  | next _ hb hk ih => exact List.forall_mem_cons.2 ⟨h.inside _ _ hb _ hk, ih⟩

/-- Control has not left an open block. -/
theorem open_notMem (_ : f.Forward W l) (hp : f.Path (k :: ls)) (hb : f.At l b)
    (ho : b.term = none) : l ∉ ls := by
  intro hl
  obtain ⟨c, hc, hsucc⟩ := hp.left l hl
  obtain rfl := hc.unique hb
  exact hsucc (Block.successors_eq_nil ho)

/-! ### An instruction -/

theorem term_put (hb : f.At l b) {inst : Inst} {m : Label} {c : Block}
    (hc : (f.put l inst).At m c) : ∃ d, f.At m d ∧ d.term = c.term := by
  by_cases hm : m = l
  · subst hm
    obtain rfl := hc.unique (at_put_self hb)
    exact ⟨b, hb, rfl⟩
  · exact ⟨c, (at_put_ne hm).1 hc, rfl⟩

/-- The instruction is the last one on the paths to its block. -/
theorem trace_put (h : f.Forward W l) (inst : Inst) (hp : f.Path (k :: ls)) :
    (f.put l inst).trace (k :: ls) =
      f.trace (k :: ls) ++ if k = l then [{ reg := f.regs, inst }] else [] := by
  obtain ⟨b, hb, ho⟩ := h.isOpen
  have hother : ∀ m c, f.At m c → m ≠ l → (f.put l inst).linesAt m = f.linesAt m :=
    fun m c hc hm => by rw [linesAt_eq hc, linesAt_eq ((at_put_ne hm).2 hc)]
  have hbefore : (f.put l inst).trace ls = f.trace ls := by
    refine trace_congr fun m hm => ?_
    obtain ⟨c, hc, -⟩ := hp.left m hm
    refine hother m c hc ?_
    rintro rfl
    exact h.open_notMem hp hb ho hm
  by_cases hk : k = l
  · subst hk
    simp [trace, hbefore, linesAt_eq hb, linesAt_eq (at_put_self hb), withLine]
  · obtain ⟨c, hc⟩ := h.at_of_path hp k List.mem_cons_self
    simp [trace, hbefore, hother k c hc hk, hk]

theorem put (h : f.Forward W l) (inst : Inst) : (f.put l inst).Forward W l := by
  obtain ⟨b, hb, ho⟩ := h.isOpen
  -- no way through the blocks is new, as the ends of the blocks are the same
  have hback : ∀ {ls}, (f.put l inst).Path ls → f.Path ls := fun hp => by
    refine hp.transfer h.tidy.put fun m c hc => ?_
    obtain ⟨d, hd, hterm⟩ := term_put hb hc
    exact ⟨d, hd, by simp [Block.successors, hterm]⟩
  refine ⟨h.tidy.put, ⟨_, at_put_self hb, ho⟩, h.awake, fun m hm => ?_, fun m c hc hm hne => ?_,
    fun m c v hc hterm => ?_, fun m c hc n hn => ?_, fun m c hc hm => ?_, fun ls hp => ?_,
    fun ls hp => ?_⟩
  · have hne : m ≠ l := fun heq => h.awake (heq ▸ hm)
    exact (at_put_ne hne).2 (h.waits m hm)
  · exact h.ended m c ((at_put_ne hne).1 hc) hm hne
  · obtain ⟨d, hd, heq⟩ := term_put hb hc
    exact h.stays m d v hd (heq.trans hterm)
  · obtain ⟨d, hd, heq⟩ := term_put hb hc
    obtain ⟨e, he⟩ := h.inside m d hd n (by simpa [Block.successors, heq] using hn)
    exact (le_put hb ho).at he
  · obtain ⟨d, hd, -⟩ := term_put hb hc
    exact (le_put hb ho).reachable h.tidy (h.reached m d hd hm)
  · have hp' := hback hp
    rcases ls with _ | ⟨m, ms⟩
    · exact List.Pairwise.nil
    · rw [h.trace_put inst hp', List.map_append, List.pairwise_append]
      refine ⟨h.ordered _ hp', ?_, fun r hr q hq => ?_⟩
      · split <;> simp
      · obtain ⟨line, hline, rfl⟩ := List.mem_map.1 hr
        split at hq
        · obtain rfl := by simpa using hq
          exact h.below _ hp' line hline
        · simp at hq
  · have hp' := hback hp
    rcases ls with _ | ⟨m, ms⟩
    · simp [trace]
    · intro line hline
      rw [h.trace_put inst hp', List.mem_append] at hline
      rcases hline with hline | hline
      · exact Nat.lt_succ_of_lt (h.below _ hp' line hline)
      · split at hline
        · obtain rfl := by simpa using hline
          exact Nat.lt_succ_self _
        · cases hline

/-! ### A new block -/

theorem addBlock (h : f.Forward W l) (hint : String) :
    (f.addBlock hint).2.Forward (insert (f.addBlock hint).1 W) l := by
  obtain ⟨b, hb, ho⟩ := h.isOpen
  have hle : f.Le (f.addBlock hint).2 := le_addBlock
  have hnew : ∀ {m c}, f.At m c → m ≠ (f.addBlock hint).1 := by
    rintro m c hc rfl
    exact Nat.lt_irrefl _ (h.tidy.lt_labels hc)
  -- control comes to no new block
  have hback : ∀ {ls}, (f.addBlock hint).2.Path ls → f.Path ls := fun hp => by
    induction hp with
    | entry he =>
      obtain ⟨hat, h0⟩ := h.tidy.addBlock.at_head he
      rcases at_addBlock h.tidy hat with hat | ⟨heq, -⟩
      · exact .entry (hat.head h0)
      · have hpos := List.length_pos_of_ne_nil h.tidy.entry
        rw [heq, index_addBlock, h.tidy.count] at h0
        omega
    | @next m n ms c hp hc hn ih =>
      rcases at_addBlock h.tidy hc with hc | ⟨-, rfl⟩
      · exact .next ih hc hn
      · simp [Block.successors] at hn
  have htrace : ∀ {ls}, f.Path ls → (f.addBlock hint).2.trace ls = f.trace ls := fun hp => by
    refine trace_congr fun m hm => ?_
    obtain ⟨c, hc⟩ := h.at_of_path hp m hm
    rw [linesAt_eq hc, linesAt_eq (at_addBlock_old hc)]
  refine ⟨h.tidy.addBlock, ⟨b, at_addBlock_old hb, ho⟩, ?_, fun m hm => ?_, fun m c hc hm hne => ?_,
    fun m c v hc hterm => ?_, fun m c hc n hn => ?_, fun m c hc hm => ?_, fun ls hp => ?_,
    fun ls hp => ?_⟩
  · simp [hnew hb, h.awake]
  · rcases Set.mem_insert_iff.1 hm with rfl | hm
    · exact at_addBlock_new h.tidy
    · exact at_addBlock_old (h.waits m hm)
  · simp only [Set.mem_insert_iff, not_or] at hm
    rcases at_addBlock h.tidy hc with hc | ⟨heq, -⟩
    · exact h.ended m c hc hm.2 hne
    · exact absurd heq hm.1
  · rcases at_addBlock h.tidy hc with hc | ⟨-, rfl⟩
    · exact h.stays m c v hc hterm
    · cases hterm
  · rcases at_addBlock h.tidy hc with hc | ⟨-, rfl⟩
    · exact hle.at (h.inside m c hc n hn).choose_spec
    · simp [Block.successors] at hn
  · simp only [Set.mem_insert_iff, not_or] at hm
    rcases at_addBlock h.tidy hc with hc | ⟨heq, -⟩
    · exact hle.reachable h.tidy (h.reached m c hc hm.2)
    · exact absurd heq hm.1
  · rw [htrace (hback hp)]
    exact h.ordered ls (hback hp)
  · rw [htrace (hback hp)]
    exact h.below ls (hback hp)

/-! ### The end of a block -/

section Close

variable {t : Term} (h : f.Forward W l) (hsucc : ∀ m ∈ t.successors, m ∈ W)
include h hsucc

/-- A path is an old one, or goes on from the block to one that waits. -/
theorem path_close (hp : (f.close l t).Path ls) :
    f.Path ls ∨ ∃ m ms, ls = m :: l :: ms ∧ m ∈ t.successors ∧ f.Path (l :: ms) := by
  obtain ⟨b, hb, ho⟩ := h.isOpen
  induction hp with
  | @entry e he =>
    obtain ⟨hat, h0⟩ := h.tidy.close.at_head he
    by_cases hel : e.label = l
    · rw [hel]
      have h0' : l.index = 0 := hel ▸ h0
      have hpath := Path.entry (hb.head h0')
      rw [hb.2] at hpath
      exact .inl hpath
    · exact .inl (.entry (((at_close_ne hel).1 hat).head h0))
  | @next m n ms c _ hc hn ih =>
    by_cases hm : m = l
    · subst hm
      obtain rfl := hc.unique (at_close_self hb)
      have hnt : n ∈ t.successors := by simpa [Block.successors] using hn
      rcases ih with hp | ⟨m', ms', heq, hm', -⟩
      · exact .inr ⟨n, ms, rfl, hnt, hp⟩
      · obtain ⟨rfl, -⟩ := List.cons.inj heq
        exact absurd (hsucc _ hm') h.awake
    · have hc' := (at_close_ne hm).1 hc
      rcases ih with hp | ⟨m', ms', heq, hm', -⟩
      · exact .inl (.next hp hc' hn)
      · obtain ⟨rfl, -⟩ := List.cons.inj heq
        obtain rfl := hc'.unique (h.waits _ (hsucc _ hm'))
        simp [Block.successors] at hn

theorem trace_close (hp : (f.close l t).Path ls) :
    (f.close l t).trace ls = f.trace ls ∧ (f.Path ls ∨ ∃ ms, f.Path ms ∧
      f.trace ls = f.trace ms) := by
  obtain ⟨b, hb, ho⟩ := h.isOpen
  have hsame : ∀ m c, f.At m c → (f.close l t).linesAt m = f.linesAt m := fun m c hc => by
    by_cases hm : m = l
    · subst hm
      rw [linesAt_eq hb, linesAt_eq (at_close_self hb)]
    · rw [linesAt_eq hc, linesAt_eq ((at_close_ne hm).2 hc)]
  have hold : ∀ {ms}, f.Path ms → (f.close l t).trace ms = f.trace ms := fun hp =>
    trace_congr fun m hm => (h.at_of_path hp m hm).elim fun c hc => hsame m c hc
  rcases h.path_close hsucc hp with hp | ⟨m, ms, rfl, hm, hp⟩
  · exact ⟨hold hp, .inl hp⟩
  · have hat := h.waits m (hsucc m hm)
    have hnil : f.linesAt m = [] := linesAt_eq hat
    refine ⟨?_, .inr ⟨_, hp, by simp [trace, hnil]⟩⟩
    rw [trace, hold hp, hsame m _ hat]
    rfl

/-- Control goes to blocks that wait, of which writing goes on at one. -/
theorem goOn {k : Label} (hk : k ∈ W) (hnext : k ∈ t.successors ∨ f.Reachable k)
    (hret : ∀ v, t ≠ .ret v) : (f.close l t).Forward (W \ {k}) k := by
  obtain ⟨b, hb, ho⟩ := h.isOpen
  have hle : f.Le (f.close l t) := le_close hb ho
  have hne : ∀ m ∈ W, m ≠ l := fun m hm heq => h.awake (heq ▸ hm)
  have hwait : ∀ m ∈ W, (f.close l t).At m { label := m } := fun m hm =>
    (at_close_ne (hne m hm)).2 (h.waits m hm)
  refine ⟨h.tidy.close, ⟨_, hwait k hk, rfl⟩, by simp, fun m hm => hwait m hm.1,
    fun m c hc hm hmk => ?_, fun m c v hc hterm => ?_, fun m c hc n hn => ?_, fun m c hc hm => ?_,
    fun ls hp => ?_, fun ls hp => ?_⟩
  -- only the block of the point has got an end
  · have hmW : m ∉ W := fun hmem => hm ⟨hmem, hmk⟩
    by_cases hml : m = l
    · subst hml
      obtain rfl := hc.unique (at_close_self hb)
      exact ⟨t, rfl⟩
    · exact h.ended m c ((at_close_ne hml).1 hc) hmW hml
  · by_cases hml : m = l
    · subst hml
      obtain rfl := hc.unique (at_close_self hb)
      exact hret v (Option.some.inj hterm)
    · exact h.stays m c v ((at_close_ne hml).1 hc) hterm
  · by_cases hml : m = l
    · subst hml
      obtain rfl := hc.unique (at_close_self hb)
      exact ⟨_, hwait n (hsucc n (by simpa [Block.successors] using hn))⟩
    · exact hle.at (h.inside m c ((at_close_ne hml).1 hc) n hn).choose_spec
  · by_cases hmk : m = k
    · subst hmk
      rcases hnext with hnext | hreach
      · obtain ⟨ls, hp⟩ := hle.reachable h.tidy (h.reached l b hb h.awake)
        exact ⟨l :: ls, .next hp (at_close_self hb) (by simpa [Block.successors] using hnext)⟩
      · exact hle.reachable h.tidy hreach
    · have hmW : m ∉ W := fun hmem => hm ⟨hmem, hmk⟩
      have hold : ∃ d, f.At m d := by
        by_cases hml : m = l
        · exact ⟨b, hml ▸ hb⟩
        · exact ⟨c, (at_close_ne hml).1 hc⟩
      exact hle.reachable h.tidy (h.reached m hold.choose hold.choose_spec hmW)
  · obtain ⟨htrace, hold⟩ := h.trace_close hsucc hp
    rw [htrace]
    rcases hold with hp | ⟨ms, hp, heq⟩
    · exact h.ordered ls hp
    · exact heq ▸ h.ordered ms hp
  · obtain ⟨htrace, hold⟩ := h.trace_close hsucc hp
    rw [htrace]
    rcases hold with hp | ⟨ms, hp, heq⟩
    · exact h.below ls hp
    · exact heq ▸ h.below ms hp

end Close

end Forward

end Shader.Ir.Func

namespace Shader.Lowering

open Ir

/-! ## Walks that write forward -/

variable {α : Type} {f₀ : Func} {W : Set Label} {k : Label} {t : Term}

/-- The code of a draft goes forward up to the point, and it has grown from a function. -/
def Onward (f₀ : Func) (W : Set Label) (d : Draft) : Prop :=
  ∃ l, d.point = some l ∧ d.func.Forward W l ∧ f₀.Le d.func

namespace Onward

variable {d d' : Draft}

theorem weaken {f₁ : Func} (h : Onward f₀ W d) (hle : f₁.Le f₀) : Onward f₁ W d := by
  obtain ⟨l, hl, hf, hgrown⟩ := h
  exact ⟨l, hl, hf, hle.trans hgrown⟩

theorem append {inst : Inst} {v : Value} (h : Onward f₀ W d)
    (hrun : Emit.append inst d = .ok (v, d')) : Onward f₀ W d' := by
  obtain ⟨l, hl, hf, hgrown⟩ := h
  obtain ⟨_, _, hl', -, -, rfl⟩ := Emit.append_cases hrun
  cases hl.symm.trans hl'
  obtain ⟨b, hb, ho⟩ := hf.isOpen
  exact ⟨l, hl, hf.put inst, hgrown.trans (Func.le_put hb ho)⟩

/-- A new block waits, and did not wait before. -/
theorem newBlock {hint : String} (h : Onward f₀ W d)
    (hrun : Emit.newBlock hint d = .ok (k, d')) : k ∉ W ∧ Onward f₀ (insert k W) d' := by
  obtain ⟨l, hl, hf, hgrown⟩ := h
  cases hrun
  refine ⟨fun hk => ?_, l, hl, hf.addBlock hint, hgrown.trans Func.le_addBlock⟩
  exact Nat.lt_irrefl _ (hf.tidy.lt_labels (hf.waits _ hk))

/-- Writing goes on at a block that waits, to which control goes or can come in another way. -/
theorem jump {u : Unit} (h : Onward f₀ W d) (hrun : Emit.terminate t d = .ok (u, d'))
    (hsucc : ∀ m ∈ t.successors, m ∈ W) (hk : k ∈ W)
    (hnext : k ∈ t.successors ∨ f₀.Tidy ∧ f₀.Reachable k) (hret : ∀ v, t ≠ .ret v) :
    f₀.Le d'.func ∧ d'.func.Tidy ∧ (∀ m ∈ t.successors, d'.func.Reachable m) ∧
      Onward d'.func (W \ {k}) { d' with point := some k } := by
  obtain ⟨l, hl, hf, hgrown⟩ := h
  obtain ⟨_, hl', rfl⟩ := Emit.terminate_cases hrun
  cases hl.symm.trans hl'
  obtain ⟨b, hb, ho⟩ := hf.isOpen
  have hle := Func.le_close (t := t) hb ho
  refine ⟨hgrown.trans hle, hf.tidy.close, fun m hm => ?_, k, rfl, ?_, .refl _⟩
  · obtain ⟨ls, hp⟩ := hle.reachable hf.tidy (hf.reached l b hb hf.awake)
    exact ⟨l :: ls, .next hp (Func.at_close_self hb) (by simpa [Block.successors] using hm)⟩
  · exact hf.goOn hsucc hk (hnext.imp_right fun h => hgrown.reachable h.1 h.2) hret

end Onward

/-- A walk writes forward and lets the blocks wait that waited before. -/
def Forwards {α : Type} (act : Lower α) : Prop :=
  ∀ f₀ W, Brings (fun b => Onward f₀ W b.draft) act fun _ b => Onward f₀ W b.draft

theorem stepwise_forwards : Stepwise Forwards :=
  .all fun _ => .all fun _ => stepwise_maintains Onward.append

theorem evaluating_forwards : Evaluating Forwards := stepwise_forwards.evaluating

theorem resolving_forwards : Resolving Forwards :=
  .all fun _ => .all fun _ => resolving_maintains

theorem brings_newBlock {hint : String} :
    Brings (fun b => Onward f₀ W b.draft) (emit (Emit.newBlock hint)) fun k b =>
      k ∉ W ∧ Onward f₀ (insert k W) b.draft :=
  .emit fun _ _ _ hb hrun => hb.newBlock hrun

/-- The block at the point is ended, and writing goes on at a block that waits. -/
theorem brings_jump {Q : α → Body → Prop} {rest : Lower α}
    (hsucc : ∀ m ∈ t.successors, m ∈ W) (hk : k ∈ W)
    (hnext : k ∈ t.successors ∨ f₀.Tidy ∧ f₀.Reachable k) (hret : ∀ v, t ≠ .ret v)
    (hrest : ∀ f, f₀.Le f → f.Tidy → (∀ m ∈ t.successors, f.Reachable m) →
      Brings (fun b => Onward f (W \ {k}) b.draft) rest Q) :
    Brings (fun b => Onward f₀ W b.draft) (do
      emit (Emit.terminate t)
      emit (Emit.setPoint (some k))
      rest) Q := by
  refine .bind (Q := fun _ b => ∃ f, (f₀.Le f ∧ f.Tidy ∧ ∀ m ∈ t.successors, f.Reachable m) ∧
    Onward f (W \ {k}) { b.draft with point := some k }) ?_ fun _ => ?_
  · refine .emit fun b _ d hb hrun => ?_
    obtain ⟨hgrown, htidy, hreach, hon⟩ := hb.jump hrun hsucc hk hnext hret
    exact ⟨d.func, ⟨hgrown, htidy, hreach⟩, hon⟩
  · refine .bind (Q := fun _ b => ∃ f, (f₀.Le f ∧ f.Tidy ∧ ∀ m ∈ t.successors, f.Reachable m) ∧
      Onward f (W \ {k}) b.draft) (.emit fun b _ d hb hrun => ?_) fun _ b a b' hb hrun => ?_
    · cases hrun
      exact hb
    · obtain ⟨f, ⟨hgrown, htidy, hreach⟩, hon⟩ := hb
      exact hrest f hgrown htidy hreach b a b' hon hrun

/-- The second operand of an operator that may skip it is a detour. -/
theorem forwards_detour {pos : Pos} {lc : Value} {rhs : Lower Operand} {cause : DataType → Cause}
    {hint hint' : String} (term : Label → Label → Term) (hrhs : Forwards rhs)
    (hterm : ∀ more done, term more done = .condBr lc more done ∨
      term more done = .condBr lc done more) :
    Forwards (do
      let source ← emit Emit.openPoint
      let more ← emit (Emit.newBlock hint)
      let done ← emit (Emit.newBlock hint')
      emit (Emit.terminate (term more done))
      emit (Emit.setPoint (some more))
      let rc ← truthOf cause (← rhs)
      let last ← emit Emit.openPoint
      emit (Emit.terminate (.br done))
      emit (Emit.setPoint (some done))
      return Operand.value pos .int (← emit do
        Emit.fromBool (← Emit.phi [(lc, source), (rc, last)]))) := by
  intro f₀ W
  refine .bind maintains_openPoint fun source => .bind brings_newBlock fun more => ?_
  refine .assuming fun hmore => .bind brings_newBlock fun done => .assuming fun hdone => ?_
  have hways : ∀ m, m ∈ (term more done).successors ↔ m = more ∨ m = done := fun m => by
    rcases hterm more done with h | h <;> simp [h, Term.successors, or_comm]
  have hstay : ∀ v, term more done ≠ .ret v := fun v => by
    rcases hterm more done with h | h <;> simp [h]
  refine brings_jump (k := more) (fun m hm => ?_) ?_ (.inl ((hways more).2 (.inl rfl))) hstay
    fun f₁ hgrown₁ _ _ => ?_
  · rcases (hways m).1 hm with rfl | rfl <;> simp
  · simp
  refine .bind (hrhs f₁ _) fun x => .bind (stepwise_truthOf evaluating_forwards f₁ _) fun rc => ?_
  refine .bind maintains_openPoint fun last => ?_
  refine brings_jump (t := .br done) (k := done) ?_ ?_ (.inl (by simp [Term.successors])) (by simp)
    fun f₂ hgrown₂ _ _ => ?_
  · grind [Term.successors]
  · grind
  -- both blocks that were waiting have been gone on to
  have hrest : (insert done (insert more W) \ {more}) \ {done} = W := by
    grind
  rw [hrest]
  refine .bind (evaluating_forwards.emit (.bind .phi fun _ => .append rfl) f₂ W) fun _ => ?_
  exact .pure fun _ hb => hb.weaken (hgrown₁.trans hgrown₂)

theorem forwards_logical {pos : Pos} {op : LogicOp} {l : Operand} {rhs : Lower Operand}
    (hrhs : Forwards rhs) : Forwards (logical pos op l rhs) := by
  cases op with
  | xor => exact stepwise_logical_xor evaluating_forwards hrhs
  | and =>
    refine stepwise_forwards.bind (stepwise_truthOf evaluating_forwards) fun lc => ?_
    exact forwards_detour (fun more done => .condBr lc more done) hrhs fun _ _ => .inl rfl
  | or =>
    refine stepwise_forwards.bind (stepwise_truthOf evaluating_forwards) fun lc => ?_
    exact forwards_detour (fun more done => .condBr lc done more) hrhs fun _ _ => .inr rfl

/-- The second alternative waits for the first, though control can come to both at once. -/
theorem forwards_choice {pos : Pos} {c : Value} {yes no : Lower Operand} (hyes : Forwards yes)
    (hno : Forwards no) : Forwards (choice pos c yes no) := by
  intro f₀ W
  refine .bind brings_newBlock fun whenTrue => .assuming fun htrue => ?_
  refine .bind brings_newBlock fun whenFalse => .assuming fun hfalse => ?_
  refine .bind brings_newBlock fun done => .assuming fun hdone => ?_
  refine brings_jump (t := .condBr c whenTrue whenFalse) (k := whenTrue) ?_ ?_
    (.inl (by simp [Term.successors])) (by simp) fun f₁ hgrown₁ htidy hreach => ?_
  · simp [Term.successors]
  · simp
  refine .bind (hyes f₁ _) fun x => ?_
  refine .bind (stepwise_alternative evaluating_forwards f₁ _) fun xv => ?_
  refine .bind maintains_openPoint fun xEnd => ?_
  have hnext : f₁.Reachable whenFalse := hreach _ (by simp [Term.successors])
  refine brings_jump (t := .br done) (k := whenFalse) ?_ ?_ (.inr ⟨htidy, hnext⟩) (by simp)
    fun f₂ hgrown₂ _ _ => ?_
  · grind [Term.successors]
  · grind
  refine .bind (hno f₂ _) fun y => .bind (stepwise_otherwise evaluating_forwards f₂ _) fun yv => ?_
  refine .bind maintains_openPoint fun yEnd => ?_
  refine brings_jump (t := .br done) (k := done) ?_ ?_ (.inl (by simp [Term.successors])) (by simp)
    fun f₃ hgrown₃ _ _ => ?_
  · grind [Term.successors]
  · grind
  have hrest : ((insert done (insert whenFalse (insert whenTrue W)) \ {whenTrue}) \ {whenFalse}) \
      {done} = W := by
    grind
  rw [hrest]
  have hgrown := (hgrown₁.trans hgrown₂).trans hgrown₃
  split
  · exact .bind (evaluating_forwards.emit .phi f₃ W) fun _ =>
      .pure fun _ hb => hb.weaken hgrown
  · exact .pure fun _ hb => hb.weaken hgrown

theorem splitting_forwards : Splitting Forwards where
  toStepwise := stepwise_forwards
  logical := forwards_logical
  choice := forwards_choice

/-- Walks over expressions write forward. -/
theorem forwards_expr {Γ : Signatures} {e : Expr} : Forwards (expr Γ e) :=
  stepwise_expr stepwise_forwards resolving_forwards (.inr splitting_forwards)

end Shader.Lowering
