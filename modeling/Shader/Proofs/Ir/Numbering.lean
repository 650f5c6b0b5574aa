import Mathlib.Data.List.Perm.Basic
import Shader.Proofs.Ir.Writing

/-!
# Numbers and reserved room

Every instruction of a function has a number of its own, and room is reserved at the head of the
entry only, in front of all other instructions there. Both hold at every time while a function is
written.
-/

namespace Shader.Ir

/-- The instructions of a block that reserve room. -/
def Block.slots (b : Block) : List Line := b.lines.filter fun l => l.inst.isAlloca

namespace Func

/-- The numbers of all instructions of a function, in the order of its blocks. -/
def regList (f : Func) : List Nat := f.blocks.flatMap Block.regs

/-- The numbers of a function are told apart, and the next one is new. -/
structure Numbered (f : Func) : Prop where
  /-- no number is given twice -/
  once : f.regList.Nodup
  /-- all of them are below the next one -/
  below : ∀ r ∈ f.regList, r < f.regs

/-- Room is reserved in the entry alone, and in front of everything else. -/
structure SlotsFirst (f : Func) : Prop where
  /-- reservations come first -/
  first : ∀ l b, f.At l b → b.lines = b.slots ++ b.body
  /-- they are all in the entry -/
  entry : ∀ l b, f.At l b → l.index ≠ 0 → b.slots = []
  /-- and they have been counted -/
  count : ∀ l b, f.At l b → l.index = 0 → b.slots.length = f.reserved

theorem mem_regList {f : Func} {r : Nat} : r ∈ f.regList ↔ ∃ b ∈ f.blocks, r ∈ b.regs :=
  List.mem_flatMap

/-- A number belongs to one block. -/
theorem Numbered.block_unique {f : Func} (h : f.Numbered) {k l : Label} {b c : Block} {r : Nat}
    (hk : f.At k b) (hl : f.At l c) (hb : r ∈ b.regs) (hc : r ∈ c.regs) : k = l := by
  have hdisj := (List.nodup_flatMap.1 h.once).2
  refine hk.label_ext hl (Classical.byContradiction fun hne => ?_)
  obtain ⟨hi, hib⟩ := List.getElem?_eq_some_iff.1 hk.1
  obtain ⟨hj, hjc⟩ := List.getElem?_eq_some_iff.1 hl.1
  rcases Nat.lt_or_gt_of_ne hne with hlt | hgt
  · have := List.pairwise_iff_getElem.1 hdisj _ _ hi hj hlt
    rw [hib, hjc] at this
    exact this hb hc
  · have := List.pairwise_iff_getElem.1 hdisj _ _ hj hi hgt
    rw [hib, hjc] at this
    exact this hc hb

/-! ## What the primitives do to the numbers -/

/-- The numbers of a function, split at a block. -/
theorem regList_split {f : Func} {l : Label} {b : Block} (hb : f.At l b) :
    f.regList = (f.blocks.take l.index).flatMap Block.regs ++
      (b.regs ++ (f.blocks.drop (l.index + 1)).flatMap Block.regs) := by
  obtain ⟨hlt, hget⟩ := List.getElem?_eq_some_iff.1 hb.1
  have hsplit : f.blocks = f.blocks.take l.index ++ b :: f.blocks.drop (l.index + 1) := by
    rw [← hget, List.getElem_cons_drop, List.take_append_drop]
  conv_lhs => rw [regList, hsplit, List.flatMap_append, List.flatMap_cons]

/-- The numbers of a function in which a block is changed. -/
theorem regList_modifyBlock {f : Func} {l : Label} {b : Block} {g : Block → Block} (ht : f.Tidy)
    (hb : f.At l b) : (f.modifyBlock l g).regList =
      (f.blocks.take l.index).flatMap Block.regs ++
        ((g b).regs ++ (f.blocks.drop (l.index + 1)).flatMap Block.regs) := by
  rw [regList, blocks_modifyBlock ht hb, List.set_eq_take_append_cons_drop, if_pos hb.lt,
    List.flatMap_append, List.flatMap_cons]

theorem regList_put {f : Func} {l : Label} {b : Block} {inst : Inst} (ht : f.Tidy)
    (hb : f.At l b) : (f.put l inst).regList.Perm (f.regs :: f.regList) := by
  have hput : (f.put l inst).regList = _ :=
    regList_modifyBlock (g := f.withLine inst) ht hb
  have hregs : (f.withLine inst b).regs = b.regs ++ [f.regs] := by
    simp [withLine, Block.regs]
  rw [hput, regList_split hb, hregs, List.append_assoc]
  have hmiddle : (b.regs ++ ([f.regs] ++ (f.blocks.drop (l.index + 1)).flatMap Block.regs)).Perm
      (f.regs :: (b.regs ++ (f.blocks.drop (l.index + 1)).flatMap Block.regs)) := List.perm_middle
  exact (hmiddle.append_left _).trans List.perm_middle

theorem regList_close {f : Func} {l : Label} {b : Block} {t : Term} (ht : f.Tidy)
    (hb : f.At l b) : (f.close l t).regList = f.regList := by
  have hclose : (f.close l t).regList = _ :=
    regList_modifyBlock (g := fun b => { b with term := some t }) ht hb
  rw [hclose, regList_split hb]
  rfl

theorem regList_addBlock {f : Func} {hint : String} : (f.addBlock hint).2.regList = f.regList := by
  have hblocks : (f.addBlock hint).2.blocks = f.blocks ++ [{ label := (f.addBlock hint).1 }] := rfl
  rw [regList, hblocks, List.flatMap_append]
  simp [Block.regs, regList]

theorem regList_reserve {f : Func} {type : DataType} {hint : String} (ht : f.Tidy) :
    (f.reserve type hint).regList.Perm (f.regs :: f.regList) := by
  rcases hbs : f.blocks with _ | ⟨e, bs⟩
  · exact absurd hbs ht.entry
  · have hregs : (f.withSlot type hint 0 e).regs.Perm (f.regs :: e.regs) :=
      (Emit.insertAlloca_perm f.reserved (f.slotLine type hint) e.lines).map Line.reg
    have hres : (f.reserve type hint).regList =
        (f.withSlot type hint 0 e).regs ++ bs.flatMap Block.regs := by
      simp [regList, reserve, hbs, slotLine, withSlot]
    rw [hres, regList, hbs, List.flatMap_cons, ← List.cons_append]
    exact hregs.append_right _

/-- A new number in front of, or among, the old ones. -/
theorem Numbered.cons {f f' : Func} (h : f.Numbered) (hregs : f'.regs = f.regs + 1)
    (hperm : f'.regList.Perm (f.regs :: f.regList)) : f'.Numbered where
  once := by
    rw [hperm.nodup_iff]
    exact List.nodup_cons.2 ⟨fun hr => Nat.lt_irrefl _ (h.below _ hr), h.once⟩
  below := fun r hr => by
    rw [hregs]
    rcases List.mem_cons.1 (hperm.mem_iff.1 hr) with rfl | hr
    · exact Nat.lt_succ_self _
    · exact Nat.lt_succ_of_lt (h.below r hr)

/-! ## What the primitives do to reserved room -/

theorem SlotsFirst.put {f : Func} (h : f.SlotsFirst) {l : Label} {b : Block} {inst : Inst}
    (hb : f.At l b) (ha : inst.isAlloca = false) : (f.put l inst).SlotsFirst := by
  have hslots : (f.withLine inst b).slots = b.slots := by
    simp [withLine, Block.slots, ha]
  have hbody : (f.withLine inst b).body = b.body ++ [{ reg := f.regs, inst }] := by
    simp [withLine, Block.body, ha]
  constructor
  · intro k c hc
    by_cases hk : k = l
    · subst hk
      obtain rfl := hc.unique (at_put_self hb)
      rw [hslots, hbody, ← List.append_assoc, ← h.first _ b hb, withLine]
    · exact h.first k c ((at_put_ne hk).1 hc)
  · intro k c hc h0
    by_cases hk : k = l
    · subst hk
      obtain rfl := hc.unique (at_put_self hb)
      rw [hslots, h.entry _ b hb h0]
    · exact h.entry k c ((at_put_ne hk).1 hc) h0
  · intro k c hc h0
    by_cases hk : k = l
    · subst hk
      obtain rfl := hc.unique (at_put_self hb)
      rw [hslots]
      exact h.count _ b hb h0
    · exact h.count k c ((at_put_ne hk).1 hc) h0

theorem SlotsFirst.close {f : Func} (h : f.SlotsFirst) {l : Label} {b : Block} {t : Term}
    (hb : f.At l b) : (f.close l t).SlotsFirst := by
  constructor
  · intro k c hc
    by_cases hk : k = l
    · subst hk
      obtain rfl := hc.unique (at_close_self hb)
      exact h.first _ b hb
    · exact h.first k c ((at_close_ne hk).1 hc)
  · intro k c hc h0
    by_cases hk : k = l
    · subst hk
      obtain rfl := hc.unique (at_close_self hb)
      exact h.entry _ b hb h0
    · exact h.entry k c ((at_close_ne hk).1 hc) h0
  · intro k c hc h0
    by_cases hk : k = l
    · subst hk
      obtain rfl := hc.unique (at_close_self hb)
      exact h.count _ b hb h0
    · exact h.count k c ((at_close_ne hk).1 hc) h0

theorem SlotsFirst.addBlock {f : Func} (h : f.SlotsFirst) (ht : f.Tidy) {hint : String} :
    (f.addBlock hint).2.SlotsFirst := by
  constructor
  · intro k c hc
    rcases at_addBlock ht hc with hc | ⟨-, rfl⟩
    · exact h.first k c hc
    · rfl
  · intro k c hc h0
    rcases at_addBlock ht hc with hc | ⟨-, rfl⟩
    · exact h.entry k c hc h0
    · rfl
  · intro k c hc h0
    rcases at_addBlock ht hc with hc | ⟨rfl, -⟩
    · exact h.count k c hc h0
    · have hpos := List.length_pos_iff.2 ht.entry
      rw [index_addBlock, ht.count] at h0
      omega

/-- Behind as many lines as there are in front, another one goes between the two parts. -/
theorem insertAlloca_append {rooms code : List Line} {n : Nat} (hn : rooms.length = n)
    (line : Line) : Emit.insertAlloca n line (rooms ++ code) = rooms ++ line :: code := by
  rw [Emit.insertAlloca, List.take_left' hn, List.drop_left' hn]

/-- Where the reservations at the head have been counted, another one comes behind them. -/
theorem slots_insertAlloca {b : Block} (h : b.lines = b.slots ++ b.body) {n : Nat}
    (hn : b.slots.length = n) {line : Line} (ha : line.inst.isAlloca = true) :
    Block.slots { b with lines := Emit.insertAlloca n line b.lines } = b.slots ++ [line] := by
  have hslots : b.slots.filter (fun l => l.inst.isAlloca) = b.slots := by simp [Block.slots]
  have hbody : b.body.filter (fun l => l.inst.isAlloca) = [] := by
    simp only [Block.body, List.filter_filter, List.filter_eq_nil_iff]
    simp
  change (Emit.insertAlloca n line b.lines).filter (fun l => l.inst.isAlloca) = _
  rw [h, insertAlloca_append hn, List.filter_append, hslots, List.filter_cons, if_pos ha, hbody]

theorem SlotsFirst.reserve {f : Func} (h : f.SlotsFirst) {type : DataType} {hint : String} :
    (f.reserve type hint).SlotsFirst := by
  constructor
  · intro k c hc
    obtain ⟨b, hb, rfl⟩ := at_reserve.1 hc
    have hbfirst := h.first k b hb
    rw [body_withSlot]
    unfold withSlot
    split
    next h0 =>
      have hcount := h.count k b hb h0
      rw [slots_insertAlloca hbfirst hcount rfl, List.append_assoc]
      exact (congrArg _ hbfirst).trans (insertAlloca_append hcount _)
    next => exact hbfirst
  · intro k c hc h0
    obtain ⟨b, hb, rfl⟩ := at_reserve.1 hc
    simp only [withSlot, h0, if_false]
    exact h.entry k b hb h0
  · intro k c hc h0
    obtain ⟨b, hb, rfl⟩ := at_reserve.1 hc
    rw [withSlot, if_pos h0, slots_insertAlloca (h.first k b hb) (h.count k b hb h0) rfl,
      List.length_append, h.count k b hb h0]
    rfl

end Func

/-! ## Written code -/

variable {O : Outside} {n : Nat} {w : Option Label} {t : Label → Prop} {s s' : Site}

theorem Step.numbered (h : Step O n w t s s') (ht : s.func.Tidy) (hs : s.func.Numbered) :
    s'.func.Numbered := by
  cases h with
  | put _ hb => exact hs.cons rfl (Func.regList_put ht hb)
  | phi _ hb => exact hs.cons rfl (Func.regList_put ht hb)
  | @close l b term _ hb =>
    have hregs : (s.func.close l term).regList = s.func.regList := Func.regList_close ht hb
    exact ⟨by rw [Site.withFunc, hregs]; exact hs.once,
      fun r hr => hs.below r (by rw [Site.withFunc, hregs] at hr; exact hr)⟩
  | block hint =>
    have hregs : (s.func.addBlock hint).2.regList = s.func.regList := Func.regList_addBlock
    exact ⟨by rw [Site.withBlock, hregs]; exact hs.once,
      fun r hr => hs.below r (by rw [Site.withBlock, hregs] at hr; exact hr)⟩
  | slot => exact hs.cons rfl (Func.regList_reserve ht)
  | move => exact hs

theorem Step.slotsFirst (h : Step O n w t s s') (ht : s.func.Tidy) (hs : s.func.SlotsFirst) :
    s'.func.SlotsFirst := by
  cases h with
  | put _ hb _ _ ha => exact hs.put hb ha
  | phi _ hb => exact hs.put hb rfl
  | close _ hb => exact hs.close hb
  | block => exact hs.addBlock ht
  | slot => exact hs.reserve
  | move => exact hs

theorem Steps.numbered (h : Steps O n w t s s') (ht : s.func.Tidy) (hs : s.func.Numbered) :
    s'.func.Numbered := by
  induction h with
  | refl => exact hs
  | tail hsteps hstep ih => exact hstep.numbered (Steps.tidy hsteps ht) ih

theorem Steps.slotsFirst (h : Steps O n w t s s') (ht : s.func.Tidy) (hs : s.func.SlotsFirst) :
    s'.func.SlotsFirst := by
  induction h with
  | refl => exact hs
  | tail hsteps hstep ih => exact hstep.slotsFirst (Steps.tidy hsteps ht) ih

theorem Site.Fresh.numbered (h : s.Fresh) : s.func.Numbered := by
  have hnil : s.func.regList = [] := by
    refine List.flatMap_eq_nil_iff.2 fun b hb => ?_
    simp [Block.regs, (h.blocks _ b (h.tidy.at_of_mem hb)).1]
  exact ⟨by rw [hnil]; exact List.nodup_nil, fun r hr => by rw [hnil] at hr; cases hr⟩

theorem Site.Fresh.slotsFirst (h : s.Fresh) : s.func.SlotsFirst := by
  constructor
  · intro l b hb
    simp [Block.slots, Block.body, (h.blocks l b hb).1]
  · intro l b hb _
    simp [Block.slots, (h.blocks l b hb).1]
  · intro l b hb _
    simp [Block.slots, (h.blocks l b hb).1, h.reserved]

end Shader.Ir
