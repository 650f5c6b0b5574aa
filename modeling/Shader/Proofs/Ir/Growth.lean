import Mathlib.Data.List.Basic
import Mathlib.Data.List.Nodup
import Shader.Ir.Draft
import Shader.Ir.Verify

/-!
# Growing functions

While code is written, a function only grows: blocks are added, an open block gets further
instructions, and a block that has been ended stays as it is. Reservations of room are the one thing
that is not written at an end, so the instructions of a block are followed by its `body`, which
leaves them out.

* `Func.At` finds a block by its label, `Func.Tidy` says that labels are places in the list of
  blocks;
* `Block.Le` and `Func.Le` are the orders in which blocks and functions grow;
* `Func.put`, `Func.close` and `Func.reserve` are what the primitives of a draft do to its function;
* `Draft.Puts`, `Draft.Closes`, `Draft.Starts` and `Draft.Stays` say what has happened at the point
  of a draft.
-/

namespace Shader.Ir

/-! ## Blocks -/

namespace Block

/-- The instructions of a block that reserve no room. -/
def body (b : Block) : List Line := b.lines.filter fun l => !l.inst.isAlloca

/-- The numbers of the instructions of a block. -/
def regs (b : Block) : List Nat := b.lines.map Line.reg

/-- Whether a block starts with, or holds, a choice. -/
def hasPhi (b : Block) : Prop := ∃ line ∈ b.lines, line.inst.incoming?.isSome

/-- The order in which a block grows: it keeps its label and its instructions, more come behind
them, and once it has a terminator nothing does. -/
structure Le (b b' : Block) : Prop where
  /-- the label stays -/
  label : b'.label = b.label
  /-- no instruction is lost -/
  lines : b.lines ⊆ b'.lines
  /-- what is written comes behind what is there -/
  body : b.body <+: b'.body
  /-- a block that has been ended stays as it is -/
  closed : ∀ t, b.term = some t → b'.term = some t ∧ b'.body = b.body

theorem Le.refl (b : Block) : b.Le b :=
  ⟨rfl, fun _ h => h, List.prefix_rfl, fun _ h => ⟨h, rfl⟩⟩

/-- Growing goes on. -/
theorem Le.trans {a b c : Block} (h₁ : a.Le b) (h₂ : b.Le c) : a.Le c where
  label := h₂.label.trans h₁.label
  lines := fun _ h => h₂.lines (h₁.lines h)
  body := h₁.body.trans h₂.body
  closed := fun t ht => by
    obtain ⟨hb, hbody⟩ := h₁.closed t ht
    obtain ⟨hc, hbody'⟩ := h₂.closed t hb
    exact ⟨hc, hbody'.trans hbody⟩

theorem Le.regs {b b' : Block} (h : b.Le b') {r : Nat} (hr : r ∈ b.regs) : r ∈ b'.regs := by
  obtain ⟨line, hl, rfl⟩ := List.mem_map.1 hr
  exact List.mem_map_of_mem (h.lines hl)

theorem successors_eq_nil {b : Block} (h : b.term = none) : b.successors = [] := by
  simp [successors, h]

end Block

/-! ## Finding blocks -/

namespace Func

/-- The function has the block with the label, at the place that the label names. -/
def At (f : Func) (l : Label) (b : Block) : Prop := f.blocks[l.index]? = some b ∧ b.label = l

/-- The labels of a function are the places of its blocks, and no block has been taken out. -/
structure Tidy (f : Func) : Prop where
  /-- there is an entry -/
  entry : f.blocks ≠ []
  /-- every block that was made is there -/
  count : f.labels = f.blocks.length
  /-- a label names the function and the place -/
  label : ∀ (i : Nat) (b : Block), f.blocks[i]? = some b → b.label.func = f.id ∧ b.label.index = i
  /-- no block has been taken out -/
  detached : f.detached = []

/-- There is one block with a label. -/
theorem At.unique {f : Func} {l : Label} {b b' : Block} (h : f.At l b) (h' : f.At l b') :
    b = b' := Option.some.inj (h.1.symm.trans h'.1)

theorem At.lt {f : Func} {l : Label} {b : Block} (h : f.At l b) : l.index < f.blocks.length :=
  (List.getElem?_eq_some_iff.1 h.1).1

theorem At.mem {f : Func} {l : Label} {b : Block} (h : f.At l b) : b ∈ f.blocks :=
  List.mem_of_getElem? h.1

theorem At.mem_ownLabels {f : Func} {l : Label} {b : Block} (h : f.At l b) : l ∈ f.ownLabels :=
  List.mem_map.2 ⟨b, h.mem, h.2⟩

/-- Labels of a function are told apart by their places. -/
theorem At.label_ext {f : Func} {k l : Label} {b c : Block} (hk : f.At k b) (hl : f.At l c)
    (hi : k.index = l.index) : k = l := by
  have hbc : some b = some c := by rw [← hk.1, ← hl.1, hi]
  rw [← hk.2, ← hl.2, Option.some.inj hbc]

namespace Tidy

variable {f : Func}

theorem at_of_getElem? (h : f.Tidy) {i : Nat} {b : Block} (hb : f.blocks[i]? = some b) :
    f.At b.label b := by
  refine ⟨?_, rfl⟩
  rw [(h.label i b hb).2]
  exact hb

/-- Every block of a tidy function is found by its label. -/
theorem at_of_mem (h : f.Tidy) {b : Block} (hb : b ∈ f.blocks) : f.At b.label b := by
  obtain ⟨i, hi⟩ := List.mem_iff_getElem?.1 hb
  exact h.at_of_getElem? hi

theorem lt_labels (h : f.Tidy) {l : Label} {b : Block} (hb : f.At l b) : l.index < f.labels := by
  rw [h.count]
  exact hb.lt

/-- The labels of a tidy function are different. -/
theorem nodup_ownLabels (h : f.Tidy) : f.ownLabels.Nodup := by
  have hidx : (f.ownLabels.map Label.index) = List.range f.blocks.length := by
    apply List.ext_getElem?
    intro i
    rcases hb : f.blocks[i]? with _ | b
    · have hi : f.blocks.length ≤ i := List.getElem?_eq_none_iff.1 hb
      simp [ownLabels, hi]
    · obtain ⟨hi, rfl⟩ := List.getElem?_eq_some_iff.1 hb
      simp [ownLabels, (h.label i _ hb).2, hi]
  have hnd : (f.ownLabels.map Label.index).Nodup := by
    rw [hidx]
    exact List.nodup_range
  exact List.Nodup.of_map _ hnd

/-- The block that the draft works on is the one at the place of its label. -/
theorem block?_eq (h : f.Tidy) {l : Label} {b : Block} (hb : f.At l b) : f.block? l = some b := by
  have hall : f.allBlocks = f.blocks := by simp [allBlocks, h.detached]
  rw [block?, hall]
  rcases hfind : f.blocks.find? (fun b => b.label = l) with _ | c
  · have := List.find?_eq_none.1 hfind b hb.mem
    simp [hb.2] at this
  · have hc : c.label = l := by simpa using List.find?_some hfind
    have hat := h.at_of_mem (List.mem_of_find?_eq_some hfind)
    rw [hc] at hat
    rw [hfind, hat.unique hb]

end Tidy

/-! ## Functions -/

/-- The order in which a function grows. -/
structure Le (f f' : Func) : Prop where
  /-- it stays the same function -/
  id : f'.id = f.id
  /-- with the same result -/
  result : f'.result = f.result
  /-- and the same parameters -/
  params : f'.params = f.params
  /-- instructions are only added -/
  regs : f.regs ≤ f'.regs
  /-- blocks are only added -/
  labels : f.labels ≤ f'.labels
  /-- and every block grows -/
  blocks : ∀ l b, f.At l b → ∃ b', f'.At l b' ∧ b.Le b'

theorem Le.refl (f : Func) : f.Le f :=
  ⟨rfl, rfl, rfl, Nat.le_refl _, Nat.le_refl _, fun _ b hb => ⟨b, hb, .refl b⟩⟩

theorem Le.trans {f g h : Func} (h₁ : f.Le g) (h₂ : g.Le h) : f.Le h where
  id := h₂.id.trans h₁.id
  result := h₂.result.trans h₁.result
  params := h₂.params.trans h₁.params
  regs := Nat.le_trans h₁.regs h₂.regs
  labels := Nat.le_trans h₁.labels h₂.labels
  blocks := fun l b hb => by
    obtain ⟨c, hc, hbc⟩ := h₁.blocks l b hb
    obtain ⟨d, hd, hcd⟩ := h₂.blocks l c hc
    exact ⟨d, hd, hbc.trans hcd⟩

/-- No block is lost. -/
theorem Le.at {f f' : Func} (h : f.Le f') {l : Label} {b : Block} (hb : f.At l b) :
    ∃ b', f'.At l b' := by
  obtain ⟨b', hb', -⟩ := h.blocks l b hb
  exact ⟨b', hb'⟩

/-- The number of an instruction that reserves room. -/
def IsSlot (f : Func) (r : Nat) : Prop :=
  ∃ l b line, f.At l b ∧ line ∈ b.lines ∧ line.reg = r ∧ line.inst.isAlloca = true

/-- Room stays room. -/
theorem IsSlot.mono {f f' : Func} (h : f.Le f') {r : Nat} (hr : f.IsSlot r) : f'.IsSlot r := by
  obtain ⟨l, b, line, hb, hl, hreg, ha⟩ := hr
  obtain ⟨b', hb', hle⟩ := h.blocks l b hb
  exact ⟨l, b', line, hb', hle.lines hl, hreg, ha⟩

/-! ## What the primitives write -/

/-- Puts an instruction at the end of a block. -/
def put (f : Func) (l : Label) (inst : Inst) : Func :=
  { f.modifyBlock l fun b => { b with lines := b.lines ++ [{ reg := f.regs, inst }] } with
    regs := f.regs + 1 }

/-- Ends a block. -/
def close (f : Func) (l : Label) (t : Term) : Func :=
  f.modifyBlock l fun b => { b with term := some t }

/-- Reserves room at the head of the entry. -/
def reserve (f : Func) (t : DataType) (hint : String) : Func :=
  let line : Line :=
    { reg := f.regs, name := (f.claimName hint).1, inst := .alloca (Ty.ofData t) }
  { (f.claimName hint).2 with
    blocks := f.blocks.modify 0 fun b =>
      { b with lines := Emit.insertAlloca f.reserved line b.lines }
    regs := f.regs + 1
    reserved := f.reserved + 1 }

section Modify

variable {f : Func} {l : Label} {g : Block → Block} (hg : ∀ b, (g b).label = b.label)
include hg

/-- Changing a block leaves the others. -/
theorem at_modifyBlock {k : Label} {c : Block} :
    (f.modifyBlock l g).At k c ↔ ∃ b, f.At k b ∧ c = if k = l then g b else b := by
  have hget : (f.modifyBlock l g).blocks[k.index]? =
      f.blocks[k.index]?.map fun b => if b.label = l then g b else b := by
    simp [modifyBlock]
  constructor
  · rintro ⟨hc, hk⟩
    rw [hget] at hc
    obtain ⟨b, hb, rfl⟩ := Option.map_eq_some_iff.1 hc
    have hbk : b.label = k := by
      rw [← hk]
      split
      · exact (hg b).symm
      · rfl
    exact ⟨b, ⟨hb, hbk⟩, by rw [hbk]⟩
  · rintro ⟨b, ⟨hb, hbk⟩, rfl⟩
    refine ⟨by rw [hget, hb, Option.map_some, hbk], ?_⟩
    split
    · rw [hg, hbk]
    · exact hbk

theorem at_modifyBlock_self {b : Block} (hb : f.At l b) : (f.modifyBlock l g).At l (g b) :=
  (at_modifyBlock hg).2 ⟨b, hb, by simp⟩

theorem at_modifyBlock_ne {k : Label} {c : Block} (hne : k ≠ l) :
    (f.modifyBlock l g).At k c ↔ f.At k c := by
  rw [at_modifyBlock hg]
  simp [hne]

theorem Tidy.modifyBlock (h : f.Tidy) : (f.modifyBlock l g).Tidy where
  entry := by simpa [Func.modifyBlock] using h.entry
  count := by simpa [Func.modifyBlock] using h.count
  label := fun i b hb => by
    simp only [Func.modifyBlock, List.getElem?_map, Option.map_eq_some_iff] at hb
    obtain ⟨c, hc, rfl⟩ := hb
    have := h.label i c hc
    split
    · rw [hg]; exact this
    · exact this
  detached := by simp [Func.modifyBlock, h.detached]

omit hg in
/-- The block with a label is changed at its place. -/
theorem blocks_modifyBlock {b : Block} (h : f.Tidy) (hb : f.At l b) :
    (f.modifyBlock l g).blocks = f.blocks.set l.index (g b) := by
  apply List.ext_getElem?
  intro i
  by_cases hi : l.index = i
  · subst hi
    rw [List.getElem?_set_self hb.lt]
    simp only [Func.modifyBlock, List.getElem?_map, hb.1, Option.map_some, hb.2, if_true]
  · rcases hc : f.blocks[i]? with _ | c
    · simp [Func.modifyBlock, hc, hi]
    · have hcl : c.label ≠ l := fun hcl => hi (by rw [← hcl, (h.label i c hc).2])
      simp [Func.modifyBlock, hc, hi, hcl]

end Modify

/-! ### Instructions -/

section Put

variable {f : Func} {l : Label} {inst : Inst} {b : Block}

/-- A block with another instruction at its end. -/
def withLine (f : Func) (inst : Inst) (b : Block) : Block :=
  { b with lines := b.lines ++ [{ reg := f.regs, inst }] }

theorem at_put_self (hb : f.At l b) : (f.put l inst).At l (f.withLine inst b) :=
  at_modifyBlock_self (g := f.withLine inst) (fun _ => rfl) hb

theorem at_put_ne {k : Label} {c : Block} (hne : k ≠ l) : (f.put l inst).At k c ↔ f.At k c :=
  at_modifyBlock_ne (g := f.withLine inst) (fun _ => rfl) hne

/-- Instructions do not matter for the labels. -/
theorem Tidy.put (h : f.Tidy) : (f.put l inst).Tidy := by
  obtain ⟨he, hc, hl, hd⟩ := h.modifyBlock (l := l) (g := f.withLine inst) (fun _ => rfl)
  exact ⟨he, hc, hl, hd⟩

/-- An instruction at the end of an open block. -/
theorem le_put (hb : f.At l b) (ho : b.term = none) : f.Le (f.put l inst) where
  id := rfl
  result := rfl
  params := rfl
  regs := Nat.le_succ _
  labels := Nat.le_refl _
  blocks := fun k c hc => by
    by_cases hk : k = l
    · subst hk
      obtain rfl := hc.unique hb
      refine ⟨_, at_put_self hb, rfl, fun _ h => List.mem_append_left _ h, ?_, ?_⟩
      · rw [Block.body, Block.body, withLine, List.filter_append]
        exact List.prefix_append _ _
      · intro t ht
        rw [ho] at ht
        cases ht
    · exact ⟨c, (at_put_ne hk).2 hc, .refl c⟩

end Put

/-! ### Terminators -/

section Close

variable {f : Func} {l : Label} {t : Term} {b : Block}

theorem at_close_self (hb : f.At l b) : (f.close l t).At l { b with term := some t } :=
  at_modifyBlock_self (g := fun b => { b with term := some t }) (fun _ => rfl) hb

theorem at_close_ne {k : Label} {c : Block} (hne : k ≠ l) : (f.close l t).At k c ↔ f.At k c :=
  at_modifyBlock_ne (g := fun b => { b with term := some t }) (fun _ => rfl) hne

theorem Tidy.close (h : f.Tidy) : (f.close l t).Tidy :=
  h.modifyBlock (g := fun b => { b with term := some t }) fun _ => rfl

/-- A terminator for an open block. -/
theorem le_close (hb : f.At l b) (ho : b.term = none) : f.Le (f.close l t) where
  id := rfl
  result := rfl
  params := rfl
  regs := Nat.le_refl _
  labels := Nat.le_refl _
  blocks := fun k c hc => by
    by_cases hk : k = l
    · subst hk
      obtain rfl := hc.unique hb
      refine ⟨_, at_close_self hb, rfl, fun _ h => h, List.prefix_rfl, ?_⟩
      intro t ht
      rw [ho] at ht
      cases ht
    · exact ⟨c, (at_close_ne hk).2 hc, .refl c⟩

end Close

/-! ### New blocks -/

section AddBlock

variable {f : Func} {hint : String}

/-- The block that is added. -/
theorem at_addBlock_new (h : f.Tidy) :
    (f.addBlock hint).2.At (f.addBlock hint).1 { label := (f.addBlock hint).1 } := by
  refine ⟨?_, rfl⟩
  simp [addBlock, claimName, countName, h.count]

theorem index_addBlock : (f.addBlock hint).1.index = f.labels := rfl

theorem at_addBlock_old {l : Label} {b : Block} (hb : f.At l b) : (f.addBlock hint).2.At l b := by
  refine ⟨?_, hb.2⟩
  have : (f.addBlock hint).2.blocks = f.blocks ++ [{ label := (f.addBlock hint).1 }] := rfl
  rw [this, List.getElem?_append_left hb.lt]
  exact hb.1

/-- A block of the larger function is the new one or an old one. -/
theorem at_addBlock {l : Label} {b : Block} (h : f.Tidy) (hb : (f.addBlock hint).2.At l b) :
    f.At l b ∨ l = (f.addBlock hint).1 ∧ b = { label := (f.addBlock hint).1 } := by
  by_cases hl : l.index < f.blocks.length
  · left
    have hblocks : (f.addBlock hint).2.blocks =
        f.blocks ++ [{ label := (f.addBlock hint).1 }] := rfl
    obtain ⟨hget, hlab⟩ := hb
    rw [hblocks, List.getElem?_append_left hl] at hget
    exact ⟨hget, hlab⟩
  · right
    have hnew : (f.addBlock hint).2.At (f.addBlock hint).1 { label := (f.addBlock hint).1 } :=
      at_addBlock_new h
    have hlen : (f.addBlock hint).2.blocks.length = f.blocks.length + 1 := by
      simp [addBlock, claimName, countName]
    have hidx : l.index = (f.addBlock hint).1.index := by
      have := hb.lt
      rw [index_addBlock, h.count]
      omega
    obtain rfl := hb.label_ext hnew hidx
    exact ⟨rfl, hb.unique hnew⟩

/-- A new block has a new label. -/
theorem Tidy.addBlock (h : f.Tidy) : (f.addBlock hint).2.Tidy where
  entry := by simp [Func.addBlock, claimName, countName]
  count := by simp [Func.addBlock, claimName, countName, h.count]
  label := fun i b hb => by
    have hblocks : (f.addBlock hint).2.blocks =
        f.blocks ++ [{ label := (f.addBlock hint).1 }] := rfl
    rw [hblocks] at hb
    by_cases hi : i < f.blocks.length
    · rw [List.getElem?_append_left hi] at hb
      exact h.label i b hb
    · obtain rfl : i = f.blocks.length := by
        have := (List.getElem?_eq_some_iff.1 hb).1
        simp at this
        omega
      simp only [List.getElem?_concat_length, Option.some.injEq] at hb
      subst hb
      exact ⟨rfl, h.count⟩
  detached := h.detached

/-- A function grows by a block. -/
theorem le_addBlock : f.Le (f.addBlock hint).2 where
  id := rfl
  result := rfl
  params := rfl
  regs := Nat.le_refl _
  labels := Nat.le_succ _
  blocks := fun _ b hb => ⟨b, at_addBlock_old hb, .refl b⟩

end AddBlock

/-! ### Room -/

section Reserve

variable {f : Func} {t : DataType} {hint : String}

/-- The instruction that reserves room. -/
def slotLine (f : Func) (t : DataType) (hint : String) : Line :=
  { reg := f.regs, name := (f.claimName hint).1, inst := .alloca (Ty.ofData t) }

/-- A block behind a reservation: only the entry differs. -/
def withSlot (f : Func) (t : DataType) (hint : String) (i : Nat) (b : Block) : Block :=
  if i = 0 then { b with lines := Emit.insertAlloca f.reserved (f.slotLine t hint) b.lines } else b

/-- Room is reserved in the first block, and the others stay. -/
theorem getElem?_reserve (i : Nat) :
    (f.reserve t hint).blocks[i]? = f.blocks[i]?.map (f.withSlot t hint i) := by
  simp only [reserve, List.getElem?_modify]
  rcases f.blocks[i]? with _ | b
  · rfl
  · by_cases hi : 0 = i
    · simp [withSlot, ← hi, slotLine]
    · simp [withSlot, hi, Ne.symm hi]

@[simp] theorem label_withSlot (i : Nat) (b : Block) : (f.withSlot t hint i b).label = b.label := by
  unfold withSlot
  split <;> rfl

@[simp] theorem term_withSlot (i : Nat) (b : Block) : (f.withSlot t hint i b).term = b.term := by
  unfold withSlot
  split <;> rfl

theorem at_reserve {l : Label} {c : Block} :
    (f.reserve t hint).At l c ↔ ∃ b, f.At l b ∧ c = f.withSlot t hint l.index b := by
  constructor
  · rintro ⟨hc, hl⟩
    rw [getElem?_reserve] at hc
    obtain ⟨b, hb, rfl⟩ := Option.map_eq_some_iff.1 hc
    exact ⟨b, ⟨hb, by simpa using hl⟩, rfl⟩
  · rintro ⟨b, ⟨hb, hl⟩, rfl⟩
    exact ⟨by rw [getElem?_reserve, hb, Option.map_some], by simpa using hl⟩

theorem Tidy.reserve (h : f.Tidy) : (f.reserve t hint).Tidy where
  entry := by
    have := h.entry
    simp [Func.reserve, this]
  count := by simpa [Func.reserve, claimName, countName] using h.count
  label := fun i b hb => by
    rw [getElem?_reserve] at hb
    obtain ⟨c, hc, rfl⟩ := Option.map_eq_some_iff.1 hb
    rw [label_withSlot]
    exact h.label i c hc
  detached := h.detached

end Reserve

end Func

/-- Room is reserved somewhere among the instructions. -/
theorem Emit.insertAlloca_perm (n : Nat) (line : Line) (lines : List Line) :
    (Emit.insertAlloca n line lines).Perm (line :: lines) := by
  have hperm : (Emit.insertAlloca n line lines).Perm (line :: (lines.take n ++ lines.drop n)) :=
    List.perm_middle
  rwa [List.take_append_drop] at hperm

/-- A line among those of an entry with another reservation. -/
theorem Emit.mem_insertAlloca {n : Nat} {line x : Line} {lines : List Line} :
    x ∈ Emit.insertAlloca n line lines ↔ x = line ∨ x ∈ lines := by
  rw [(Emit.insertAlloca_perm n line lines).mem_iff, List.mem_cons]

/-- A reservation is no part of the body. -/
theorem Emit.filter_insertAlloca {line : Line} (h : line.inst.isAlloca = true) (n : Nat)
    (lines : List Line) : (Emit.insertAlloca n line lines).filter (fun l => !l.inst.isAlloca) =
      lines.filter fun l => !l.inst.isAlloca := by
  conv_rhs => rw [← List.take_append_drop n lines, List.filter_append]
  rw [insertAlloca, List.filter_append, List.filter_cons_of_neg (by simp [h])]

namespace Func

variable {f : Func} {t : DataType} {hint : String}

@[simp] theorem body_withSlot (i : Nat) (b : Block) : (f.withSlot t hint i b).body = b.body := by
  unfold withSlot
  split
  · exact Emit.filter_insertAlloca rfl _ b.lines
  · rfl

theorem le_withSlot (i : Nat) (b : Block) : b.Le (f.withSlot t hint i b) := by
  refine ⟨by simp, fun line hline => ?_, by simp, fun t ht => by simpa using ht⟩
  unfold withSlot
  split
  · exact Emit.mem_insertAlloca.2 (.inr hline)
  · exact hline

/-- A function grows by room. -/
theorem le_reserve : f.Le (f.reserve t hint) where
  id := rfl
  result := rfl
  params := rfl
  regs := Nat.le_succ _
  labels := Nat.le_refl _
  blocks := fun l b hb => ⟨_, at_reserve.2 ⟨b, hb, rfl⟩, le_withSlot l.index b⟩

/-! ### Ways to a block

Only a terminator opens new ways. -/

/-- The ways that lead from a block to a label. -/
def waysFrom (b : Block) (k : Label) : List Label :=
  (b.successors.filter fun s => s = k).map fun _ => b.label

theorem predecessors_eq (f : Func) (k : Label) :
    f.predecessors k = f.blocks.flatMap fun b => waysFrom b k := rfl

/-- The predecessors of a block are those that go to it. -/
theorem mem_predecessors {f : Func} {k l : Label} :
    l ∈ f.predecessors k ↔ ∃ b ∈ f.blocks, b.label = l ∧ k ∈ b.successors := by
  simp only [predecessors_eq, List.mem_flatMap, waysFrom, List.mem_map, List.mem_filter,
    decide_eq_true_eq]
  constructor
  · rintro ⟨b, hb, s, ⟨hs, rfl⟩, rfl⟩
    exact ⟨b, hb, rfl, hs⟩
  · rintro ⟨b, hb, rfl, hs⟩
    exact ⟨b, hb, k, ⟨hs, rfl⟩, rfl⟩

/-- A change that keeps labels and terminators keeps all ways. -/
theorem predecessors_congr {f f' : Func} (k : Label)
    (hlen : f'.blocks.length = f.blocks.length)
    (h : ∀ (i : Nat) (b b' : Block), f.blocks[i]? = some b → f'.blocks[i]? = some b' →
      b'.label = b.label ∧ b'.term = b.term) :
    f'.predecessors k = f.predecessors k := by
  have hmap : f'.blocks.map (fun b => waysFrom b k) = f.blocks.map fun b => waysFrom b k := by
    apply List.ext_getElem (by simp [hlen])
    intro i h₁ h₂
    simp only [List.length_map] at h₁ h₂
    obtain ⟨hl, ht⟩ := h i _ _ (List.getElem?_eq_getElem h₂) (List.getElem?_eq_getElem h₁)
    simp [waysFrom, Block.successors, hl, ht]
  rw [predecessors_eq, predecessors_eq, List.flatMap_def, List.flatMap_def, hmap]

/-- Instructions go nowhere. -/
theorem predecessors_put {l : Label} {inst : Inst} (k : Label) :
    (f.put l inst).predecessors k = f.predecessors k := by
  refine predecessors_congr k (by simp [put, modifyBlock]) ?_
  intro i b b' hb hb'
  simp only [put, modifyBlock, List.getElem?_map, hb, Option.map_some, Option.some.injEq] at hb'
  subst hb'
  split <;> exact ⟨rfl, rfl⟩

theorem predecessors_reserve (k : Label) :
    (f.reserve t hint).predecessors k = f.predecessors k := by
  refine predecessors_congr k (by simp [reserve]) ?_
  intro i b b' hb hb'
  rw [getElem?_reserve, hb, Option.map_some] at hb'
  obtain rfl := Option.some.inj hb'
  simp

/-- No block goes to a new one, and the new one goes nowhere. -/
theorem predecessors_addBlock (k : Label) :
    (f.addBlock hint).2.predecessors k = f.predecessors k := by
  have hblocks : (f.addBlock hint).2.blocks = f.blocks ++ [{ label := (f.addBlock hint).1 }] := rfl
  rw [predecessors_eq, hblocks, List.flatMap_append, ← predecessors_eq]
  simp [waysFrom, Block.successors]

/-- The end of an open block adds one way to each block that it goes to. -/
theorem predecessors_close {l : Label} {b : Block} {t : Term} (h : f.Tidy) (hb : f.At l b)
    (k : Label) :
    (f.close l t).predecessors k =
      (f.blocks.take l.index).flatMap (fun b => waysFrom b k) ++
        ((t.successors.filter fun s => s = k).map fun _ => l) ++
        (f.blocks.drop (l.index + 1)).flatMap fun b => waysFrom b k := by
  have hset : (f.close l t).blocks = f.blocks.set l.index { b with term := some t } :=
    blocks_modifyBlock h hb
  rw [predecessors_eq, hset, List.set_eq_take_append_cons_drop, if_pos hb.lt, List.flatMap_append,
    List.flatMap_cons, List.append_assoc]
  have hways : waysFrom { b with term := some t } k =
      (t.successors.filter fun s => s = k).map fun _ => l := by
    simp [waysFrom, Block.successors, hb.2]
  rw [hways]

/-- The ways before an open block is ended, split at that block. -/
theorem predecessors_split {l : Label} {b : Block} (hb : f.At l b) (ho : b.term = none)
    (k : Label) :
    f.predecessors k = (f.blocks.take l.index).flatMap (fun b => waysFrom b k) ++
      (f.blocks.drop (l.index + 1)).flatMap fun b => waysFrom b k := by
  have hsplit : f.blocks = f.blocks.take l.index ++ b :: f.blocks.drop (l.index + 1) := by
    obtain ⟨hlt, hget⟩ := List.getElem?_eq_some_iff.1 hb.1
    rw [← hget, List.getElem_cons_drop, List.take_append_drop]
  have hways : waysFrom b k = [] := by simp [waysFrom, Block.successors_eq_nil ho]
  conv_lhs => rw [predecessors_eq, hsplit, List.flatMap_append, List.flatMap_cons, hways]
  rw [List.nil_append]

/-- Ending a block adds it to the predecessors of those that it goes to. -/
theorem predecessors_close_perm {l : Label} {b : Block} {t : Term} (h : f.Tidy) (hb : f.At l b)
    (ho : b.term = none) (k : Label) :
    ((f.close l t).predecessors k).Perm
      (f.predecessors k ++ (t.successors.filter fun s => s = k).map fun _ => l) := by
  rw [predecessors_close h hb, predecessors_split hb ho, List.append_assoc, List.append_assoc]
  exact (List.perm_append_comm).append_left _

theorem predecessors_close_of_notMem {l : Label} {b : Block} {t : Term} (h : f.Tidy)
    (hb : f.At l b) (ho : b.term = none) {k : Label} (hk : k ∉ t.successors) :
    (f.close l t).predecessors k = f.predecessors k := by
  have hnil : (t.successors.filter fun s => s = k) = [] := by
    simp only [List.filter_eq_nil_iff, decide_eq_true_eq]
    rintro s hs rfl
    exact hk hs
  rw [predecessors_close h hb, predecessors_split hb ho, hnil, List.map_nil, List.append_nil]

end Func

/-! ## Drafts -/

namespace Draft

/-- An instruction has been written at the point, and a value is its result. -/
def Puts (d : Draft) (inst : Inst) (v : Value) (d' : Draft) : Prop :=
  ∃ l b τ, d.point = some l ∧ d.func.At l b ∧ d' = { d with func := d.func.put l inst } ∧
    inst.type? = some τ ∧ v = .result d.func.id d.func.regs "" τ

/-- The block at the point has been ended. -/
def Closes (d : Draft) (term : Term) (d' : Draft) : Prop :=
  ∃ l b, d.point = some l ∧ d.func.At l b ∧ d'.func.At l { b with term := some term }

/-- Writing starts at an empty block. -/
def Starts (d : Draft) (k : Label) : Prop := d.point = some k ∧ ∃ b, d.func.At k b ∧ b.body = []

/-- Code has been written elsewhere only, if at all. -/
def Stays (d d' : Draft) : Prop :=
  d'.point = d.point ∧ ∀ l b, d.point = some l → d.func.At l b →
    ∃ b', d'.func.At l b' ∧ b'.body = b.body

variable {d d' : Draft}

theorem Stays.refl (d : Draft) : d.Stays d := ⟨rfl, fun _ b _ hb => ⟨b, hb, rfl⟩⟩

/-- Staying goes on. -/
theorem Stays.trans {d'' : Draft} (h₁ : d.Stays d') (h₂ : d'.Stays d'') : d.Stays d'' := by
  refine ⟨h₂.1.trans h₁.1, fun l b hl hb => ?_⟩
  obtain ⟨b', hb', hbody⟩ := h₁.2 l b hl hb
  obtain ⟨b'', hb'', hbody'⟩ := h₂.2 l b' (h₁.1.trans hl) hb'
  exact ⟨b'', hb'', hbody'.trans hbody⟩

end Draft

end Shader.Ir
