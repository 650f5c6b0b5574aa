import Shader.Proofs.Ir.Numbering

/-!
# The code of a function

What is said of every instruction of a function does not depend on the blocks in which they stand:
the function is read as one list of instructions, `Func.code`, and one of terminators, `Func.terms`.
Both only grow while the function is written.
-/

namespace Shader.Ir.Func

/-- The instructions of a function, in the order of its blocks. -/
def code (f : Func) : List Line := f.blocks.flatMap Block.lines

/-- The terminators of the blocks that have been ended. -/
def terms (f : Func) : List Term := f.blocks.filterMap Block.term

/-- The order in which the code of a function grows. -/
structure Grows (f f' : Func) : Prop where
  /-- it stays the same function -/
  id : f'.id = f.id
  /-- instructions are only numbered -/
  regs : f.regs ≤ f'.regs
  /-- no instruction is lost -/
  code : f.code ⊆ f'.code
  /-- and no block -/
  labels : f.ownLabels ⊆ f'.ownLabels

theorem Grows.refl (f : Func) : f.Grows f := ⟨rfl, Nat.le_refl _, fun _ h => h, fun _ h => h⟩

/-- Growing goes on. -/
theorem Grows.trans {f g h : Func} (h₁ : f.Grows g) (h₂ : g.Grows h) : f.Grows h where
  id := h₂.id.trans h₁.id
  regs := Nat.le_trans h₁.regs h₂.regs
  code := fun _ hline => h₂.code (h₁.code hline)
  labels := fun _ hl => h₂.labels (h₁.labels hl)

section

variable {f : Func} {l : Label} {line : Line}

/-- The code is that of the blocks. -/
theorem mem_code : line ∈ f.code ↔ ∃ b ∈ f.blocks, line ∈ b.lines := List.mem_flatMap

/-- So are the ends. -/
theorem mem_terms {t : Term} : t ∈ f.terms ↔ ∃ b ∈ f.blocks, b.term = some t := List.mem_filterMap

/-- The numbers of a function are those of its code. -/
theorem regList_eq_map : f.regList = f.code.map Line.reg := by
  simp only [regList, code, List.map_flatMap]
  rfl

/-- Instructions with different numbers are different. -/
theorem Numbered.nodup_code (h : f.Numbered) : f.code.Nodup := by
  have hregs := h.once
  rw [regList_eq_map] at hregs
  exact hregs.of_map

/-- An instruction of a function is known by its number. -/
theorem Numbered.line_eq (h : f.Numbered) {line' : Line} (hline : line ∈ f.code)
    (hline' : line' ∈ f.code) (hreg : line.reg = line'.reg) : line = line' := by
  have hregs := h.once
  rw [regList_eq_map] at hregs
  exact List.inj_on_of_nodup_map hregs hline hline' hreg

/-! ## What the primitives do -/

@[simp] theorem ownLabels_put {inst : Inst} : (f.put l inst).ownLabels = f.ownLabels := by
  simp only [ownLabels, put, modifyBlock, List.map_map]
  refine List.map_congr_left fun b _ => ?_
  simp only [Function.comp]
  split <;> rfl

@[simp] theorem terms_put {inst : Inst} : (f.put l inst).terms = f.terms := by
  simp only [terms, put, modifyBlock, List.filterMap_map]
  refine List.filterMap_congr fun b _ => ?_
  simp only [Function.comp]
  split <;> rfl

/-- An instruction that has been put into a block of the function. -/
theorem mem_code_put {inst : Inst} (hl : l ∈ f.ownLabels) :
    line ∈ (f.put l inst).code ↔ line ∈ f.code ∨ line = { reg := f.regs, inst } := by
  simp only [mem_code, put, modifyBlock, List.mem_map]
  constructor
  · rintro ⟨_, ⟨b, hb, rfl⟩, hline⟩
    split at hline
    · rcases List.mem_append.1 hline with hold | hnew
      · exact .inl ⟨b, hb, hold⟩
      · exact .inr (List.mem_singleton.1 hnew)
    · exact .inl ⟨b, hb, hline⟩
  · rintro (⟨b, hb, hold⟩ | rfl)
    · refine ⟨_, ⟨b, hb, rfl⟩, ?_⟩
      split
      · exact List.mem_append_left _ hold
      · exact hold
    · obtain ⟨b, hb, hlabel⟩ := List.mem_map.1 hl
      refine ⟨_, ⟨b, hb, rfl⟩, ?_⟩
      simp [hlabel]

/-- An instruction is added to a block that is there. -/
theorem grows_put {inst : Inst} (hl : l ∈ f.ownLabels) : f.Grows (f.put l inst) where
  id := rfl
  regs := Nat.le_succ _
  code := fun _ hline => (mem_code_put hl).2 (.inl hline)
  labels := by simp

@[simp] theorem ownLabels_close {t : Term} : (f.close l t).ownLabels = f.ownLabels := by
  simp only [ownLabels, close, modifyBlock, List.map_map]
  refine List.map_congr_left fun b _ => ?_
  simp only [Function.comp]
  split <;> rfl

@[simp] theorem code_close {t : Term} : (f.close l t).code = f.code := by
  simp only [code, close, modifyBlock, List.flatMap_map]
  refine List.flatMap_congr fun b _ => ?_
  split <;> rfl

/-- A block is given an end, perhaps in the place of another one. -/
theorem mem_terms_close {t t' : Term} (h : t' ∈ (f.close l t).terms) : t' = t ∨ t' ∈ f.terms := by
  simp only [mem_terms, close, modifyBlock, List.mem_map] at h
  obtain ⟨_, ⟨b, hb, rfl⟩, hterm⟩ := h
  split at hterm
  · exact .inl (Option.some.inj hterm).symm
  · exact .inr (mem_terms.2 ⟨b, hb, hterm⟩)

/-- No instruction is lost when a block is ended. -/
theorem grows_close {t : Term} : f.Grows (f.close l t) where
  id := rfl
  regs := Nat.le_refl _
  code := by simp
  labels := by simp

variable {hint : String}

theorem ownLabels_addBlock :
    (f.addBlock hint).2.ownLabels = f.ownLabels ++ [(f.addBlock hint).1] := List.map_append

@[simp] theorem code_addBlock : (f.addBlock hint).2.code = f.code := by
  simp [code, addBlock, claimName, countName]

@[simp] theorem terms_addBlock : (f.addBlock hint).2.terms = f.terms := by
  simp [terms, addBlock, claimName, countName]

/-- A block is added behind the others. -/
theorem grows_addBlock : f.Grows (f.addBlock hint).2 where
  id := rfl
  regs := Nat.le_refl _
  code := by simp
  labels := by
    rw [ownLabels_addBlock]
    exact List.subset_append_left _ _

variable {t : DataType}

@[simp] theorem ownLabels_reserve : (f.reserve t hint).ownLabels = f.ownLabels := by
  refine List.ext_getElem? fun i => ?_
  simp only [ownLabels, List.getElem?_map, getElem?_reserve, Option.map_map]
  exact congrFun (congrArg _ (funext fun b => label_withSlot i b)) _

/-- Room is reserved where there is an entry. -/
theorem mem_code_reserve (h : f.blocks ≠ []) :
    line ∈ (f.reserve t hint).code ↔ line ∈ f.code ∨ line = f.slotLine t hint := by
  obtain ⟨e, bs, hblocks⟩ := List.exists_cons_of_ne_nil h
  have hreserve : (f.reserve t hint).blocks = f.withSlot t hint 0 e :: bs := by
    simp [reserve, hblocks, withSlot, slotLine]
  have hentry : line ∈ (f.withSlot t hint 0 e).lines ↔ line = f.slotLine t hint ∨ line ∈ e.lines :=
    Emit.mem_insertAlloca
  simp only [mem_code, hreserve, hblocks, List.exists_mem_cons_iff, hentry]
  rw [or_assoc, or_comm]

@[simp] theorem terms_reserve : (f.reserve t hint).terms = f.terms := by
  rcases hblocks : f.blocks with _ | ⟨e, bs⟩
  · simp [terms, reserve, hblocks]
  · simp [terms, reserve, hblocks, List.filterMap_cons]

/-- Room is reserved in the first block, if there is one. -/
theorem grows_reserve (h : f.blocks ≠ []) : f.Grows (f.reserve t hint) where
  id := rfl
  regs := Nat.le_succ _
  code := fun _ hline => (mem_code_reserve h).2 (.inl hline)
  labels := by simp

end

end Shader.Ir.Func

namespace Shader.Ir

/-- The order in which a draft grows while there is a point to write at. -/
structure Draft.Grows (d d' : Draft) : Prop where
  /-- its function grows -/
  func : d.func.Grows d'.func
  /-- and there is still a point -/
  point : d.point.isSome = true → d'.point.isSome = true

theorem Draft.Grows.refl (d : Draft) : d.Grows d := ⟨.refl _, id⟩

theorem Draft.Grows.trans {d d' d'' : Draft} (h : d.Grows d') (h' : d'.Grows d'') : d.Grows d'' :=
  ⟨h.func.trans h'.func, fun hd => h'.point (h.point hd)⟩

end Shader.Ir
