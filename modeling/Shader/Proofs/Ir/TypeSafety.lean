import Shader.Proofs.Ir.Writing

/-!
# Type safety of written code

Every step of writing puts an instruction or a terminator whose operands have the right types, and
what an operand refers to keeps its type as the function grows. So a function that is written step
by step is well typed at every time.
-/

namespace Shader.Ir

/-! ## Larger surroundings

Global variables are declared while code is written, so code is also well typed where there is more
to refer to. -/

/-- There is at least as much to refer to. -/
structure Outside.Le (O O' : Outside) : Prop where
  /-- every variable is still there -/
  globals : ∀ g ∈ O.globals, g ∈ O'.globals
  /-- every function has kept its result and parameters -/
  sigs : ∀ id sig, O.sigs id = some sig → O'.sigs id = some sig

theorem Outside.Le.refl (O : Outside) : O.Le O := ⟨fun _ h => h, fun _ _ h => h⟩

/-- More and more is outside. -/
theorem Outside.Le.trans {O P Q : Outside} (h₁ : O.Le P) (h₂ : P.Le Q) : O.Le Q :=
  ⟨fun g hg => h₂.globals g (h₁.globals g hg), fun id sig h => h₂.sigs id sig (h₁.sigs id sig h)⟩

/-- An instruction stays well typed when more is outside. -/
theorem Inst.WellTyped.outside {O O' : Outside} (h : O.Le O') {inst : Inst}
    (hi : inst.WellTyped O) : inst.WellTyped O' := by
  cases inst with
  | call func result args => exact h.sigs func _ hi
  | _ => exact hi

/-- A value that is known stays known. -/
theorem Value.Known.outside {O O' : Outside} (h : O.Le O') {f : Func} {v : Value}
    (hv : v.Known O f) : v.Known O' f := by
  cases v with
  | global id content =>
    obtain ⟨g, hg, hid, hty⟩ := hv
    exact ⟨g, h.globals g hg, hid, hty⟩
  | _ => exact hv

theorem Site.CanUse.outside {O O' : Outside} (h : O.Le O') {s : Site} {l : Label} {v : Value}
    (hv : s.CanUse O l v) : s.CanUse O' l v := ⟨hv.1.outside h, hv.2⟩

theorem Step.outside {O O' : Outside} (h : O.Le O') {n : Nat} {w : Option Label}
    {t : Label → Prop} {s s' : Site} (hs : Step O n w t s s') : Step O' n w t s s' := by
  cases hs with
  | put hp hb ho hl ha hi hty hv =>
    exact .put hp hb ho hl ha hi (hty.outside h) fun v hv' => (hv v hv').outside h
  | phi hp hb ho hl h0 he hty hways hv =>
    exact .phi hp hb ho hl h0 he (hty.outside h) hways fun i hi => (hv i hi).outside h
  | close hp hb ho hl hty hv htarget =>
    exact .close hp hb ho hl hty (fun v hv' => (hv v hv').outside h) htarget
  | block hint promise => exact .block _ hint promise
  | slot hint hvoid => exact .slot _ hint hvoid
  | move hp => exact .move _ hp

/-- What has been written may still be written when more is outside. -/
theorem Steps.outside {O O' : Outside} (h : O.Le O') {n : Nat} {w : Option Label}
    {t : Label → Prop} {s s' : Site} (hs : Steps O n w t s s') : Steps O' n w t s s' := by
  induction hs with
  | refl => exact .refl
  | tail _ hstep ih => exact ih.tail (hstep.outside h)

/-! ## Written code is well typed -/

variable {O : Outside}

namespace Func.WellTyped

variable {f : Func}

/-- A well typed instruction is put at the end of an open block. -/
theorem put (h : f.WellTyped O) (ht : f.Tidy) {l : Label} {b : Block} {inst : Inst}
    (hb : f.At l b) (ho : b.term = none) (hty : inst.WellTyped O)
    (hv : ∀ v ∈ inst.operands, v.Known O f) : (f.put l inst).WellTyped O := by
  have hle : f.Le (f.put l inst) := le_put hb ho
  -- a block is an old one, or that with the new instruction at its end
  have hcases : ∀ c ∈ (f.put l inst).blocks, c ∈ f.blocks ∨ c = f.withLine inst b := by
    intro c hc
    have hat := ht.put.at_of_mem hc
    by_cases hl : c.label = l
    · rw [hl] at hat
      exact .inr (hat.unique (at_put_self hb))
    · exact .inl ((at_put_ne hl).1 hat).mem
  refine ⟨fun c hc line hline => ?_, fun c hc line hline v hv' => ?_, fun c hc t htm => ?_,
    fun c hc t htm v hv' => ?_⟩
  · rcases hcases c hc with hc | rfl
    · exact h.line c hc line hline
    · rcases List.mem_append.1 hline with hline | hline
      · exact h.line b hb.mem line hline
      · obtain rfl := List.mem_singleton.1 hline
        exact hty
  · rcases hcases c hc with hc | rfl
    · exact (h.operand c hc line hline v hv').mono hle
    · rcases List.mem_append.1 hline with hline | hline
      · exact (h.operand b hb.mem line hline v hv').mono hle
      · obtain rfl := List.mem_singleton.1 hline
        exact (hv v hv').mono hle
  · rcases hcases c hc with hc | rfl
    · exact h.term c hc t htm
    · exact h.term b hb.mem t htm
  · rcases hcases c hc with hc | rfl
    · exact (h.termOperand c hc t htm v hv').mono hle
    · exact (h.termOperand b hb.mem t htm v hv').mono hle

/-- A well typed end is given to an open block. -/
theorem close (h : f.WellTyped O) (ht : f.Tidy) {l : Label} {b : Block} {term : Term}
    (hb : f.At l b) (ho : b.term = none) (hty : term.WellTyped f.result)
    (hv : ∀ v ∈ term.operands, v.Known O f) : (f.close l term).WellTyped O := by
  have hle : f.Le (f.close l term) := le_close hb ho
  have hcases : ∀ c ∈ (f.close l term).blocks, c ∈ f.blocks ∨ c = { b with term := some term } := by
    intro c hc
    have hat := ht.close.at_of_mem hc
    by_cases hl : c.label = l
    · rw [hl] at hat
      exact .inr (hat.unique (at_close_self hb))
    · exact .inl ((at_close_ne hl).1 hat).mem
  refine ⟨fun c hc line hline => ?_, fun c hc line hline v hv' => ?_, fun c hc t htm => ?_,
    fun c hc t htm v hv' => ?_⟩
  · rcases hcases c hc with hc | rfl
    · exact h.line c hc line hline
    · exact h.line b hb.mem line hline
  · rcases hcases c hc with hc | rfl
    · exact (h.operand c hc line hline v hv').mono hle
    · exact (h.operand b hb.mem line hline v hv').mono hle
  · rcases hcases c hc with hc | rfl
    · exact h.term c hc t htm
    · obtain rfl : term = t := Option.some.inj htm
      exact hty
  · rcases hcases c hc with hc | rfl
    · exact (h.termOperand c hc t htm v hv').mono hle
    · obtain rfl : term = t := Option.some.inj htm
      exact (hv v hv').mono hle

theorem addBlock (h : f.WellTyped O) {hint : String} : (f.addBlock hint).2.WellTyped O := by
  have hle : f.Le (f.addBlock hint).2 := le_addBlock
  have hcases : ∀ c ∈ (f.addBlock hint).2.blocks,
      c ∈ f.blocks ∨ c = { label := (f.addBlock hint).1 } := fun c hc => by
    rcases List.mem_append.1 hc with hc | hc
    · exact .inl hc
    · exact .inr (List.mem_singleton.1 hc)
  refine ⟨fun c hc line hline => ?_, fun c hc line hline v hv' => ?_, fun c hc t htm => ?_,
    fun c hc t htm v hv' => ?_⟩
  · rcases hcases c hc with hc | rfl
    · exact h.line c hc line hline
    · cases hline
  · rcases hcases c hc with hc | rfl
    · exact (h.operand c hc line hline v hv').mono hle
    · cases hline
  · rcases hcases c hc with hc | rfl
    · exact h.term c hc t htm
    · cases htm
  · rcases hcases c hc with hc | rfl
    · exact (h.termOperand c hc t htm v hv').mono hle
    · cases htm

/-- Room is reserved for a type with values. -/
theorem reserve (h : f.WellTyped O) (ht : f.Tidy) {type : DataType} {hint : String}
    (hvoid : type ≠ .void) : (f.reserve type hint).WellTyped O := by
  have hle : f.Le (f.reserve type hint) := le_reserve
  have hcases : ∀ c ∈ (f.reserve type hint).blocks, ∃ b ∈ f.blocks, c.term = b.term ∧
      ∀ line ∈ c.lines, line = f.slotLine type hint ∨ line ∈ b.lines := by
    intro c hc
    obtain ⟨b, hb, heq⟩ := at_reserve.1 (ht.reserve.at_of_mem hc)
    refine ⟨b, hb.mem, by rw [heq, term_withSlot], fun line hline => ?_⟩
    rw [heq] at hline
    unfold withSlot at hline
    split at hline
    · exact Emit.mem_insertAlloca.1 hline
    · exact .inr hline
  refine ⟨fun c hc line hline => ?_, fun c hc line hline v hv' => ?_, fun c hc t htm => ?_,
    fun c hc t htm v hv' => ?_⟩ <;> obtain ⟨b, hb, hterm, hlines⟩ := hcases c hc
  · rcases hlines line hline with rfl | hline
    · exact Ty.ofData_ne_void hvoid
    · exact h.line b hb line hline
  · rcases hlines line hline with rfl | hline
    · cases hv'
    · exact (h.operand b hb line hline v hv').mono hle
  · exact h.term b hb t (by rw [← hterm]; exact htm)
  · exact (h.termOperand b hb t (by rw [← hterm]; exact htm) v hv').mono hle

end Func.WellTyped

variable {n : Nat} {w : Option Label} {t : Label → Prop} {s s' : Site}

/-- One step keeps a function well typed. -/
theorem Step.wellTyped (h : Step O n w t s s') (ht : s.func.Tidy) (hs : s.func.WellTyped O) :
    s'.func.WellTyped O := by
  cases h with
  | put _ hb ho _ _ _ hty hv => exact hs.put ht hb ho hty fun v hv' => (hv v hv').1
  | phi _ hb ho _ _ _ hty _ hv =>
    refine hs.put ht hb ho hty fun v hv' => ?_
    obtain ⟨i, hi, rfl⟩ := List.mem_map.1 hv'
    exact (hv i hi).1
  | close _ hb ho _ hty hv => exact hs.close ht hb ho hty fun v hv' => (hv v hv').1
  | block => exact hs.addBlock
  | slot _ hvoid => exact hs.reserve ht hvoid
  | move => exact hs

/-- Every function that is written step by step is well typed. -/
theorem Steps.wellTyped (h : Steps O n w t s s') (ht : s.func.Tidy) (hs : s.func.WellTyped O) :
    s'.func.WellTyped O := by
  induction h with
  | refl => exact hs
  | tail hsteps hstep ih => exact hstep.wellTyped (Steps.tidy hsteps ht) ih

/-- An instruction that is there after a step was there before, or has been written by it. -/
theorem Step.written (h : Step O n w t s s') (ht : s.func.Tidy) {l : Label} {b' : Block}
    (hb' : s'.func.At l b') {line : Line} (hline : line ∈ b'.lines) :
    (∃ b, s.func.At l b ∧ line ∈ b.lines) ∨
      s.func.regs ≤ line.reg ∧ line.inst.WellTyped O := by
  -- a new line is at the end of its block; any other line was there
  have hput : ∀ {k b inst}, s.func.At k b → inst.WellTyped O → (s.func.put k inst).At l b' →
      (∃ b, s.func.At l b ∧ line ∈ b.lines) ∨
        s.func.regs ≤ line.reg ∧ line.inst.WellTyped O := by
    intro k b inst hb hty hat
    by_cases hl : l = k
    · subst hl
      obtain rfl := hat.unique (Func.at_put_self hb)
      rcases List.mem_append.1 hline with hold | hnew
      · exact .inl ⟨b, hb, hold⟩
      · obtain rfl := List.mem_singleton.1 hnew
        exact .inr ⟨Nat.le_refl _, hty⟩
    · exact .inl ⟨b', (Func.at_put_ne hl).1 hat, hline⟩
  cases h with
  | put _ hb _ _ _ _ hty => exact hput hb hty hb'
  | phi _ hb _ _ _ _ hty => exact hput hb hty hb'
  | @close k b term _ hb =>
    by_cases hl : l = k
    · subst hl
      obtain rfl := hb'.unique (Func.at_close_self hb)
      exact .inl ⟨b, hb, hline⟩
    · exact .inl ⟨b', (Func.at_close_ne hl).1 hb', hline⟩
  | block hint =>
    rcases Func.at_addBlock ht hb' with hold | ⟨-, rfl⟩
    · exact .inl ⟨b', hold, hline⟩
    · cases hline
  | slot hint hvoid =>
    obtain ⟨b, hb, rfl⟩ := Func.at_reserve.1 hb'
    unfold Func.withSlot at hline
    split at hline
    · rcases Emit.mem_insertAlloca.1 hline with rfl | hold
      · exact .inr ⟨Nat.le_refl _, Ty.ofData_ne_void hvoid⟩
      · exact .inl ⟨b, hb, hold⟩
    · exact .inl ⟨b, hb, hline⟩
  | move => exact .inl ⟨b', hb', hline⟩

/-- What has been written behind what was there has new numbers and is well typed. -/
theorem Steps.written (h : Steps O n w t s s') (ht : s.func.Tidy) {l : Label} {b' : Block}
    (hb' : s'.func.At l b') {line : Line} (hline : line ∈ b'.lines) :
    (∃ b, s.func.At l b ∧ line ∈ b.lines) ∨
      s.func.regs ≤ line.reg ∧ line.inst.WellTyped O := by
  induction h generalizing b' with
  | refl => exact .inl ⟨b', hb', hline⟩
  | tail hsteps hstep ih =>
    rcases hstep.written (Steps.tidy hsteps ht) hb' hline with ⟨b, hb, hold⟩ | ⟨hreg, hty⟩
    · exact ih hb hold
    · exact .inr ⟨Nat.le_trans (Steps.le hsteps).regs hreg, hty⟩

/-- At its start a function has no code to be wrong. -/
theorem Site.Fresh.wellTyped (h : s.Fresh) : s.func.WellTyped O where
  line := fun b hb line hl => by
    rw [(h.blocks _ b (h.tidy.at_of_mem hb)).1] at hl
    cases hl
  operand := fun b hb line hl => by
    rw [(h.blocks _ b (h.tidy.at_of_mem hb)).1] at hl
    cases hl
  term := fun b hb t ht => by
    rw [(h.blocks _ b (h.tidy.at_of_mem hb)).2] at ht
    cases ht
  termOperand := fun b hb t ht => by
    rw [(h.blocks _ b (h.tidy.at_of_mem hb)).2] at ht
    cases ht

end Shader.Ir
