import Shader.Proofs.Ir.Writing
import Shader.Ir.Prune

/-!
# Well-formed functions

What a function should be, said of its blocks: every block is ended, goes only to blocks of the
function and never back to the entry, a return carries what the function yields, and the choices of
a block stand at its head and have one value for each way to the block.

While a function is written its blocks may still be open; `Func.Shaped` is the rest of the property,
which every step of writing keeps.
-/

namespace Shader.Ir

/-- The choices among instructions come before all others. -/
def PhisFirst (lines : List Line) : Prop :=
  lines.Pairwise fun x y => y.inst.incoming?.isSome → x.inst.incoming?.isSome

namespace Func

/-- The choices of a block stand at its head, each with one value for every way to the block. -/
structure PhisFit (f : Func) (b : Block) : Prop where
  /-- the choices stand at the head -/
  first : PhisFirst b.lines
  /-- each has the values of all ways -/
  ways : ∀ line ∈ b.lines, ∀ incoming, line.inst.incoming? = some incoming →
    (incoming.map Prod.snd).Perm (f.predecessors b.label)

/-- A function with a body whose blocks hang together. -/
structure WellFormed (f : Func) : Prop where
  /-- there is a body -/
  body : f.blocks ≠ []
  /-- every block has a terminator -/
  closed : ∀ b ∈ f.blocks, ∃ t, b.term = some t
  /-- control stays in the function -/
  inside : ∀ b ∈ f.blocks, ∀ k ∈ b.successors, k ∈ f.ownLabels
  /-- nothing goes to the entry -/
  entry : ∀ e ∈ f.blocks.head?, f.predecessors e.label = []
  /-- a return carries what the function yields, and nothing if that is nothing -/
  result : ∀ b ∈ f.blocks, ∀ v, b.term = some (.ret v) → (Term.ret v).WellTyped f.result
  /-- choices fit the ways to their blocks -/
  phis : ∀ b ∈ f.blocks, f.PhisFit b

end Func

/-! ## Well-formedness while a function is written -/

namespace Func

/-- What holds of a function at every time while it is written: as `WellFormed`, except that blocks
may be open. -/
structure Shaped (f : Func) : Prop where
  /-- control stays in the function, and does not come back to the entry -/
  inside : ∀ l b, f.At l b → ∀ k ∈ b.successors, (∃ c, f.At k c) ∧ k.index ≠ 0
  /-- a terminator carries what it must -/
  result : ∀ l b, f.At l b → ∀ t, b.term = some t → t.WellTyped f.result
  /-- a choice is the first instruction of its block, and has the values of all ways to it -/
  phis : ∀ l b, f.At l b → ∀ (i : Nat) line incoming, b.lines[i]? = some line →
    line.inst.incoming? = some incoming → i = 0 ∧ l.index ≠ 0 ∧
      (incoming.map Prod.snd).Perm (f.predecessors l)

theorem Shaped.phisFit {f : Func} (h : f.Shaped) {l : Label} {b : Block} (hb : f.At l b) :
    f.PhisFit b where
  first := by
    refine List.pairwise_iff_getElem.2 fun i j hi hj hij hphi => ?_
    obtain ⟨incoming, hinc⟩ := Option.isSome_iff_exists.1 hphi
    have := (h.phis l b hb j _ incoming (List.getElem?_eq_getElem hj) hinc).1
    omega
  ways := fun line hline incoming hinc => by
    obtain ⟨i, hi⟩ := List.mem_iff_getElem?.1 hline
    rw [hb.2]
    exact (h.phis l b hb i line incoming hi hinc).2.2

/-- Once all blocks are ended, the function is well formed. -/
theorem Shaped.wellFormed {f : Func} (h : f.Shaped) (ht : f.Tidy)
    (hclosed : ∀ b ∈ f.blocks, ∃ t, b.term = some t) : f.WellFormed where
  body := ht.entry
  closed := hclosed
  inside := fun b hb k hk => by
    obtain ⟨⟨c, hc⟩, -⟩ := h.inside _ b (ht.at_of_mem hb) k hk
    exact hc.mem_ownLabels
  entry := fun e he => by
    have hat : f.At e.label e :=
      ht.at_of_getElem? (i := 0) (by rw [← List.head?_eq_getElem?]; exact he)
    have h0 : e.label.index = 0 :=
      (ht.label 0 e (by rw [← List.head?_eq_getElem?]; exact he)).2
    refine List.eq_nil_iff_forall_not_mem.2 fun l hl => ?_
    obtain ⟨b, hb, -, hk⟩ := mem_predecessors.1 hl
    exact (h.inside _ b (ht.at_of_mem hb) _ hk).2 h0
  result := fun b hb v hv => h.result _ b (ht.at_of_mem hb) _ hv
  phis := fun b hb => h.phisFit (ht.at_of_mem hb)

/-- An instruction behind others moves none of them. -/
theorem getElem?_withLine {f : Func} {inst : Inst} {b : Block} {i : Nat} {line : Line}
    (h : (f.withLine inst b).lines[i]? = some line) :
    b.lines[i]? = some line ∨ i = b.lines.length ∧ line.inst = inst := by
  rcases Nat.lt_trichotomy i b.lines.length with hi | hi | hi
  · rw [withLine, List.getElem?_append_left hi] at h
    exact .inl h
  · subst hi
    simp only [withLine, List.getElem?_concat_length, Option.some.injEq] at h
    exact .inr ⟨rfl, by rw [← h]⟩
  · have : (b.lines ++ [(⟨f.regs, "", inst⟩ : Line)]).length ≤ i := by
      simp only [List.length_append, List.length_singleton]
      omega
    rw [withLine, List.getElem?_eq_none this] at h
    cases h

theorem Shaped.put {f : Func} (h : f.Shaped) {l : Label} {b : Block} {inst : Inst}
    (hb : f.At l b) (ho : b.term = none)
    (hphi : ∀ incoming, inst.incoming? = some incoming → b.lines = [] ∧ l.index ≠ 0 ∧
      (incoming.map Prod.snd).Perm (f.predecessors l)) : (f.put l inst).Shaped where
  inside := fun k c hc s hs => by
    by_cases hk : k = l
    · subst hk
      obtain rfl := hc.unique (at_put_self hb)
      obtain ⟨⟨d, hd⟩, h0⟩ := h.inside _ b hb s hs
      exact ⟨(le_put hb ho).at hd, h0⟩
    · obtain ⟨⟨d, hd⟩, h0⟩ := h.inside k c ((at_put_ne hk).1 hc) s hs
      exact ⟨(le_put hb ho).at hd, h0⟩
  result := fun k c hc t ht => by
    by_cases hk : k = l
    · subst hk
      obtain rfl := hc.unique (at_put_self hb)
      exact h.result _ b hb t ht
    · exact h.result k c ((at_put_ne hk).1 hc) t ht
  phis := fun k c hc i line incoming hi hinc => by
    rw [predecessors_put]
    by_cases hk : k = l
    · subst hk
      obtain rfl := hc.unique (at_put_self hb)
      rcases getElem?_withLine hi with hi | ⟨hi, hline⟩
      · exact h.phis _ b hb i line incoming hi hinc
      · rw [hline] at hinc
        obtain ⟨hnil, h0, hperm⟩ := hphi incoming hinc
        exact ⟨by simp [hi, hnil], h0, hperm⟩
    · exact h.phis k c ((at_put_ne hk).1 hc) i line incoming hi hinc

theorem Shaped.close {f : Func} (h : f.Shaped) (ht : f.Tidy) {l : Label} {b : Block} {term : Term}
    (hb : f.At l b) (ho : b.term = none) (hty : term.WellTyped f.result)
    (htarget : ∀ k ∈ term.successors, (∃ c, f.At k c ∧ ¬ c.hasPhi) ∧ k.index ≠ 0) :
    (f.close l term).Shaped where
  inside := fun k c hc s hs => by
    by_cases hk : k = l
    · subst hk
      obtain rfl := hc.unique (at_close_self hb)
      obtain ⟨⟨d, hd, -⟩, h0⟩ := htarget s (by simpa [Block.successors] using hs)
      exact ⟨(le_close hb ho).at hd, h0⟩
    · obtain ⟨⟨d, hd⟩, h0⟩ := h.inside k c ((at_close_ne hk).1 hc) s hs
      exact ⟨(le_close hb ho).at hd, h0⟩
  result := fun k c hc t' ht' => by
    by_cases hk : k = l
    · subst hk
      obtain rfl := hc.unique (at_close_self hb)
      obtain rfl : term = t' := Option.some.inj ht'
      exact hty
    · exact h.result k c ((at_close_ne hk).1 hc) t' ht'
  phis := fun k c hc i line incoming hi hinc => by
    -- a block with a choice is not gone to, so the ways to it stay the same
    have key : ∀ d, f.At k d → d.lines = c.lines → i = 0 ∧ k.index ≠ 0 ∧
        (incoming.map Prod.snd).Perm ((f.close l term).predecessors k) := by
      intro d hd hlines
      rw [← hlines] at hi
      have hnot : k ∉ term.successors := fun hk => by
        obtain ⟨⟨e, he, hphi⟩, -⟩ := htarget k hk
        obtain rfl := he.unique hd
        exact hphi ⟨line, List.mem_of_getElem? hi, by simp [hinc]⟩
      rw [predecessors_close_of_notMem ht hb ho hnot]
      exact h.phis k d hd i line incoming hi hinc
    by_cases hk : k = l
    · subst hk
      obtain rfl := hc.unique (at_close_self hb)
      exact key b hb rfl
    · exact key c ((at_close_ne hk).1 hc) rfl

theorem Shaped.addBlock {f : Func} (h : f.Shaped) (ht : f.Tidy) {hint : String} :
    (f.addBlock hint).2.Shaped where
  inside := fun k c hc s hs => by
    rcases at_addBlock ht hc with hc | ⟨-, rfl⟩
    · obtain ⟨⟨d, hd⟩, h0⟩ := h.inside k c hc s hs
      exact ⟨⟨d, at_addBlock_old hd⟩, h0⟩
    · cases hs
  result := fun k c hc t' ht' => by
    rcases at_addBlock ht hc with hc | ⟨-, rfl⟩
    · exact h.result k c hc t' ht'
    · cases ht'
  phis := fun k c hc i line incoming hi hinc => by
    rw [predecessors_addBlock]
    rcases at_addBlock ht hc with hc | ⟨-, rfl⟩
    · exact h.phis k c hc i line incoming hi hinc
    · simp at hi

theorem Shaped.reserve {f : Func} (h : f.Shaped) {type : DataType} {hint : String} :
    (f.reserve type hint).Shaped where
  inside := fun k c hc s hs => by
    obtain ⟨b, hb, rfl⟩ := at_reserve.1 hc
    obtain ⟨⟨d, hd⟩, h0⟩ := h.inside k b hb s (by simpa [Block.successors] using hs)
    exact ⟨⟨_, at_reserve.2 ⟨d, hd, rfl⟩⟩, h0⟩
  result := fun k c hc t' ht' => by
    obtain ⟨b, hb, rfl⟩ := at_reserve.1 hc
    exact h.result k b hb t' (by simpa using ht')
  phis := fun k c hc i line incoming hi hinc => by
    rw [predecessors_reserve]
    obtain ⟨b, hb, rfl⟩ := at_reserve.1 hc
    by_cases h0 : k.index = 0
    · -- the entry, to which the reservation goes, has no choice
      simp only [withSlot, h0, if_true] at hi
      rcases Emit.mem_insertAlloca.1 (List.mem_of_getElem? hi) with rfl | hline
      · cases hinc
      · obtain ⟨j, hj⟩ := List.mem_iff_getElem?.1 hline
        exact absurd h0 (h.phis k b hb j line incoming hj hinc).2.1
    · simp only [withSlot, h0, if_false] at hi
      exact h.phis k b hb i line incoming hi hinc

end Func

variable {O : Outside} {n : Nat} {w : Option Label} {t : Label → Prop} {s s' : Site}

theorem Step.shaped (h : Step O n w t s s') (ht : s.func.Tidy) (hs : s.func.Shaped) :
    s'.func.Shaped := by
  cases h with
  | put _ hb ho _ _ hi =>
    refine hs.put hb ho fun incoming hinc => ?_
    rw [hi] at hinc
    cases hinc
  | phi _ hb ho _ h0 he _ hways =>
    refine hs.put hb ho fun incoming hinc => ?_
    obtain rfl := Option.some.inj hinc
    exact ⟨he, h0, hways⟩
  | close _ hb ho _ hty _ htarget =>
    exact hs.close ht hb ho hty fun k hk => ⟨(htarget k hk).1, (htarget k hk).2.1⟩
  | block => exact hs.addBlock ht
  | slot => exact hs.reserve
  | move => exact hs

/-- Every function that is written step by step keeps its shape. -/
theorem Steps.shaped (h : Steps O n w t s s') (ht : s.func.Tidy) (hs : s.func.Shaped) :
    s'.func.Shaped := by
  induction h with
  | refl => exact hs
  | tail hsteps hstep ih => exact hstep.shaped (Steps.tidy hsteps ht) ih

theorem Site.Fresh.shaped (h : s.Fresh) : s.func.Shaped where
  inside := fun l b hb k hk => by
    rw [Block.successors_eq_nil (h.blocks l b hb).2] at hk
    cases hk
  result := fun l b hb t ht => by
    rw [(h.blocks l b hb).2] at ht
    cases ht
  phis := fun l b hb i line incoming hi => by
    rw [(h.blocks l b hb).1] at hi
    simp at hi

end Shader.Ir
