import Shader.Proofs.Ir.WellFormed
import Shader.Ir.Builder
import Mathlib.Data.List.Perm.Subperm

/-!
# What verification finds

Verification accepts a function exactly if it is `Func.Accepted`. That is less than
`Func.WellFormed`:

* of the values of a choice it asks that there are as many as there are ways to the block, and that
  each is for a block from which there is a way; so a choice may have two values for one way and
  none for another;
* of a return it asks that the type of what it carries is the type of the function; so where that is
  `void`, a return may carry a value of that type, such as the result of a call.

`Func.verify_eq_none_iff` says so, and that these two are all that is missing. A function that is
only declared is accepted as well.
-/

namespace Shader.Ir

/-! ## Choices at the head -/

theorem phisFirst_cons {line : Line} {lines : List Line} : PhisFirst (line :: lines) ↔
    (line.inst.incoming? = none → ∀ x ∈ lines, x.inst.incoming? = none) ∧ PhisFirst lines := by
  rw [PhisFirst, List.pairwise_cons]
  refine and_congr_left fun _ => ?_
  rcases line.inst.incoming? with _ | incoming
  · simp
  · simp

/-- The type of what a return carries, `void` if it carries nothing. -/
def carriedType : Option Value → Ty
  | none => .void
  | some v => v.type

theorem Term.WellTyped.carriedType {v : Option Value} {result : Ty}
    (h : (Term.ret v).WellTyped result) : carriedType v = result := by
  cases v with
  | none => exact Eq.symm h
  | some v => exact h.2

namespace Func

variable {f : Func}

/-! ## What is accepted -/

/-- The choices of a block stand at its head. Each has as many values as there are ways to the
block, and these are for blocks from which there is a way. -/
structure PhisCounted (f : Func) (b : Block) : Prop where
  /-- the choices stand at the head -/
  first : PhisFirst b.lines
  /-- the values of each are counted, and the blocks that they are for are known -/
  ways : ∀ line ∈ b.lines, ∀ incoming, line.inst.incoming? = some incoming →
    incoming.length = (f.predecessors b.label).length ∧
      ∀ i ∈ incoming, i.2 ∈ f.predecessors b.label

/-- What verification makes sure of. -/
structure Accepted (f : Func) : Prop where
  /-- every block has a terminator -/
  closed : ∀ b ∈ f.blocks, ∃ t, b.term = some t
  /-- control stays in the function -/
  inside : ∀ b ∈ f.blocks, ∀ k ∈ b.successors, k ∈ f.ownLabels
  /-- nothing goes to the entry -/
  entry : ∀ e ∈ f.blocks.head?, f.predecessors e.label = []
  /-- what a return carries has the type of the function -/
  result : ∀ b ∈ f.blocks, ∀ v, b.term = some (.ret v) → carriedType v = f.result
  /-- choices have the right number of values, for blocks in front of theirs -/
  phis : ∀ b ∈ f.blocks, f.PhisCounted b

/-- Every choice has one value for each way to its block. -/
def Matched (f : Func) : Prop := ∀ b ∈ f.blocks, ∀ line ∈ b.lines, ∀ incoming,
  line.inst.incoming? = some incoming → (incoming.map Prod.snd).Perm (f.predecessors b.label)

instance : Decidable f.Matched :=
  decidable_of_iff (∀ b ∈ f.blocks, ∀ line ∈ b.lines, ∀ incoming ∈ line.inst.incoming?,
    (incoming.map Prod.snd).Perm (f.predecessors b.label)) Iff.rfl

/-- No choice has more values for a block than there are ways from it. -/
def Unrepeated (f : Func) : Prop := ∀ b ∈ f.blocks, ∀ line ∈ b.lines, ∀ incoming,
  line.inst.incoming? = some incoming →
    ∀ k, (incoming.map Prod.snd).count k ≤ (f.predecessors b.label).count k

/-- No return carries a value of the type of nothing. -/
def Valued (f : Func) : Prop := ∀ b ∈ f.blocks, ∀ v, b.term = some (.ret (some v)) → v.type ≠ .void

/-- A choice that is counted and never repeats a way has them all. -/
theorem PhisCounted.perm {b : Block} (h : f.PhisCounted b) {line : Line} (hline : line ∈ b.lines)
    {incoming : List (Value × Label)} (hinc : line.inst.incoming? = some incoming)
    (hcount : ∀ k, (incoming.map Prod.snd).count k ≤ (f.predecessors b.label).count k) :
    (incoming.map Prod.snd).Perm (f.predecessors b.label) := by
  have hsub : (incoming.map Prod.snd).Subperm (f.predecessors b.label) :=
    List.subperm_iff_count.2 hcount
  refine hsub.perm_of_length_le ?_
  rw [List.length_map, (h.ways line hline incoming hinc).1]

/-- A choice that has one value for each way repeats none. -/
theorem Matched.unrepeated (h : f.Matched) : f.Unrepeated :=
  fun b hb line hline incoming hinc k =>
    (List.Perm.count_eq (h b hb line hline incoming hinc) k).le

theorem PhisFit.counted {b : Block} (h : f.PhisFit b) : f.PhisCounted b where
  first := h.first
  ways := fun line hline incoming hinc => by
    have hperm := h.ways line hline incoming hinc
    refine ⟨?_, fun i hi => hperm.mem_iff.1 (List.mem_map_of_mem hi)⟩
    rw [← hperm.length_eq, List.length_map]

/-- A well-formed function is accepted. -/
theorem WellFormed.accepted (h : f.WellFormed) : f.Accepted where
  closed := h.closed
  inside := h.inside
  entry := h.entry
  result := fun b hb v hv => (h.result b hb v hv).carriedType
  phis := fun b hb => (h.phis b hb).counted

theorem WellFormed.matched (h : f.WellFormed) : f.Matched := fun b hb => (h.phis b hb).ways

/-- Choices with a value for each way, and returns of values that there can be, are what an accepted
function needs to be well formed. -/
theorem wellFormed_iff :
    f.WellFormed ↔ f.blocks ≠ [] ∧ f.Accepted ∧ f.Unrepeated ∧ f.Valued := by
  constructor
  · intro h
    refine ⟨h.body, h.accepted, h.matched.unrepeated, fun b hb v hv => ?_⟩
    obtain ⟨hne, htype⟩ := h.result b hb (some v) hv
    rwa [htype]
  · rintro ⟨hbody, h, hunrepeated, hvalued⟩
    refine ⟨hbody, h.closed, h.inside, h.entry, fun b hb v hv => ?_, fun b hb => ?_⟩
    · have hcarried := h.result b hb v hv
      cases v with
      | none => exact hcarried.symm
      | some v => exact ⟨hcarried ▸ hvalued b hb v hv, hcarried⟩
    · refine ⟨(h.phis b hb).first, fun line hline incoming hinc => ?_⟩
      exact (h.phis b hb).perm hline hinc (hunrepeated b hb line hline incoming hinc)

/-! ## What is found -/

theorem termViolations_eq_nil_iff {b : Block} : f.termViolations b = [] ↔
    ∃ t, b.term = some t ∧ (∀ k ∈ t.successors, k ∈ f.ownLabels) ∧
      ∀ v, t = .ret v → carriedType v = f.result := by
  unfold termViolations
  rcases b.term with _ | t
  · simp
  · have hstray : ((t.successors.filter fun s => !f.ownLabels.contains s).map
        (Violation.strayBranch b.label)) = [] ↔ ∀ k ∈ t.successors, k ∈ f.ownLabels := by
      simp [List.filter_eq_nil_iff]
    simp only [List.append_eq_nil_iff, hstray, Option.some.injEq, exists_eq_left']
    refine and_congr_right fun _ => ?_
    cases t with
    | br => simp
    | condBr => simp
    | ret v =>
      cases v with
      | none => simp [carriedType, eq_comm]
      | some v => simp [carriedType]

theorem entryViolations_eq_nil_iff : f.entryViolations = [] ↔
    ∀ e ∈ f.blocks.head?, f.predecessors e.label = [] := by
  unfold entryViolations
  rcases f.blocks with _ | ⟨e, bs⟩
  · simp
  · have hhead : (∀ c ∈ (e :: bs).head?, f.predecessors c.label = []) ↔
        (f.predecessors e.label).length = 0 := by simp
    rw [hhead]
    dsimp only
    rcases (f.predecessors e.label).length with _ | n
    · simp
    · simp

theorem phiViolations_eq_nil_iff {l : Label} {preds : List Label} :
    ∀ {lines : List Line} {late : Bool}, phiViolations l preds late lines = [] ↔
      PhisFirst lines ∧ (late = true → ∀ line ∈ lines, line.inst.incoming? = none) ∧
      ∀ line ∈ lines, ∀ incoming, line.inst.incoming? = some incoming →
        incoming.length = preds.length ∧ ∀ i ∈ incoming, i.2 ∈ preds
  | [], late => by simp [phiViolations, PhisFirst]
  | line :: lines, late => by
    rw [phisFirst_cons, List.forall_mem_cons, List.forall_mem_cons]
    rcases hinc : line.inst.incoming? with _ | incoming
    · -- behind an instruction that is no choice, no choice may follow
      simp only [phiViolations, hinc, phiViolations_eq_nil_iff, forall_const]
      grind
    · have hstray : ((incoming.filter fun i => !preds.contains i.2).map fun i =>
          Violation.strayIncoming l i.2) = [] ↔ ∀ i ∈ incoming, i.2 ∈ preds := by
        simp [List.filter_eq_nil_iff]
      simp only [phiViolations, hinc, List.append_eq_nil_iff, phiViolations_eq_nil_iff, hstray]
      cases late with
      | false => grind
      | true => simp

/-- Verification finds nothing in a function that it accepts, and something in every other one. -/
theorem violations_eq_nil_iff : f.violations = [] ↔ f.Accepted := by
  by_cases hbody : f.blocks = []
  · simp only [violations, hbody, List.isEmpty_nil, if_true, true_iff]
    exact ⟨by simp [hbody], by simp [hbody], by simp [hbody], by simp [hbody], by simp [hbody]⟩
  have hempty : f.blocks.isEmpty = false := by simpa using hbody
  simp only [violations, hempty, Bool.false_eq_true, if_false, List.append_eq_nil_iff,
    List.flatMap_eq_nil_iff, termViolations_eq_nil_iff, entryViolations_eq_nil_iff,
    phiViolations_eq_nil_iff, false_implies, true_and]
  constructor
  · rintro ⟨⟨hterm, hentry⟩, hphis⟩
    refine ⟨fun b hb => ?_, fun b hb k hk => ?_, hentry, fun b hb v hv => ?_, fun b hb => ?_⟩
    · obtain ⟨t, ht, -, -⟩ := hterm b hb
      exact ⟨t, ht⟩
    · obtain ⟨t, ht, hinside, -⟩ := hterm b hb
      exact hinside k (by simpa [Block.successors, ht] using hk)
    · obtain ⟨t, ht, -, hresult⟩ := hterm b hb
      exact hresult v (Option.some.inj (ht.symm.trans hv))
    · exact ⟨(hphis b hb).1, (hphis b hb).2⟩
  · intro h
    refine ⟨⟨fun b hb => ?_, h.entry⟩, fun b hb => ⟨(h.phis b hb).first, (h.phis b hb).ways⟩⟩
    obtain ⟨t, ht⟩ := h.closed b hb
    refine ⟨t, ht, fun k hk => h.inside b hb k ?_, fun v hv => h.result b hb v (hv ▸ ht)⟩
    simpa [Block.successors, ht] using hk

/-- There is a text about a function exactly if something is found. -/
theorem verify_eq_none_iff_accepted (ν : Numbering) : f.verify ν = none ↔ f.Accepted := by
  rw [← violations_eq_nil_iff, verify, complaints]
  rcases f.violations with _ | ⟨v, vs⟩
  · simp [verdict?]
  · simp [verdict?]

theorem WellFormed.complaints_eq_nil (h : f.WellFormed) (ν : Numbering) : f.complaints ν = [] := by
  rw [complaints, violations_eq_nil_iff.2 h.accepted, List.map_nil]

/-- Verification accepts a function exactly if its blocks are ended, control stays in it and does
not come back to the entry, what is returned has the type of the function, and choices stand first,
have as many values as there are ways, and only for blocks from which there is a way. For a function
with a body to be well formed two things more are needed: no choice has more values for a block than
there are ways from it, and no return carries a value where there is nothing to carry. -/
theorem verify_eq_none_iff (f : Func) (ν : Numbering) :
    (f.verify ν = none ↔ f.Accepted) ∧
      (f.WellFormed ↔ f.blocks ≠ [] ∧ f.verify ν = none ∧ f.Unrepeated ∧ f.Valued) := by
  rw [verify_eq_none_iff_accepted]
  exact ⟨Iff.rfl, wellFormed_iff⟩

end Func

/-- Verification finds nothing wrong with a module of well-formed functions. -/
theorem Module.verify_eq_none {m : Module} (h : ∀ f ∈ m.funcs, f.WellFormed) : m.verify = none := by
  have : (m.funcs.flatMap fun f => f.complaints m.numbers) = [] :=
    List.flatMap_eq_nil_iff.2 fun f hf => (h f hf).complaints_eq_nil m.numbers
  simp [verify, this, verdict?]

/-! ## A choice that misses a way -/

/-- A function whose result is one of two numbers. There is a way from the entry and one from
another block to where it is chosen; the second number is for the block that `other` picks. -/
def chosen (other : Label → Label → Label) : Build Unit := do
  let f ← Build.declareFunc "f" (.data .int) [("c", .data .int, false)]
  let entry ← Build.enter f.id
  let side ← Build.newBlock "then"
  let merge ← Build.newBlock "merge"
  let c ← Build.atPoint (Emit.truth .int (.param f.id 0 "c" .i32))
  Build.atPoint (Emit.condBr c side merge)
  Build.setPoint (some side)
  Build.atPoint (Emit.br merge)
  Build.setPoint (some merge)
  let v ← Build.atPoint (Emit.phi [(.int 1, entry), (.int 2, other entry side)])
  Build.atPoint (Emit.ret (some v))

/-- A function that is seen to have a property when it is built. -/
theorem exists_built (act : Build Unit) {t : Func → Bool}
    (h : ((act.run {}).toOption.any fun r => r.2.module.funcs.any t) = true) :
    ∃ b f, act.run {} = .ok ((), b) ∧ f ∈ b.module.funcs ∧ t f = true := by
  rcases hrun : act.run {} with _ | ⟨⟨⟩, b⟩
  · rw [hrun] at h
    cases h
  · rw [hrun] at h
    obtain ⟨f, hf, ht⟩ := List.any_eq_true.1 h
    exact ⟨b, f, rfl, hf, ht⟩

namespace Func

/-- A choice with two values for the entry and none for the other block is accepted, so that more is
accepted than what is well formed. -/
theorem accepts_doubledWay : ∃ b f, (chosen fun entry _ => entry).run {} = .ok ((), b) ∧
    f ∈ b.module.funcs ∧ f.blocks ≠ [] ∧ f.verify b.module.numbers = none ∧ ¬ f.WellFormed := by
  obtain ⟨b, f, hrun, hf, hseen⟩ := exists_built (chosen fun entry _ => entry)
    (t := fun f => f.blocks ≠ [] ∧ f.violations = [] ∧ ¬ f.Matched) (by decide +kernel)
  obtain ⟨hbody, hnone, hmatched⟩ := of_decide_eq_true hseen
  refine ⟨b, f, hrun, hf, hbody, ?_, fun h => hmatched h.matched⟩
  exact (verify_eq_none_iff_accepted _).2 (violations_eq_nil_iff.1 hnone)

end Func

end Shader.Ir
