import Shader.Proofs.Ir.Pruning

/-!
# What is left of a pruned function

Pruning leaves exactly the blocks that control reaches, in their order. Their choices lose the
values for blocks that are gone and nothing else, all other instructions and the terminators stay as
they are. So there is nothing left for a second pruning, and where every choice had one value for
each way to its block and verification accepted the function, both are so afterwards.

All this is about functions whose branches and choices name blocks of the function itself; control
may come from anywhere, also from blocks that are never ended.
-/

namespace Shader.Ir

/-! ## Lines and blocks that lose values -/

/-- A line that is kept where certain blocks are live: a choice has the values for them, in their
order, and any other instruction is the same. -/
inductive Line.Trimmed (live : List Label) : Line → Line → Prop
  | choice (reg : Nat) (name : String) (type : Ty) (incoming : List (Value × Label)) :
    Trimmed live ⟨reg, name, .phi type incoming⟩
      ⟨reg, name, .phi type (incoming.filter fun i => i.2 ∈ live)⟩
  | other (line : Line) (h : line.inst.incoming? = none) : Trimmed live line line

/-- A block that is kept where certain blocks are live. -/
structure Block.Trimmed (live : List Label) (b c : Block) : Prop where
  /-- it is the same block -/
  label : c.label = b.label
  /-- it ends the same way -/
  term : c.term = b.term
  /-- each of its instructions is there -/
  lines : List.Forall₂ (Line.Trimmed live) b.lines c.lines

namespace Func

variable {f g : Func} {elsewhere : List Block}

theorem trimmed_dropIncoming (live : List Label) (line : Line) :
    line.Trimmed live (dropIncoming live line) := by
  obtain ⟨reg, name, inst⟩ := line
  cases inst with
  | phi type incoming => simpa [dropIncoming] using Line.Trimmed.choice reg name type incoming
  | _ => exact .other _ rfl

theorem forall₂_keep (live : List Label) : List.Forall₂ (Block.Trimmed live)
    (f.blocks.filter fun b => b.label ∈ live) (f.keep live) := by
  have hlines : ∀ lines : List Line,
      List.Forall₂ (Line.Trimmed live) lines (lines.map (dropIncoming live)) := by
    intro lines
    induction lines with
    | nil => exact .nil
    | cons line lines ih => exact .cons (trimmed_dropIncoming live line) ih
  have hblocks : ∀ bs : List Block, List.Forall₂ (Block.Trimmed live) bs
      (bs.map fun b => { b with lines := b.lines.map (dropIncoming live) }) := by
    intro bs
    induction bs with
    | nil => exact .nil
    | cons b bs ih => exact .cons ⟨rfl, rfl, hlines b.lines⟩ ih
  simpa [keep] using hblocks (f.blocks.filter fun b => b.label ∈ live)

/-! ## Functions that name their own blocks -/

/-- The labels tell the blocks of a function apart, and only they are named in it. -/
structure Enclosed (f : Func) : Prop where
  /-- no two blocks have the same label -/
  apart : f.Apart
  /-- branches go to blocks of the function -/
  targets : ∀ b ∈ f.blocks, ∀ k ∈ b.successors, k ∈ f.ownLabels
  /-- the values of choices are for blocks of the function -/
  sources : ∀ b ∈ f.blocks, ∀ line ∈ b.lines, ∀ incoming, line.inst.incoming? = some incoming →
    ∀ i ∈ incoming, i.2 ∈ f.ownLabels

instance : Decidable f.Enclosed :=
  decidable_of_iff ((∀ b ∈ f.blocks, ∀ c ∈ f.blocks, b.label = c.label → b = c) ∧
      (∀ b ∈ f.blocks, ∀ k ∈ b.successors, k ∈ f.ownLabels) ∧
      ∀ b ∈ f.blocks, ∀ line ∈ b.lines, ∀ incoming ∈ line.inst.incoming?,
        ∀ i ∈ incoming, i.2 ∈ f.ownLabels)
    ⟨fun h => ⟨h.1, h.2.1, h.2.2⟩, fun h => ⟨h.apart, h.targets, h.sources⟩⟩

/-- Control reaches a block from the entry. -/
def Reached (f : Func) (l : Label) : Prop :=
  ∃ e, f.blocks.head? = some e ∧ Relation.ReflTransGen f.Goes e.label l

theorem Enclosed.reached_own (h : f.Enclosed) {l : Label} (hl : f.Reached l) : l ∈ f.ownLabels := by
  obtain ⟨e, he, hway⟩ := hl
  induction hway with
  | refl => exact List.mem_map_of_mem (List.mem_of_mem_head? he)
  | tail _ hgo _ =>
    obtain ⟨b, hb, -, hk⟩ := hgo
    exact h.targets b hb _ hk

/-! ## What is found -/

theorem nodup_reachFrom {next : Label → List Label} : ∀ {steps done : Nat} {seen : List Label},
    seen.Nodup → (reachFrom next steps done seen).Nodup
  | 0, _, _, h => h
  | steps + 1, done, seen, h => by
    rw [reachFrom]
    split
    · exact h
    · exact nodup_reachFrom (nodup_addNew h)

theorem nodup_reachable : (f.reachable elsewhere).Nodup := by
  unfold reachable
  split
  · exact List.nodup_nil
  · exact nodup_reachFrom (List.nodup_singleton _)

/-- The labels that are found are those of the blocks that control reaches. -/
theorem Enclosed.mem_reachable_iff (h : f.Enclosed) {l : Label} :
    l ∈ f.reachable elsewhere ↔ f.Reached l := by
  rcases he : f.blocks.head? with _ | e
  · have hnil : f.blocks = [] := List.head?_eq_none_iff.1 he
    simp [reachable, hnil, Reached]
  · rw [mem_reachable h.apart h.targets he, Reached]
    simp [he]

/-- As many labels as blocks are found only if all are. -/
theorem Enclosed.all_reachable (h : f.Enclosed)
    (hlen : (f.reachable elsewhere).length = f.blocks.length) :
    ∀ l ∈ f.ownLabels, l ∈ f.reachable elsewhere := by
  have hown : f.reachable elsewhere ⊆ f.ownLabels := fun l hl =>
    h.reached_own (h.mem_reachable_iff.1 hl)
  have hperm : (f.reachable elsewhere).Perm f.ownLabels := by
    apply (List.subperm_of_subset nodup_reachable hown).perm_of_length_le
    rw [hlen, ownLabels, List.length_map]
  intro l hl
  exact hperm.mem_iff.2 hl

/-! ## What is kept -/

/-- Where all blocks are live, all is kept. -/
theorem Enclosed.keep_eq (h : f.Enclosed) {live : List Label}
    (hlive : ∀ l ∈ f.ownLabels, l ∈ live) :
    f.keep live = f.blocks := by
  have hline : ∀ b ∈ f.blocks, ∀ line ∈ b.lines, dropIncoming live line = line := by
    intro b hb line hline
    obtain ⟨reg, name, inst⟩ := line
    cases inst with
    | phi type incoming =>
      have hall : (incoming.filter fun i => live.contains i.2) = incoming := by
        apply List.filter_eq_self.2
        intro i hi
        simpa using hlive i.2 (h.sources b hb _ hline incoming rfl i hi)
      simp only [dropIncoming, hall]
    | _ => rfl
  have hblocks : (f.blocks.filter fun b => live.contains b.label) = f.blocks := by
    apply List.filter_eq_self.2
    intro b hb
    simpa using hlive b.label (List.mem_map_of_mem hb)
  rw [keep, hblocks]
  conv_rhs => rw [← List.map_id f.blocks]
  apply List.map_congr_left
  intro b hb
  rw [List.map_congr_left (hline b hb), List.map_id']
  rfl

/-- Pruning keeps what is found, and nothing but the blocks of the function changes. -/
theorem Enclosed.prune_eq (h : f.Enclosed) (elsewhere : List Block) :
    ∃ detached, f.prune elsewhere =
      { f with blocks := f.keep (f.reachable elsewhere), detached } := by
  unfold prune
  dsimp only
  split
  next hlen => exact ⟨f.detached, by rw [h.keep_eq (h.all_reachable hlen)]⟩
  next => exact ⟨_, rfl⟩

section

variable {live : List Label} (hg : g.blocks = f.keep live)
include hg

theorem mem_ownLabels_of_keep {l : Label} : l ∈ g.ownLabels ↔ l ∈ f.ownLabels ∧ l ∈ live := by
  rw [ownLabels, hg, ownLabels_keep]
  simp

/-- What is kept names its own blocks, if what is live goes to nothing else. -/
theorem Enclosed.keep (h : f.Enclosed)
    (hclosed : ∀ b ∈ f.blocks, b.label ∈ live → ∀ k ∈ b.successors, k ∈ live) : g.Enclosed := by
  refine ⟨?_, fun c hc k hk => ?_, fun c hc line hline incoming hinc i hi => ?_⟩
  · intro c hc c' hc' hlabel
    obtain ⟨b, hb, -, rfl⟩ := mem_keep.1 (hg ▸ hc)
    obtain ⟨b', hb', -, rfl⟩ := mem_keep.1 (hg ▸ hc')
    obtain rfl := h.apart b hb b' hb' hlabel
    rfl
  · obtain ⟨b, hb, hlive, rfl⟩ := mem_keep.1 (hg ▸ hc)
    exact (mem_ownLabels_of_keep hg).2 ⟨h.targets b hb k hk, hclosed b hb hlive k hk⟩
  · obtain ⟨b, hb, hlive, rfl⟩ := mem_keep.1 (hg ▸ hc)
    obtain ⟨old, hold, rfl⟩ := List.mem_map.1 hline
    rw [incoming?_dropIncoming] at hinc
    obtain ⟨all, hall, rfl⟩ := Option.map_eq_some_iff.1 hinc
    obtain ⟨hi, hkept⟩ := List.mem_filter.1 hi
    exact (mem_ownLabels_of_keep hg).2 ⟨h.sources b hb old hold all hall i hi, by simpa using hkept⟩

/-- What control reached is reached in what is kept. -/
theorem Reached.keep (hlive : ∀ l, f.Reached l → l ∈ live) {l : Label} (hl : f.Reached l) :
    g.Reached l := by
  obtain ⟨e, he, hway⟩ := hl
  refine ⟨_, hg ▸ head?_keep he (hlive _ ⟨e, he, .refl⟩), ?_⟩
  induction hway with
  | refl => exact .refl
  | tail hway hgo ih =>
    obtain ⟨b, hb, rfl, hk⟩ := hgo
    refine ih.tail ⟨{ b with lines := b.lines.map (dropIncoming live) }, ?_, rfl, hk⟩
    rw [hg]
    exact mem_keep.2 ⟨b, hb, hlive _ ⟨e, he, hway⟩, rfl⟩

end

/-- A function of which control reaches all blocks is not pruned. -/
theorem Enclosed.prune_eq_self (h : f.Enclosed) (hall : ∀ l ∈ f.ownLabels, f.Reached l) :
    f.prune elsewhere = f := by
  have hlive : ∀ l ∈ f.ownLabels, l ∈ f.reachable elsewhere := fun l hl =>
    h.mem_reachable_iff.2 (hall l hl)
  have hgone : (f.blocks.filter fun b => !(f.reachable elsewhere).contains b.label) = [] := by
    apply List.filter_eq_nil_iff.2
    intro b hb
    simpa using hlive b.label (List.mem_map_of_mem hb)
  have hkept := h.keep_eq hlive
  rw [Func.keep] at hkept
  rw [prune]
  split
  · rfl
  · simp only [hkept, hgone, List.append_nil]

/-- Pruning keeps the blocks that control reaches, in their order, drops the values of their choices
for the others, and changes nothing else; it finds nothing to do a second time. Where every choice
has one value for each way to its block, it keeps that, and what verification says. -/
theorem Enclosed.remainder_prune (h : f.Enclosed) (elsewhere : List Block) :
    (∃ live blocks detached, (∀ l, l ∈ live ↔ f.Reached l) ∧
      List.Forall₂ (Block.Trimmed live) (f.blocks.filter fun b => b.label ∈ live) blocks ∧
      f.prune elsewhere = { f with blocks, detached }) ∧
    (∀ again, (f.prune elsewhere).prune again = f.prune elsewhere) ∧
    (f.Matched → ∀ ν, f.verify ν = none →
      (f.prune elsewhere).Matched ∧ ∀ ν', (f.prune elsewhere).verify ν' = none) := by
  have hlive : ∀ l, l ∈ f.reachable elsewhere ↔ f.Reached l := fun l => h.mem_reachable_iff
  have hclosed : ∀ b ∈ f.blocks, b.label ∈ f.reachable elsewhere →
      ∀ k ∈ b.successors, k ∈ f.reachable elsewhere := by
    intro b hb hl k hk
    obtain ⟨e, he, hway⟩ := (hlive _).1 hl
    exact (hlive k).2 ⟨e, he, hway.tail ⟨b, hb, rfl, hk⟩⟩
  obtain ⟨detached, hprune⟩ := h.prune_eq elsewhere
  have hblocks : (f.prune elsewhere).blocks = f.keep (f.reachable elsewhere) := by rw [hprune]
  refine ⟨⟨_, _, detached, hlive, forall₂_keep _, hprune⟩, fun again => ?_, fun hmatched ν hν => ?_⟩
  · apply (h.keep hblocks hclosed).prune_eq_self
    intro l hl
    apply Reached.keep hblocks fun k hk => (hlive k).2 hk
    exact (hlive l).1 ((mem_ownLabels_of_keep hblocks).1 hl).2
  · refine ⟨hmatched.keep hblocks, fun ν' => (verify_eq_none_iff_accepted ν').2 ?_⟩
    have haccepted := (verify_eq_none_iff_accepted ν).1 hν
    apply haccepted.keep hmatched hblocks (by rw [hprune]) _ hclosed
    intro e he
    exact (hlive _).2 ⟨e, he, .refl⟩

/-- A function with a block that nothing goes to, which goes to where a number is chosen. -/
def deadEnd : Build Unit := do
  let f ← Build.declareFunc "f" (.data .int) []
  let entry ← Build.enter f.id
  let dead ← Build.newBlock "dead"
  let exit ← Build.newBlock "exit"
  Build.atPoint (Emit.br exit)
  Build.setPoint (some dead)
  Build.atPoint (Emit.br exit)
  Build.setPoint (some exit)
  let v ← Build.atPoint (Emit.phi [(.int 1, entry), (.int 2, dead)])
  Build.atPoint (Emit.ret (some v))

theorem Enclosed.remainder_prune_deadEnd : ∃ b f, deadEnd.run {} = .ok ((), b) ∧
    f ∈ b.module.funcs ∧ f.Enclosed ∧ f.Matched ∧ f.verify b.module.numbers = none ∧
    f.blocks.length = 3 ∧ (f.prune []).blocks.length = 2 ∧
    (∀ again, (f.prune []).prune again = f.prune []) ∧ (f.prune []).Matched ∧
    ∀ ν, (f.prune []).verify ν = none := by
  obtain ⟨b, f, hrun, hf, hseen⟩ := exists_built deadEnd
    (t := fun f => f.Enclosed ∧ f.Matched ∧ f.violations = [] ∧ f.blocks.length = 3 ∧
      (f.prune []).blocks.length = 2) (by decide +kernel)
  obtain ⟨hown, hmatched, hnone, hlen, hlen'⟩ := of_decide_eq_true hseen
  have hverify : f.verify b.module.numbers = none :=
    (verify_eq_none_iff_accepted _).2 (violations_eq_nil_iff.1 hnone)
  obtain ⟨-, hagain, hkeeps⟩ := hown.remainder_prune []
  exact ⟨b, f, hrun, hf, hown, hmatched, hverify, hlen, hlen', hagain, hkeeps hmatched _ hverify⟩

end Func

end Shader.Ir
