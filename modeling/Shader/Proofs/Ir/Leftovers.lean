import Mathlib.Data.List.Flatten
import Shader.Proofs.Ir.Dominance
import Shader.Proofs.Ir.Printing
import Shader.Proofs.Ir.Remainder

/-!
# What pruning leaves to be printed

What stays of a function when it is pruned are the blocks that control reaches. An instruction there
uses what has been computed on the way to it, so the text of what stays mentions no local of what is
gone: of the locals of the function that take a number, it mentions only those that stay.
-/

namespace Shader.Ir

/-! ## What is found -/

namespace Func

variable {f : Func} {elsewhere : List Block}

theorem Regular.enclosed (h : f.Regular) : f.Enclosed where
  apart := apart_of_nodup h.nodup
  targets := h.inside
  sources := fun b hb line hline incoming hinc i hi => by
    have hpred := (((h.phis b hb).ways line hline incoming hinc).mem_iff).1 (List.mem_map_of_mem hi)
    obtain ⟨c, hc, hlabel, -⟩ := mem_predecessors.1 hpred
    exact hlabel ▸ List.mem_map_of_mem hc

/-- Blocks elsewhere do not matter for what is taken out. -/
theorem Regular.prune_eq (h : f.Regular) : f.prune elsewhere = f.prune [] := by
  have hmem : ∀ l, l ∈ f.reachable elsewhere ↔ l ∈ f.reachable [] := fun l => by
    rw [h.enclosed.mem_reachable_iff, h.enclosed.mem_reachable_iff]
  have hlen : (f.reachable elsewhere).length = (f.reachable []).length :=
    ((List.perm_ext_iff_of_nodup nodup_reachable nodup_reachable).2 hmem).length_eq
  have hcontains : ∀ l, (f.reachable elsewhere).contains l = (f.reachable []).contains l :=
    fun l => Bool.eq_iff_iff.2 (by simp only [List.contains_iff_mem, hmem])
  have hdrop : dropIncoming (f.reachable elsewhere) = dropIncoming (f.reachable []) := by
    funext line
    simp only [dropIncoming, hcontains]
  simp only [Func.prune, hlen, hcontains, hdrop]

/-- Control reaches what is found. -/
theorem Regular.mem_reachable_iff (h : f.Regular) (ht : f.Tidy) {l : Label} :
    l ∈ f.reachable [] ↔ f.Reachable l := by
  obtain ⟨e, he⟩ : ∃ e, f.blocks.head? = some e :=
    Option.isSome_iff_exists.1 (by simpa [List.isSome_head?] using h.body)
  rw [mem_reachable (apart_of_nodup h.nodup) h.inside he]
  constructor
  · intro hway
    induction hway with
    | refl => exact ⟨[], .entry he⟩
    | tail _ hgo ih =>
      obtain ⟨ls, hpath⟩ := ih
      obtain ⟨b, hb, rfl, hk⟩ := hgo
      exact ⟨_, .next hpath (ht.at_of_mem hb) hk⟩
  · rintro ⟨ls, hpath⟩
    generalize hls : l :: ls = path at hpath
    induction hpath generalizing l ls with
    | entry he' =>
      obtain ⟨rfl, -⟩ := List.cons.inj hls
      rw [Option.some.inj (he.symm.trans he')]
    | next _ hb hk ih =>
      obtain ⟨rfl, rfl⟩ := List.cons.inj hls
      exact (ih _ rfl).tail ⟨_, hb.mem, hb.2, hk⟩

/-- What is there at the end of a block that control reaches is computed in such a block. -/
theorem DefinedAtEnd.reachable {l : Label} {r : Nat} (h : f.DefinedAtEnd l r)
    (hl : f.Reachable l) : ∃ d b, f.At d b ∧ r ∈ b.regs ∧ f.Reachable d := by
  obtain ⟨d, b, hb, hr, hdom⟩ := h
  obtain ⟨ls, hpath⟩ := hl
  obtain ⟨ls', hpath', -⟩ := hpath.first_visit (hdom ls hpath)
  exact ⟨d, b, hb, hr, ls', hpath'⟩

end Func

/-! ### Locals without names -/

theorem Block.cases_unnamed {b : Block} {e : Entity} (he : e ∈ b.unnamed) :
    e = .block b.label ∨ ∃ r ∈ b.regs, e = .result b.label.func r := by
  rcases List.mem_append.1 he with he | he
  · split at he
    · exact .inl (List.mem_singleton.1 he)
    · cases he
  · obtain ⟨line, hline, rfl⟩ := List.mem_map.1 he
    exact .inr ⟨line.reg, List.mem_map_of_mem (List.mem_filter.1 hline).1, rfl⟩

theorem Block.nodup_unnamed {b : Block} (h : b.regs.Nodup) : b.unnamed.Nodup := by
  refine List.Nodup.append ?_ ?_ ?_
  · split
    · exact List.nodup_singleton _
    · exact List.nodup_nil
  · have hregs : (b.lines.map fun l => Entity.result b.label.func l.reg).Nodup := by
      have := h.map (f := Entity.result b.label.func) fun x y hxy => by cases hxy; rfl
      rwa [Block.regs, List.map_map] at this
    exact hregs.sublist (List.filter_sublist.map _)
  · intro e he he'
    obtain ⟨line, -, rfl⟩ := List.mem_map.1 he'
    split at he
    · cases List.mem_singleton.1 he
    · cases he

namespace Func

variable {f : Func} {elsewhere : List Block}

theorem cases_unnamed {e : Entity} (he : e ∈ f.unnamed) :
    (∃ i, e = .param f.id i) ∨ ∃ b ∈ f.blocks, e ∈ b.unnamed := by
  rcases List.mem_append.1 he with he | he
  · obtain ⟨p, -, rfl⟩ := List.mem_map.1 he
    exact .inl ⟨p.2, rfl⟩
  · exact .inr (List.mem_flatMap.1 he)

theorem Tidy.home?_of_mem_unnamed (ht : f.Tidy) {e : Entity} (he : e ∈ f.unnamed) :
    e.home? = some f.id := by
  rcases cases_unnamed he with ⟨i, rfl⟩ | ⟨b, hb, he⟩
  · rfl
  · obtain ⟨i, hi⟩ := List.mem_iff_getElem?.1 hb
    have hfunc := (ht.label i b hi).1
    rcases Block.cases_unnamed he with rfl | ⟨r, -, rfl⟩
    · exact congrArg some hfunc
    · exact congrArg some hfunc

theorem Tidy.nodup_unnamed (ht : f.Tidy) (hn : f.Numbered) : f.unnamed.Nodup := by
  obtain ⟨hregs, hdisj⟩ := List.nodup_flatMap.1 hn.once
  have hlabels : f.blocks.Pairwise fun b c => b.label ≠ c.label :=
    List.pairwise_map.1 ht.nodup_ownLabels
  refine List.Nodup.append ?_ (List.nodup_flatMap.2 ⟨fun b hb => ?_, ?_⟩) ?_
  · have hidx : (f.params.zipIdx.map fun p => Entity.param f.id p.2).Nodup := by
      have := (List.nodup_range' (s := 0) (n := f.params.length)).map
        (f := Entity.param f.id) fun x y hxy => by cases hxy; rfl
      rwa [← List.zipIdx_map_snd, List.map_map] at this
    exact hidx.sublist (List.filter_sublist.map _)
  · exact Block.nodup_unnamed (hregs b hb)
  · refine (hlabels.and hdisj).imp fun {b c} hbc e hb hc => ?_
    rcases Block.cases_unnamed hb with rfl | ⟨r, hr, rfl⟩
    · rcases Block.cases_unnamed hc with heq | ⟨r, -, heq⟩
      · exact hbc.1 (Entity.block.inj heq)
      · cases heq
    · rcases Block.cases_unnamed hc with heq | ⟨r', hr', heq⟩
      · cases heq
      · obtain ⟨-, rfl⟩ := Entity.result.inj heq
        exact hbc.2 hr hr'
  · intro e he he'
    obtain ⟨p, -, rfl⟩ := List.mem_map.1 he
    obtain ⟨b, -, he'⟩ := List.mem_flatMap.1 he'
    rcases Block.cases_unnamed he' with heq | ⟨r, -, heq⟩
    · cases heq
    · cases heq

/-! ### What is kept -/

theorem hasResult_dropIncoming {kept : List Label} {line : Line} :
    (dropIncoming kept line).inst.hasResult = line.inst.hasResult := by
  rcases line with ⟨reg, name, inst⟩
  cases inst <;> rfl

theorem reg_dropIncoming {kept : List Label} {line : Line} :
    (dropIncoming kept line).reg = line.reg := by
  rcases line with ⟨reg, name, inst⟩
  cases inst <;> rfl

theorem name_dropIncoming {kept : List Label} {line : Line} :
    (dropIncoming kept line).name = line.name := by
  rcases line with ⟨reg, name, inst⟩
  cases inst <;> rfl

/-- A kept block has the locals it had. -/
theorem unnamed_dropIncoming (b : Block) (kept : List Label) :
    Block.unnamed { b with lines := b.lines.map (dropIncoming kept) } = b.unnamed := by
  simp only [Block.unnamed, List.filter_map, List.map_map]
  have hfilter : (fun l : Line => decide (l.name = "") && l.inst.hasResult) ∘ dropIncoming kept =
      fun l => decide (l.name = "") && l.inst.hasResult := by
    funext l
    simp only [Function.comp, hasResult_dropIncoming, name_dropIncoming]
  have hreg : (fun l : Line => Entity.result b.label.func l.reg) ∘ dropIncoming kept =
      fun l => .result b.label.func l.reg := by
    funext l
    simp only [Function.comp, reg_dropIncoming]
  rw [hfilter, hreg]

/-- The locals of the kept blocks. -/
theorem unnamed_keep (f : Func) (kept : List Label) :
    (f.keep kept).flatMap Block.unnamed =
      (f.blocks.filter fun b => kept.contains b.label).flatMap Block.unnamed := by
  rw [keep, List.flatMap_map]
  exact List.flatMap_congr fun b _ => unnamed_dropIncoming b kept

/-- Keeping what control reaches also describes a function from which nothing is taken out. -/
theorem Regular.blocks_prune (h : f.Regular) : (f.prune []).blocks = f.keep (f.reachable []) := by
  obtain ⟨detached, hprune⟩ := h.enclosed.prune_eq []
  rw [hprune]

theorem unnamed_prune_sublist : (f.prune elsewhere).unnamed.Sublist f.unnamed := by
  unfold Func.prune
  dsimp only
  split
  · exact List.Sublist.refl _
  · refine List.Sublist.append_left ?_ _
    change ((f.keep _).flatMap Block.unnamed).Sublist _
    rw [unnamed_keep]
    exact List.filter_sublist.flatMap _

theorem Regular.printable_prune (h : f.Regular) (ht : f.Tidy) (hn : f.Numbered) :
    (f.prune elsewhere).Printable where
  closed := (h.prune elsewhere).closed
  nodup := (ht.nodup_unnamed hn).sublist unnamed_prune_sublist
  home := fun e he => by
    rw [id_prune]
    exact ht.home?_of_mem_unnamed (unnamed_prune_sublist.subset he)

/-- A number belongs to an instruction that control reaches. -/
def Computes (f : Func) (r : Nat) : Prop := ∃ d b, f.At d b ∧ r ∈ b.regs ∧ f.Reachable d

/-- Something is seen from everywhere, or is local to the function and belongs to what control
reaches. -/
structure Lives (f : Func) (e : Entity) : Prop where
  /-- nothing is local to another function -/
  home : ∀ id, e.home? = some id → id = f.id
  /-- blocks are reached -/
  block : ∀ l, e = .block l → f.Reachable l
  /-- results are computed -/
  result : ∀ func r, e = .result func r → f.Computes r

theorem lives_operand {O : Outside} {v : Value} (hv : v.Known O f)
    (h : ∀ r, v.reg? = some r → f.Computes r) {e : Entity} (he : v.entity? = some e) :
    f.Lives e := by
  cases v with
  | const => cases he
  | global =>
    obtain rfl := Option.some.inj he
    exact ⟨nofun, nofun, nofun⟩
  | param func i =>
    obtain rfl := Option.some.inj he
    exact ⟨fun _ hid => (Option.some.inj hid).symm.trans hv.1, nofun, nofun⟩
  | result func reg =>
    obtain rfl := Option.some.inj he
    exact ⟨fun _ hid => (Option.some.inj hid).symm.trans hv.1, nofun,
      fun _ _ heq => (Entity.result.inj heq).2 ▸ h reg rfl⟩

section

variable {O : Outside} (h : f.Regular) (ht : f.Tidy) (hd : f.Dominated) (hw : f.WellTyped O)
include h ht

theorem Regular.lives_block {l : Label} (hl : f.Reachable l) : f.Lives (.block l) := by
  refine ⟨fun id hid => ?_, fun _ heq => Entity.block.inj heq ▸ hl, nofun⟩
  obtain ⟨b, hb, hlabel⟩ : ∃ b ∈ f.blocks, b.label = l := by
    obtain ⟨ls, hpath⟩ := hl
    cases hpath with
    | entry he => exact ⟨_, List.mem_of_mem_head? he, rfl⟩
    | next _ hc hk => exact List.mem_map.1 (h.inside _ hc.mem _ hk)
  obtain ⟨i, hi⟩ := List.mem_iff_getElem?.1 hb
  rw [← (ht.label i b hi).1, hlabel]
  exact (Option.some.inj hid).symm

include hd hw

/-- What an instruction in a block that control reaches mentions, once it is kept. -/
theorem Regular.lives_line {b : Block} (hb : f.At b.label b) (hlive : f.Reachable b.label)
    {line : Line} (hline : line ∈ b.lines) {e : Entity}
    (he : e ∈ (dropIncoming (f.reachable []) line).inst.mentions) : f.Lives e := by
  obtain ⟨before, after, hsplit⟩ := List.append_of_mem hline
  rcases hinc : line.inst.incoming? with _ | incoming
  · -- an instruction that is no choice stays as it is
    have hsame : dropIncoming (f.reachable []) line = line := by
      rcases line with ⟨reg, name, inst⟩
      cases inst <;> first | rfl | cases hinc
    rw [hsame] at he
    rcases List.mem_append.1 he with he | he
    · obtain ⟨v, hv, he⟩ := List.mem_filterMap.1 he
      refine lives_operand (hw.operand b hb.mem line hline v hv) (fun r hr => ?_) he
      rcases hd.line _ b hb hlive before line after hsplit hinc v hv r hr with hr | hr
      · refine ⟨_, b, hb, ?_, hlive⟩
        obtain ⟨x, hx, rfl⟩ := List.mem_map.1 hr
        exact List.mem_map_of_mem (hsplit ▸ List.mem_append_left _ hx)
      · obtain ⟨d, c, hc, hreg, -, hdom⟩ := hr
        exact DefinedAtEnd.reachable ⟨d, c, hc, hreg, hdom⟩ hlive
    · cases hinst : line.inst <;> simp only [hinst, List.not_mem_nil] at he
      · obtain rfl := List.mem_singleton.1 he
        exact ⟨nofun, nofun, nofun⟩
      · rw [hinst] at hinc
        cases hinc
  -- a choice keeps the values that come from blocks which control reaches
  · obtain ⟨type, hinst⟩ : ∃ type, line.inst = .phi type incoming := by
      rcases line with ⟨reg, name, inst⟩
      cases inst <;> cases hinc
      exact ⟨_, rfl⟩
    have hdrop : (dropIncoming (f.reachable []) line).inst =
        .phi type (incoming.filter fun i => (f.reachable []).contains i.2) := by
      rw [dropIncoming, hinst]
    rw [hdrop] at he
    have hway : ∀ i ∈ incoming.filter fun i => (f.reachable []).contains i.2,
        i ∈ incoming ∧ f.Reachable i.2 := fun i hi => by
      obtain ⟨hi, hkept⟩ := List.mem_filter.1 hi
      exact ⟨hi, (h.mem_reachable_iff ht).1 (List.contains_iff_mem.1 hkept)⟩
    rcases List.mem_append.1 he with he | he
    · obtain ⟨v, hv, he⟩ := List.mem_filterMap.1 he
      obtain ⟨i, hi, rfl⟩ := List.mem_map.1 hv
      obtain ⟨hi, hreach⟩ := hway i hi
      have hop : i.1 ∈ line.inst.operands := by
        rw [hinst]
        exact List.mem_map_of_mem hi
      exact lives_operand (hw.operand b hb.mem line hline _ hop) (fun r hr =>
        (hd.choice _ b hb hlive line hline incoming hinc i hi r hr).reachable hreach) he
    · obtain ⟨i, hi, rfl⟩ := List.mem_map.1 he
      exact h.lives_block ht (hway i hi).2

/-- What a kept block mentions. -/
theorem Regular.lives_of_mem_block {b : Block} (hb : f.At b.label b)
    (hlive : f.Reachable b.label) {e : Entity} (he : e ∈ Block.mentions
      { b with lines := b.lines.map (dropIncoming (f.reachable [])) }) : f.Lives e := by
  have hlabel := h.lives_block ht hlive
  rcases List.mem_append.1 he with he | he
  · rcases List.mem_cons.1 he with rfl | he
    · exact hlabel
    · obtain ⟨line, hline, he⟩ := List.mem_flatMap.1 he
      obtain ⟨old, hold, rfl⟩ := List.mem_map.1 hline
      rcases List.mem_cons.1 he with rfl | he
      · rw [reg_dropIncoming]
        exact ⟨fun id hid => hlabel.home id hid, nofun, fun _ _ heq =>
          (Entity.result.inj heq).2 ▸ ⟨_, b, hb, List.mem_map_of_mem hold, hlive⟩⟩
      · exact h.lives_line ht hd hw hb hlive hold he
  · obtain ⟨t, hmem, he⟩ := List.mem_flatMap.1 he
    have hterm : b.term = some t := by simpa using hmem
    rcases List.mem_append.1 he with he | he
    · obtain ⟨v, hv, he⟩ := List.mem_filterMap.1 he
      exact lives_operand (hw.termOperand b hb.mem t hterm v hv) (fun r hr =>
        (hd.term _ b hb hlive t hterm v hv r hr).reachable hlive) he
    · obtain ⟨k, hk, rfl⟩ := List.mem_map.1 he
      obtain ⟨ls, hpath⟩ := hlive
      exact h.lives_block ht ⟨_, .next hpath hb (by simpa [Block.successors, hterm] using hk)⟩

/-- What stays of a function mentions no local of another, and of its own locals that take a number
only those that stay. -/
theorem Regular.mentions_prune {e : Entity} (he : e ∈ (f.prune []).mentions) :
    (∀ id, e.home? = some id → id = f.id) ∧ (e ∈ f.unnamed → e ∈ (f.prune []).unnamed) := by
  have hblocks := h.blocks_prune
  have hparams : (f.prune []).params = f.params := by
    unfold Func.prune
    dsimp only
    split <;> rfl
  rw [mentions, hblocks, id_prune, hparams] at he
  rcases List.mem_append.1 he with he | he
  · -- the head of the function mentions its name and its parameters
    rcases List.mem_cons.1 he with rfl | he
    · exact ⟨nofun, fun hmem => by cases ht.home?_of_mem_unnamed hmem⟩
    · obtain ⟨p, -, rfl⟩ := List.mem_map.1 he
      refine ⟨fun id hid => (Option.some.inj hid).symm, fun hmem => ?_⟩
      rcases List.mem_append.1 hmem with hmem | hmem
      · rw [unnamed, hparams, id_prune]
        exact List.mem_append_left _ hmem
      · obtain ⟨b, -, hmem⟩ := List.mem_flatMap.1 hmem
        rcases Block.cases_unnamed hmem with heq | ⟨r, -, heq⟩ <;> cases heq
  · obtain ⟨c, hc, he⟩ := List.mem_flatMap.1 he
    obtain ⟨d, hdm, hkept, rfl⟩ := mem_keep.1 hc
    have hlives := h.lives_of_mem_block ht hd hw (ht.at_of_mem hdm)
      ((h.mem_reachable_iff ht).1 hkept) he
    refine ⟨hlives.home, fun hmem => ?_⟩
    rw [unnamed, hparams, id_prune, hblocks, unnamed_keep]
    rcases List.mem_append.1 hmem with hmem | hmem
    · exact List.mem_append_left _ hmem
    · obtain ⟨b, hb, hbe⟩ := List.mem_flatMap.1 hmem
      have hlive : f.Reachable b.label := by
        rcases Block.cases_unnamed hbe with rfl | ⟨r, hr, rfl⟩
        · exact hlives.block _ rfl
        · obtain ⟨d, c, hc, hrc, hreach⟩ := hlives.result _ r rfl
          rwa [hd.numbered.block_unique (ht.at_of_mem hb) hc hr hrc]
      refine List.mem_append_right _ (List.mem_flatMap.2 ⟨b, List.mem_filter.2 ⟨hb, ?_⟩, hbe⟩)
      exact List.contains_iff_mem.2 ((h.mem_reachable_iff ht).2 hlive)

end

end Func

end Shader.Ir
