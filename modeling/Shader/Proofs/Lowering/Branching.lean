import Shader.Proofs.Lowering.Emission

/-!
# Blocks that wait

Control structures make blocks before they are written to. Until the point goes there, such a block
is pending: it is empty and open, and what has been promised to it and the ways to it are known.
Code that does not own a pending block leaves it alone; a branch to it adds a way.

`Site.Prepares` is what making blocks ahead comes to, and `Arm` is one arm of a control structure:
a walk from the start of a block to the terminator that leads to the next one.
-/

namespace Shader.Ir

/-- An empty block that is still to be written, with what has been promised to it and the ways that
lead to it so far. -/
structure Site.Pending (s : Site) (k : Label) (promise : Set Nat) (ways : List Label) : Prop where
  /-- the block is empty and open -/
  block : s.func.At k { label := k }
  /-- it is not the entry -/
  noEntry : k.index ≠ 0
  /-- what has been promised -/
  given : s.given k.index = promise
  /-- the ways to it -/
  ways : (s.func.predecessors k).Perm ways

/-- A block that can be gone to: it has no choice, and its promises can be kept here. -/
structure Site.Target (s : Site) (ρ : Realm) (k : Label) : Prop where
  /-- it may be gone to -/
  sees : ρ.Sees k
  /-- it has no choice -/
  block : ∃ c, s.func.At k c ∧ ¬ c.hasPhi
  /-- it is not the entry -/
  noEntry : k.index ≠ 0
  /-- what has been promised to it is there -/
  given : ∀ r ∈ s.given k.index, s.Offered r

variable {O : Outside} {ρ : Realm} {s s' : Site}

namespace Site.Pending

variable {k : Label} {promise : Set Nat} {ways : List Label}

theorem target (h : s.Pending k promise ways) (hsees : ρ.Sees k)
    (hgiven : ∀ r ∈ promise, s.Offered r) : s.Target ρ k :=
  ⟨hsees, ⟨_, h.block, fun ⟨_, hmem, _⟩ => by cases hmem⟩, h.noEntry, h.given ▸ hgiven⟩

/-- What is written elsewhere leaves a pending block empty, even where it goes to the block. -/
theorem waits (h : s.Pending k promise ways) (ht : s.func.Tidy) (hw : Writes O ρ s s')
    (hfirst : k.index < ρ.first) (hhome : ρ.home ≠ some k) :
    s'.Pending k promise (s'.func.predecessors k) where
  block := by
    obtain ⟨b, hb, -, -, heq⟩ := Steps.frame_block hw h.block hfirst hhome
    rw [heq h.noEntry] at hb
    exact hb
  noEntry := h.noEntry
  given := by
    rw [Steps.given_eq hw (ht.lt_labels h.block)]
    exact h.given
  ways := .refl _

/-- What is written at the point, and goes elsewhere, leaves every other pending block alone, and
does not end there. -/
theorem leads {l : Label} (h : s.Pending k promise ways) (ht : s.func.Tidy)
    (hlead : s.Keeps O s.realm s') (hl : s.point = some l) (hne : k ≠ l) :
    s'.Pending k promise ways ∧ s'.point ≠ some k := by
  have hhome : s.point ≠ some k := by
    rw [hl]
    exact fun heq => hne (Option.some.inj heq).symm
  have hlt : k.index < s.func.labels := ht.lt_labels h.block
  have hwaits := h.waits ht hlead.steps hlt hhome
  rw [Steps.frame_predecessors hlead.steps ht hlt id] at hwaits
  refine ⟨⟨hwaits.block, hwaits.noEntry, hwaits.given, ?_⟩, fun hk => ?_⟩
  · rw [Steps.frame_predecessors hlead.steps ht hlt id]
    exact h.ways
  · rcases (hlead.ready.point k hk).2 with hnew | hold
    · exact absurd hlt (Nat.not_lt_of_le hnew)
    · exact hhome hold

/-- Where the point is at a pending block, writing starts. -/
theorem starts (h : s.Pending k promise ways) (hk : s.point = some k) : s.draft.Starts k :=
  ⟨hk, _, h.block, rfl⟩

/-- What has been promised to the block at the point can be used there. -/
theorem offered (h : s.Pending k promise ways) (hk : s.point = some k) {r : Nat}
    (hr : r ∈ promise) : s.Offered r :=
  ⟨k, hk, .inl ⟨_, h.block, .inl (h.given ▸ hr)⟩⟩

end Site.Pending

/-! ## New blocks -/

theorem Emit.newBlock_run (s : Site) (hint : String) (promise : Set Nat) :
    Emit.newBlock hint s.draft = .ok ((s.func.addBlock hint).1, (s.withBlock hint promise).draft) :=
  rfl

namespace Site

theorem Sane.withBlock (h : s.Sane ρ) (hint : String) (promise : Set Nat) :
    (s.withBlock hint promise).Sane ρ := by
  refine h.of_writes (O := ⟨[], fun _ => none⟩) (.single (.block s hint promise)) fun l hl => ?_
  obtain ⟨⟨b, hb, ho⟩, hown⟩ := h.point l hl
  exact ⟨⟨b, Func.at_addBlock_old hb, ho⟩, hown⟩

theorem Ready.withBlock (h : s.Ready ρ) (hint : String) (promise : Set Nat) :
    s.Keeps O ρ (s.withBlock hint promise) where
  steps := .single (.block s hint promise)
  ready := ⟨h.toSane.withBlock hint promise, h.there⟩
  offered := fun _ ⟨k, hk, hr⟩ =>
    ⟨k, hk, Step.offers (O := O) (n := 0) (w := none) (t := fun _ => False)
      (.block s hint promise) h.tidy hr⟩

/-- A new block is pending, and no way leads to it. -/
theorem Sane.pending (h : s.Sane ρ) (hint : String) (promise : Set Nat) :
    (s.withBlock hint promise).Pending (s.func.addBlock hint).1 promise [] where
  block := Func.at_addBlock_new h.tidy
  noEntry := by
    rw [Func.index_addBlock, h.tidy.count]
    exact Nat.ne_of_gt (List.length_pos_of_ne_nil h.tidy.entry)
  given := Function.update_self _ _ _
  ways := by
    have hnone : s.func.predecessors (s.func.addBlock hint).1 = [] := by
      refine List.eq_nil_iff_forall_not_mem.2 fun l hl => ?_
      obtain ⟨b, hb, -, hk⟩ := Func.mem_predecessors.1 hl
      obtain ⟨⟨c, hc⟩, -⟩ := h.shaped.inside _ b (h.tidy.at_of_mem hb) _ hk
      exact Nat.lt_irrefl _ (h.tidy.lt_labels hc)
    rw [Site.withBlock, Func.predecessors_addBlock, hnone]

theorem Pending.withBlock {k : Label} {promise : Set Nat} {ways : List Label}
    (h : s.Pending k promise ways) (ht : s.func.Tidy) (hint : String) (promise' : Set Nat) :
    (s.withBlock hint promise').Pending k promise ways where
  block := Func.at_addBlock_old h.block
  noEntry := h.noEntry
  given := by
    have hne : k.index ≠ s.func.labels := Nat.ne_of_lt (ht.lt_labels h.block)
    exact (Function.update_of_ne hne _ _).trans h.given
  ways := by
    rw [Site.withBlock, Func.predecessors_addBlock]
    exact h.ways

/-! ## Branches -/

/-- The site with its block ended, and the point elsewhere or nowhere. -/
def goOn (s : Site) (l : Label) (term : Term) (p : Option Label) : Site :=
  (s.withFunc (s.func.close l term)).moved p

end Site

theorem Site.closes_goOn {l : Label} {b : Block} (hl : s.point = some l) (hb : s.func.At l b)
    (term : Term) (p : Option Label) : s.draft.Closes term (s.goOn l term p).draft :=
  ⟨l, b, hl, hb, Func.at_close_self hb⟩

theorem Emit.goOn_run (h : s.Sane ρ) {l : Label} (hl : s.point = some l) (term : Term)
    (p : Option Label) :
    (Emit.terminate term >>= fun _ => Emit.setPoint p) s.draft =
      .ok ((), (s.goOn l term p).draft) := by
  obtain ⟨⟨b, hb, ho⟩, -⟩ := h.point l hl
  change Except.bind (Emit.terminate term s.draft) _ = _
  rw [Emit.terminate_run h.tidy hl hb ho]
  rfl

namespace Site

/-- The end of the block at the point. -/
theorem Sane.close_step (h : s.Sane ρ) {l : Label} (hl : s.point = some l) {term : Term}
    (hty : term.WellTyped s.func.result) (hv : ∀ v ∈ term.operands, ∃ σ, s.Has O v σ)
    (htargets : ∀ k ∈ term.successors, s.Target ρ k) :
    Step O ρ.first ρ.home ρ.goals s (s.withFunc (s.func.close l term)) := by
  obtain ⟨⟨b, hb, ho⟩, hown⟩ := h.point l hl
  refine .close hl hb ho hown hty (fun v hmem => ?_) fun k hk => ?_
  · obtain ⟨σ, hσ⟩ := hv v hmem
    exact hσ.canUse hl
  · obtain ⟨hsees, hblock, h0, hgiven⟩ := htargets k hk
    refine ⟨hblock, h0, hsees, fun r hr => ?_⟩
    obtain ⟨m, hm, hoffers⟩ := hgiven r hr
    rw [hl] at hm
    obtain rfl := Option.some.inj hm
    exact hoffers

/-- The end of the block at the point, and a move to an open block. -/
theorem Sane.goOn (h : s.Sane ρ) {l : Label} (hl : s.point = some l) {term : Term}
    {p : Option Label} (hty : term.WellTyped s.func.result)
    (hv : ∀ v ∈ term.operands, ∃ σ, s.Has O v σ) (htargets : ∀ k ∈ term.successors, s.Target ρ k)
    (hp : ∀ k, p = some k → k ≠ l ∧ ρ.Owns k ∧ ∃ b, s.func.At k b ∧ b.term = none) :
    Writes O ρ s (s.goOn l term p) ∧ (s.goOn l term p).Sane ρ := by
  have hclose := h.close_step hl hty hv htargets
  have hopen : ∀ k, p = some k →
      ρ.Owns k ∧ ∃ b, (s.func.close l term).At k b ∧ b.term = none := by
    intro k hk
    obtain ⟨hne, hown, b, hb, ho⟩ := hp k hk
    exact ⟨hown, b, (Func.at_close_ne hne).2 hb, ho⟩
  have hw : Writes O ρ s (s.goOn l term p) := .tail (.single hclose) (.move _ hopen)
  exact ⟨hw, h.of_writes hw fun k hk => ⟨(hopen k hk).2, (hopen k hk).1⟩⟩

namespace Pending

variable {k : Label} {promise : Set Nat} {ways : List Label}

theorem moved (h : s.Pending k promise ways) (p : Option Label) :
    (s.moved p).Pending k promise ways :=
  ⟨h.block, h.noEntry, h.given, h.ways⟩

/-- A branch adds a way to each pending block that it goes to. -/
theorem close (h : s.Pending k promise ways) (hs : s.Sane ρ) {l : Label} (hl : s.point = some l)
    (hne : k ≠ l) (term : Term) :
    (s.withFunc (s.func.close l term)).Pending k promise
      (ways ++ (term.successors.filter fun m => m = k).map fun _ => l) where
  block := (Func.at_close_ne hne).2 h.block
  noEntry := h.noEntry
  given := h.given
  ways := by
    obtain ⟨⟨b, hb, ho⟩, -⟩ := hs.point l hl
    exact (Func.predecessors_close_perm hs.tidy hb ho k).trans (h.ways.append_right _)

theorem goOn (h : s.Pending k promise ways) (hs : s.Sane ρ) {l : Label} (hl : s.point = some l)
    (hne : k ≠ l) (term : Term) (p : Option Label) :
    (s.goOn l term p).Pending k promise
      (ways ++ (term.successors.filter fun m => m = k).map fun _ => l) :=
  (h.close hs hl hne term).moved p

end Pending

end Site

/-! ## Open blocks -/

/-- All open blocks of a site are known, but for those that an earlier site left open. -/
def Site.OpenBeside (s₀ s : Site) (ks : List Label) : Prop :=
  ∀ l b, s.func.At l b → b.term = none → l ∈ ks ∨ s₀.Idle l

namespace Site.OpenBeside

variable {s₀ : Site} {ks : List Label}

theorem start {l : Label} (hl : s.point = some l) : s.OpenBeside s [l] := by
  intro k b hb ho
  by_cases hk : k = l
  · exact .inl (List.mem_singleton.2 hk)
  · refine .inr ⟨b, hb, ho, fun hpoint => hk ?_⟩
    exact Option.some.inj (hpoint.symm.trans hl)

theorem withBlock (h : s₀.OpenBeside s ks) (ht : s.func.Tidy) {hint : String} {X : Set Nat}
    {k : Label} {ways : List Label} (heq : s' = s.withBlock hint X) (hk : k.index = s.func.labels)
    (hpending : s'.Pending k X ways) : s₀.OpenBeside s' (k :: ks) := by
  subst heq
  intro l b hb ho
  rcases Func.at_addBlock ht hb with hold | ⟨rfl, -⟩
  · exact (h l b hold ho).imp (List.mem_cons_of_mem _) id
  · exact .inl (List.mem_cons.2 (.inl (hb.label_ext hpending.block hk.symm)))

/-- The end of a block, which is then no longer open. -/
theorem goOn (h : s₀.OpenBeside s ks) (ks' : List Label) {l : Label} {term : Term}
    {p : Option Label} {b : Block} (hb : s.func.At l b) (heq : s' = s.goOn l term p)
    (hks : ∀ k ∈ ks, k = l ∨ k ∈ ks') :
    s₀.OpenBeside s' ks' := by
  subst heq
  intro k c hc ho
  by_cases hk : k = l
  · subst hk
    obtain rfl := hc.unique (Func.at_close_self hb)
    cases ho
  · rcases h k c ((Func.at_close_ne hk).1 hc) ho with hmem | hidle
    · exact .inl ((hks k hmem).resolve_left hk)
    · exact .inr hidle

/-- Code that leads on from one block to another leaves no further block open. -/
theorem leads (h : s₀.OpenBeside s ks) (ks' : List Label) (hlead : s.Leads O ρ s')
    {l l' : Label} (hl : s.point = some l) (hl' : s'.point = some l')
    (hks : ∀ k ∈ ks, k = l ∨ k ∈ ks') :
    s₀.OpenBeside s' (l' :: ks') := by
  intro k b hb ho
  by_cases hk : k = l'
  · exact .inl (List.mem_cons.2 (.inl hk))
  · have hidle : s'.Idle k := by
      refine ⟨b, hb, ho, fun hpoint => hk ?_⟩
      exact Option.some.inj (hpoint.symm.trans hl')
    obtain ⟨c, hc, hco, hne⟩ := hlead.closed k hidle
    rcases h k c hc hco with hmem | hold
    · refine .inl (List.mem_cons_of_mem _ ((hks k hmem).resolve_left ?_))
      rintro rfl
      exact hne hl
    · exact .inr hold

theorem closed (h : s₀.OpenBeside s ks) {l : Label} (hl : s.point = some l)
    (hks : ∀ k ∈ ks, k = l) : ∀ k, s.Idle k → s₀.Idle k := by
  rintro k ⟨b, hb, ho, hne⟩
  refine (h k b hb ho).resolve_left fun hmem => ?_
  obtain rfl := hks k hmem
  exact hne hl

end Site.OpenBeside

/-! ## Blocks that are made ahead -/

/-- New blocks have been made, to which no way leads yet. What can be used at the point is promised
to all of them. -/
structure Site.Prepares (O : Outside) (ρ : Realm) (s : Site) (ks : List Label) (s' : Site) : Prop
    extends s.Keeps O ρ s' where
  /-- the point has not been moved -/
  point : s'.point = s.point
  /-- the blocks that were there are as they were -/
  old : ∀ l b, s.func.At l b → s'.func.At l b
  /-- the others are new -/
  new : ∀ k ∈ ks, s.func.labels ≤ k.index
  /-- and are not the same -/
  nodup : ks.Nodup
  /-- they are empty -/
  pending : ∀ k ∈ ks, s'.Pending k {r | s.Offered r} []
  /-- no other block has been left open -/
  openBeside : ∀ l, s.point = some l → s.OpenBeside s' (ks ++ [l])

namespace Site.Prepares

variable {ks : List Label} {k l : Label}

theorem start (h : s.Ready ρ) : s.Prepares O ρ [] s where
  toKeeps := (Leads.refl h).toKeeps
  point := rfl
  old := fun _ _ hb => hb
  new := fun _ h => by cases h
  nodup := .nil
  pending := fun _ h => by cases h
  openBeside := fun _ hl => .start hl

theorem withBlock (h : s.Prepares O ρ ks s') (hint : String) :
    s.Prepares O ρ ((s'.func.addBlock hint).1 :: ks) (s'.withBlock hint {r | s.Offered r}) where
  toKeeps := h.toKeeps.trans (h.ready.withBlock hint _)
  point := h.point
  old := fun l b hb => Func.at_addBlock_old (h.old l b hb)
  new := List.forall_mem_cons.2 ⟨(Steps.le h.steps).labels, h.new⟩
  nodup := by
    refine List.nodup_cons.2 ⟨fun hmem => ?_, h.nodup⟩
    exact Nat.lt_irrefl _ (h.ready.tidy.lt_labels (h.pending _ hmem).block)
  pending := List.forall_mem_cons.2 ⟨h.ready.toSane.pending hint _, fun k hk =>
    (h.pending k hk).withBlock h.ready.tidy hint _⟩
  openBeside := fun l hl => (h.openBeside l hl).withBlock h.ready.tidy rfl rfl
    (h.ready.toSane.pending hint _)

theorem ne_point (h : s.Prepares O ρ ks s') (hs : s.Ready ρ) (hk : k ∈ ks)
    (hl : s.point = some l) : k ≠ l := by
  rintro rfl
  obtain ⟨⟨b, hb, -⟩, -⟩ := hs.point k hl
  exact Nat.not_lt_of_le (h.new k hk) (hs.tidy.lt_labels hb)

theorem first (h : s.Prepares O ρ ks s') (hs : s.Ready ρ) (hk : k ∈ ks) : ρ.first ≤ k.index :=
  Nat.le_trans hs.first (h.new k hk)

theorem target (h : s.Prepares O ρ ks s') (hs : s.Ready ρ) (hk : k ∈ ks) : s'.Target ρ k :=
  (h.pending k hk).target (.inl (h.first hs hk)) h.offered

/-- An end of the block at the point is one of the block that was there. -/
theorem closes (h : s.Prepares O ρ ks s') (hs : s.Ready ρ) {term : Term} {d : Draft}
    (hclose : s'.draft.Closes term d) : s.draft.Closes term d := by
  obtain ⟨l, b', hl, hb', hterm⟩ := hclose
  replace hl : s.point = some l := h.point ▸ hl
  obtain ⟨⟨b, hb, -⟩, -⟩ := hs.point l hl
  obtain rfl := (h.old l b hb).unique hb'
  exact ⟨l, b, hl, hb, hterm⟩

end Site.Prepares

/-! ## Choices -/

/-- A choice at the head of a block, between the values of all ways to it. -/
theorem Emits.phi {k : Label} {promise : Set Nat} {ways : List Label}
    {incoming : List (Value × Label)} {τ : Ty} (hk : s.point = some k)
    (hpending : s.Pending k promise ways) (hnew : ρ.first ≤ k.index) (hτ : τ ≠ .void)
    (hne : incoming ≠ []) (htype : ∀ i ∈ incoming, i.1.type = τ)
    (huse : ∀ i ∈ incoming, s.CanUse O i.2 i.1) (hways : (incoming.map Prod.snd).Perm ways) :
    Emits O ρ (Emit.phi incoming) s fun v s' =>
      s'.Has O v τ ∧ s.draft.Puts (.phi τ incoming) v s'.draft := by
  intro hs
  rcases incoming with _ | ⟨⟨v, m⟩, rest⟩
  · exact absurd rfl hne
  · have hv : v.type = τ := htype (v, m) List.mem_cons_self
    have hstep : Step O ρ.first ρ.home ρ.goals s
        (s.withFunc (s.func.put k (.phi v.type ((v, m) :: rest)))) := by
      refine .phi hk hpending.block rfl hnew hpending.noEntry rfl ⟨?_, hne, ?_⟩
        (hways.trans hpending.ways.symm) huse
      · rw [hv]
        exact hτ
      · intro i hi
        rw [htype i hi, hv]
    have htype : (Inst.phi v.type ((v, m) :: rest)).type? = some v.type := rfl
    refine ⟨_, _, Emit.append_run hs.tidy hk hpending.block rfl htype,
      hs.put hk hpending.block rfl (.inl hnew) hstep, ?_⟩
    rw [← hv]
    exact ⟨Site.has_put hk hpending.block rfl, k, _, _, hk, hpending.block, rfl, htype, rfl⟩

/-- A choice at the head of a block to which there are two ways. -/
theorem Emits.phi_pair {k l m : Label} {promise : Set Nat} {v w : Value} {τ : Ty}
    (hk : s.point = some k) (hpending : s.Pending k promise [l, m]) (hnew : ρ.first ≤ k.index)
    (hτ : τ ≠ .void) (hv : v.type = τ) (hw : w.type = τ) (huse : s.CanUse O l v)
    (huse' : s.CanUse O m w) :
    Emits O ρ (Emit.phi [(v, l), (w, m)]) s fun u s' =>
      s'.Has O u τ ∧ s.draft.Puts (.phi τ [(v, l), (w, m)]) u s'.draft := by
  refine Emits.phi hk hpending hnew hτ (by simp) ?_ ?_ (.refl _)
  · simpa using ⟨hv, hw⟩
  · simpa using ⟨huse, huse'⟩

end Shader.Ir

namespace Shader.Lowering.Walks

open Ir

variable {α : Type} {O : Outside} {ρ : Realm} {x : Walk} {Q : α → Walk → Prop}

/-! ## Walks that branch -/

theorem openPoint_bind {rest : Label → Lower α} {l : Label} (hx : x.site.Sane ρ)
    (hl : x.site.point = some l) (h : Walks O ρ (rest l) x Q) :
    Walks O ρ (emit Emit.openPoint >>= rest) x Q := by
  obtain ⟨⟨b, hb, ho⟩, -⟩ := hx.point l hl
  refine bind (emit_run (Emit.openPoint_run hx.tidy hl hb ho) .refl hx
    (Q := fun k x' => k = l ∧ x' = x) ⟨rfl, rfl⟩) ?_
  rintro _ _ - ⟨rfl, rfl⟩
  exact h

/-- One more block is made ahead. -/
theorem newBlock_bind {rest : Label → Lower α} {hint : String} {s : Site} {ks : List Label}
    (hx : s.Prepares O ρ ks x.site)
    (h : ∀ k s', s.Prepares O ρ (k :: ks) s' → Walks O ρ (rest k) (x.withSite s') Q) :
    Walks O ρ (emit (Emit.newBlock hint) >>= rest) x Q := by
  refine bind (emit_run (Emit.newBlock_run x.site hint {r | s.Offered r})
    (.single (.block x.site hint _)) (hx.ready.toSane.withBlock hint _)
    (Q := fun k x' => k = (x.site.func.addBlock hint).1 ∧
      x' = x.withSite (x.site.withBlock hint {r | s.Offered r})) ⟨rfl, rfl⟩) ?_
  rintro _ _ - ⟨rfl, rfl⟩
  exact h _ _ (hx.withBlock hint)

/-- The end of a block and a move of the point. -/
theorem goOn_bind {rest : Unit → Lower α} {l : Label} {term : Term} {p : Option Label}
    (hx : x.site.Sane ρ) (hl : x.site.point = some l) (hty : term.WellTyped x.site.func.result)
    (hv : ∀ v ∈ term.operands, ∃ σ, x.site.Has O v σ)
    (htargets : ∀ k ∈ term.successors, x.site.Target ρ k)
    (hp : ∀ k, p = some k → k ≠ l ∧ ρ.Owns k ∧ ∃ b, x.site.func.At k b ∧ b.term = none)
    (h : ∀ s', s' = x.site.goOn l term p → Writes O ρ x.site s' → s'.Sane ρ →
      Walks O ρ (rest ()) (x.withSite s') Q) :
    Walks O ρ (emit (Emit.terminate term) >>= fun _ => emit (Emit.setPoint p) >>= rest) x Q := by
  obtain ⟨⟨b, hb, ho⟩, -⟩ := hx.point l hl
  obtain ⟨hw, hsane⟩ := hx.goOn hl hty hv htargets hp
  exact emit_emit (Emit.terminate_run hx.tidy hl hb ho) rfl hw hsane (h _ rfl hw hsane)

end Shader.Lowering.Walks

namespace Shader.Lowering

open Ir

/-! ## Arms -/

/-- A walk from the block `k`, to which the point has been moved, to the end of a block `l`, and the
terminator there. The point is moved to the block `next`. -/
structure Arm (O : Outside) (ρ : Realm) (k : Label) (term : Term) (next : Label) (x y : Walk)
    (l : Label) (s : Site) : Prop where
  /-- where the walk starts -/
  source : x.site.point = some k
  /-- it can start there -/
  ready : x.site.Ready ρ
  /-- it leads on, and leaves other blocks alone -/
  leads : x.Leads O x.site.realm y
  /-- to the last block -/
  last : y.site.point = some l
  /-- which is ended -/
  site_eq : s = y.site.goOn l term (some next)
  /-- by steps -/
  writes : Writes O ρ y.site s
  /-- and all is in good shape -/
  sane : s.Sane ρ

namespace Arm

variable {O : Outside} {ρ : Realm} {k next l j : Label} {term : Term} {x y : Walk} {s s₀ : Site}
  {promise : Set Nat} {ways ks : List Label}

theorem saneLast (h : Arm O ρ k term next x y l s) : y.site.Sane ρ :=
  h.leads.site.ready.toSane.widen h.ready.realm_le

theorem point (h : Arm O ρ k term next x y l s) : s.point = some next := by
  rw [h.site_eq]
  rfl

theorem readyNext (h : Arm O ρ k term next x y l s) : s.Ready ρ := ⟨h.sane, next, h.point⟩

theorem steps (h : Arm O ρ k term next x y l s) : Writes O ρ x.site s :=
  (h.leads.site.widen h.ready.realm_le).steps.trans h.writes

theorem onward (h : Arm O ρ k term next x y l s) : y.Onward (y.withSite s) :=
  ⟨Steps.le h.writes, rfl⟩

theorem closes (h : Arm O ρ k term next x y l s) : y.site.draft.Closes term s.draft := by
  obtain ⟨⟨b, hb, -⟩, -⟩ := h.saneLast.point l h.last
  exact h.site_eq ▸ Site.closes_goOn h.last hb term (some next)

/-- The last block is the first one or a new one. -/
theorem apart (h : Arm O ρ k term next x y l s) (hj : j.index < x.site.func.labels)
    (hne : j ≠ k) : j ≠ l := by
  rintro rfl
  rcases (h.leads.site.ready.point j h.last).2 with hnew | hold
  · exact absurd hj (Nat.not_lt_of_le hnew)
  · exact hne (Option.some.inj (hold.symm.trans h.source))

/-- Other pending blocks stay pending, but there may be more ways to them. -/
theorem pending (h : Arm O ρ k term next x y l s) (hj : x.site.Pending j promise ways)
    (hne : j ≠ k) : s.Pending j promise
      (ways ++ (term.successors.filter fun m => m = j).map fun _ => l) := by
  obtain ⟨hstays, -⟩ := hj.leads h.ready.tidy h.leads.site.toKeeps h.source hne
  have hlast : j ≠ l := h.apart (h.ready.tidy.lt_labels hj.block) hne
  exact h.site_eq ▸ hstays.goOn h.saneLast h.last hlast term (some next)

theorem waits (h : Arm O ρ k term next x y l s) (hj : x.site.Pending j promise ways)
    (hne : j ≠ k) (hway : term.successors.filter (fun m => m = j) = []) :
    s.Pending j promise ways := by
  have hpending := h.pending hj hne
  rwa [hway, List.map_nil, List.append_nil] at hpending

theorem meets (h : Arm O ρ k term next x y l s) (hj : x.site.Pending j promise ways)
    (hne : j ≠ k) (hway : term.successors.filter (fun m => m = j) = [j]) :
    s.Pending j promise (ways ++ [l]) := by
  have hpending := h.pending hj hne
  rwa [hway] at hpending

/-- The walk leaves no block open. -/
theorem openBeside (h : Arm O ρ k term next x y l s) (hopen : s₀.OpenBeside x.site ks)
    (ks' : List Label) (hks : ∀ j ∈ ks, j = k ∨ j ∈ ks') : s₀.OpenBeside s ks' := by
  obtain ⟨⟨b, hb, -⟩, -⟩ := h.saneLast.point l h.last
  have hlast := hopen.leads ks' h.leads.site h.source h.last hks
  exact hlast.goOn ks' hb h.site_eq fun j hj => List.mem_cons.1 hj

end Arm

namespace Walks

variable {α β : Type} {O : Outside} {ρ : Realm} {x : Walk} {Q : α → Walk → Prop}
  {k next : Label} {promise promise' : Set Nat} {ways ways' ways'' : List Label}

/-- A terminator at the point, after which a pending block is written to. -/
theorem branch_bind {rest : Unit → Lower α} {term : Term} (hx : x.site.Ready ρ)
    (hk : x.site.point = some k) (hty : term.WellTyped x.site.func.result)
    (hv : ∀ v ∈ term.operands, ∃ σ, x.site.Has O v σ)
    (htargets : ∀ j ∈ term.successors, x.site.Target ρ j)
    (hnext : x.site.Pending next promise ways) (hne : next ≠ k) (hfirst : ρ.first ≤ next.index)
    (h : ∀ s, Arm O ρ k term next x x k s → Walks O ρ (rest ()) (x.withSite s) Q) :
    Walks O ρ (emit (Emit.terminate term) >>= fun _ => emit (Emit.setPoint (some next)) >>= rest)
      x Q := by
  refine goOn_bind (p := some next) hx.toSane hk hty hv htargets ?_ fun s heq hw hs =>
    h s ⟨hk, hx, .refl hx.inner, hk, heq, hw, hs⟩
  rintro _ ⟨⟩
  exact ⟨hne, .inl hfirst, _, hnext.block, rfl⟩

/-- A walk that starts at a pending block, and the way from its end to another one. -/
theorem arm_bind {act : Lower β} {rest : β → Label → Lower α} {P : β → Walk → Prop} {done : Label}
    (hx : x.site.Ready ρ) (hk : x.site.point = some k) (hstart : x.site.Pending k promise ways)
    (hdone : x.site.Pending done promise ways') (hnext : x.site.Pending next promise' ways'')
    (hne : done ≠ k) (hne' : next ≠ k) (hfirst : ρ.first ≤ done.index)
    (hfirst' : ρ.first ≤ next.index) (hact : Lowers O x.site.realm act x P)
    (h : ∀ a y l s, P a y → Arm O ρ k (.br done) next x y l s →
      Walks O ρ (rest a l) (y.withSite s) Q) :
    Walks O ρ (do
      let a ← act
      let l ← emit Emit.openPoint
      emit (Emit.br done)
      emit (Emit.setPoint (some next))
      rest a l) x Q := by
  refine bind (widen hx.inner.toSane hx.realm_le (hact hx.inner)) fun a y _ ⟨hlead, ha⟩ => ?_
  obtain ⟨l, hl⟩ := hlead.site.ready.there
  have hy : y.site.Sane ρ := hlead.site.ready.toSane.widen hx.realm_le
  obtain ⟨hdone, -⟩ := hdone.leads hx.tidy hlead.site.toKeeps hk hne
  obtain ⟨hnext, haway⟩ := hnext.leads hx.tidy hlead.site.toKeeps hk hne'
  refine openPoint_bind hy hl ?_
  refine goOn_bind (p := some next) hy hl trivial (fun _ h => by cases h) ?_ ?_
    fun s heq hw hs => h a y l s ha ⟨hk, hx, hlead, hl, heq, hw, hs⟩
  · intro j hj
    obtain rfl := List.mem_singleton.1 hj
    exact hdone.target (.inl hfirst) fun r hr => hlead.site.offered r (hstart.offered hk hr)
  · rintro _ ⟨⟩
    exact ⟨fun heq => haway (heq ▸ hl), .inl hfirst', _, hnext.block, rfl⟩

end Walks

end Shader.Lowering
