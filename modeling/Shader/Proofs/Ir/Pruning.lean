import Shader.Proofs.Ir.Verification
import Shader.Ir.Passes
import Mathlib.Data.List.Perm.Subperm
import Mathlib.Logic.Relation

/-!
# Pruning

Following labels from the entry finds exactly the blocks that control reaches, so what is kept of a
function hangs together: the ways between kept blocks are the ways there were, and the choices lose
the values of exactly those blocks that are gone. A well-formed function stays well formed, and a
run of the passes over a module of such functions ends well.
-/

namespace Shader.Ir

/-! ## Following labels -/

theorem mem_addNew {l : Label} : ∀ {ls seen : List Label}, l ∈ addNew seen ls ↔ l ∈ seen ∨ l ∈ ls
  | [], seen => by simp [addNew]
  | k :: ls, seen => by
    rw [addNew, mem_addNew]
    split
    next hk =>
      have hk : k ∈ seen := by simpa using hk
      simp only [List.mem_cons]
      constructor
      · rintro (h | h)
        · exact .inl h
        · exact .inr (.inr h)
      · rintro (h | rfl | h)
        · exact .inl h
        · exact .inl hk
        · exact .inr h
    next => simp [or_assoc]

theorem nodup_addNew : ∀ {ls seen : List Label}, seen.Nodup → (addNew seen ls).Nodup
  | [], _, h => h
  | k :: ls, seen, h => by
    rw [addNew]
    split
    · exact nodup_addNew h
    next hk =>
      refine nodup_addNew (List.Nodup.append h (List.nodup_singleton k) ?_)
      simpa using hk

/-- Labels are added behind the others. -/
theorem prefix_addNew : ∀ {ls seen : List Label}, seen <+: addNew seen ls
  | [], _ => List.prefix_rfl
  | k :: ls, seen => by
    rw [addNew]
    split
    · exact prefix_addNew
    · exact (List.prefix_append _ _).trans prefix_addNew

/-- What has been found from a label by following the ones before `done`. -/
structure Followed (next : Label → List Label) (first : Label) (done : Nat) (seen : List Label) :
    Prop where
  /-- each label is found once -/
  nodup : seen.Nodup
  /-- the first is there -/
  start : first ∈ seen
  /-- there is a way to every other -/
  sound : ∀ l ∈ seen, Relation.ReflTransGen (fun a b => b ∈ next a) first l
  /-- what has been followed leads to nothing else -/
  closed : ∀ l ∈ seen.take done, ∀ k ∈ next l, k ∈ seen

namespace Followed

variable {next : Label → List Label} {first : Label} {done : Nat} {seen : List Label}

theorem step (h : Followed next first done seen) {l : Label} (hl : seen[done]? = some l) :
    Followed next first (done + 1) (addNew seen (next l)) where
  nodup := nodup_addNew h.nodup
  start := mem_addNew.2 (.inl h.start)
  sound := fun k hk => by
    rcases mem_addNew.1 hk with hk | hk
    · exact h.sound k hk
    · exact (h.sound l (List.mem_of_getElem? hl)).tail hk
  closed := fun k hk j hj => by
    obtain ⟨hlt, hget⟩ := List.getElem?_eq_some_iff.1 hl
    have htake : (addNew seen (next l)).take (done + 1) = seen.take done ++ [l] := by
      obtain ⟨more, hmore⟩ : seen <+: addNew seen (next l) := prefix_addNew
      rw [← hmore, List.take_append_of_le_length hlt, ← hget, List.take_append_getElem hlt]
    rw [htake, List.mem_append, List.mem_singleton] at hk
    rcases hk with hk | rfl
    · exact mem_addNew.2 (.inl (h.closed k hk j hj))
    · exact mem_addNew.2 (.inr hj)

/-- Where nothing is left to be followed, all is found. -/
theorem mem_iff (h : Followed next first done seen) (hdone : seen.length ≤ done) {l : Label} :
    l ∈ seen ↔ Relation.ReflTransGen (fun a b => b ∈ next a) first l := by
  refine ⟨h.sound l, fun hway => ?_⟩
  have hclosed := h.closed
  rw [List.take_of_length_le hdone] at hclosed
  induction hway with
  | refl => exact h.start
  | tail _ hk ih => exact hclosed _ ih _ hk

/-- Labels that are never left are followed up in as many steps as there are. -/
theorem mem_reachFrom {own : List Label} (hfirst : first ∈ own)
    (hown : ∀ l ∈ own, ∀ k ∈ next l, k ∈ own) : ∀ {steps done : Nat} {seen : List Label},
    Followed next first done seen → own.length ≤ steps + done → ∀ {l : Label},
      l ∈ reachFrom next steps done seen ↔ Relation.ReflTransGen (fun a b => b ∈ next a) first l
  | 0, done, seen, h, hlen, l => by
    have hinside : ∀ k, Relation.ReflTransGen (fun a b => b ∈ next a) first k → k ∈ own := by
      intro k hway
      induction hway with
      | refl => exact hfirst
      | tail _ hk ih => exact hown _ ih _ hk
    have hsub : seen ⊆ own := fun k hk => hinside k (h.sound k hk)
    have hle := (List.subperm_of_subset h.nodup hsub).length_le
    exact h.mem_iff (by omega)
  | steps + 1, done, seen, h, hlen, l => by
    rw [reachFrom]
    split
    next hnone => exact h.mem_iff (List.getElem?_eq_none_iff.1 hnone)
    next k hk => exact mem_reachFrom hfirst hown (h.step hk) (by omega)

end Followed

/-! ## Functions -/

namespace Func

variable {f : Func} {elsewhere : List Block}

/-- Control can go from one block to another. -/
def Goes (f : Func) (l k : Label) : Prop := ∃ b ∈ f.blocks, b.label = l ∧ k ∈ b.successors

/-- The labels tell the blocks of a function apart. -/
def Apart (f : Func) : Prop := ∀ b ∈ f.blocks, ∀ c ∈ f.blocks, b.label = c.label → b = c

theorem apart_of_nodup (h : f.ownLabels.Nodup) : f.Apart := fun _ hb _ hc hlabel =>
  List.inj_on_of_nodup_map h hb hc hlabel

/-- Blocks that do not belong to a function do not matter for its own labels. -/
theorem mem_successorsIn (hapart : f.Apart) {l k : Label} (hl : l ∈ f.ownLabels) :
    k ∈ successorsIn (f.blocks ++ elsewhere) l ↔ f.Goes l k := by
  obtain ⟨b, hb, rfl⟩ := List.mem_map.1 hl
  have hfind : (f.blocks ++ elsewhere).find? (fun c => c.label = b.label) = some b := by
    rcases hfound : f.blocks.find? (fun c => c.label = b.label) with _ | c
    · have := List.find?_eq_none.1 hfound b hb
      simp at this
    · have hc : c.label = b.label := by simpa using List.find?_some hfound
      obtain rfl := hapart c (List.mem_of_find?_eq_some hfound) b hb hc
      rw [List.find?_append, hfound]
      rfl
  simp only [successorsIn, hfind, Option.map_some, Option.getD_some]
  constructor
  · exact fun hk => ⟨b, hb, rfl, hk⟩
  · rintro ⟨c, hc, hlabel, hk⟩
    obtain rfl := hapart c hc b hb hlabel
    exact hk

/-- The labels that are found are those to which there is a way from the entry. -/
theorem mem_reachable (hapart : f.Apart)
    (hinside : ∀ b ∈ f.blocks, ∀ k ∈ b.successors, k ∈ f.ownLabels) {e : Block}
    (he : f.blocks.head? = some e) {l : Label} :
    l ∈ f.reachable elsewhere ↔ Relation.ReflTransGen f.Goes e.label l := by
  obtain ⟨bs, hbs⟩ : ∃ bs, f.blocks = e :: bs := by
    rcases hblocks : f.blocks with _ | ⟨c, bs⟩
    · rw [hblocks] at he
      cases he
    · rw [hblocks] at he
      obtain rfl := Option.some.inj he
      exact ⟨bs, rfl⟩
  let next := successorsIn (f.blocks ++ elsewhere)
  have hentry : e.label ∈ f.ownLabels := List.mem_map_of_mem (List.mem_of_mem_head? he)
  have hgoes : ∀ {l k}, f.Goes l k → k ∈ f.ownLabels := by
    rintro l k ⟨b, hb, -, hk⟩
    exact hinside b hb k hk
  have hown : ∀ l ∈ f.ownLabels, ∀ k ∈ next l, k ∈ f.ownLabels := fun l hl k hk =>
    hgoes ((mem_successorsIn hapart hl).1 hk)
  have hstart : Followed next e.label 0 [e.label] := by
    refine ⟨List.nodup_singleton _, List.mem_singleton_self _, fun l hl => ?_, fun l hl => ?_⟩
    · rw [List.mem_singleton.1 hl]
    · cases hl
  have hreach : f.reachable elsewhere =
      reachFrom next ((f.blocks ++ elsewhere).length + 1) 0 [e.label] := by
    simp only [reachable, next, hbs]
  have hlen : f.ownLabels.length ≤ (f.blocks ++ elsewhere).length + 1 + 0 := by
    simp only [ownLabels, List.length_map, List.length_append]
    omega
  rw [hreach, hstart.mem_reachFrom hentry hown hlen]
  -- both relations agree on labels of the function, and lead to no others
  constructor
  · intro hway
    suffices h : Relation.ReflTransGen f.Goes e.label l ∧ l ∈ f.ownLabels from h.1
    induction hway with
    | refl => exact ⟨.refl, hentry⟩
    | tail _ hk ih =>
      have hgo := (mem_successorsIn hapart ih.2).1 hk
      exact ⟨ih.1.tail hgo, hgoes hgo⟩
  · intro hway
    suffices h : Relation.ReflTransGen (fun a b => b ∈ next a) e.label l ∧ l ∈ f.ownLabels from h.1
    induction hway with
    | refl => exact ⟨.refl, hentry⟩
    | tail _ hk ih => exact ⟨ih.1.tail ((mem_successorsIn hapart ih.2).2 hk), hgoes hk⟩

/-- A function that verification accepts, with labels that tell its blocks apart. -/
structure Regular (f : Func) : Prop extends f.WellFormed where
  /-- each label belongs to one block -/
  nodup : f.ownLabels.Nodup

@[simp] theorem incoming?_dropIncoming {kept : List Label} {line : Line} :
    (dropIncoming kept line).inst.incoming? =
      line.inst.incoming?.map fun incoming => incoming.filter fun i => kept.contains i.2 := by
  rcases line with ⟨reg, name, inst⟩
  cases inst <;> rfl

theorem phisFirst_dropIncoming {kept : List Label} {lines : List Line} (h : PhisFirst lines) :
    PhisFirst (lines.map (dropIncoming kept)) := by
  refine List.pairwise_map.2 (h.imp fun {x y} hxy hy => ?_)
  simp only [incoming?_dropIncoming, Option.isSome_map] at hy ⊢
  exact hxy hy

/-- The kept blocks of a function, with the values of their choices that are kept. -/
def keep (f : Func) (kept : List Label) : List Block :=
  (f.blocks.filter fun b => kept.contains b.label).map fun b =>
    { b with lines := b.lines.map (dropIncoming kept) }

theorem mem_keep {kept : List Label} {c : Block} : c ∈ f.keep kept ↔
    ∃ b ∈ f.blocks, b.label ∈ kept ∧ c = { b with lines := b.lines.map (dropIncoming kept) } := by
  simp only [keep, List.mem_map, List.mem_filter, List.contains_iff_mem]
  constructor
  · rintro ⟨b, ⟨hb, hk⟩, rfl⟩
    exact ⟨b, hb, hk, rfl⟩
  · rintro ⟨b, hb, hk, rfl⟩
    exact ⟨b, ⟨hb, hk⟩, rfl⟩

theorem ownLabels_keep {kept : List Label} :
    (f.keep kept).map Block.label = f.ownLabels.filter fun l => kept.contains l := by
  simp only [keep, ownLabels, List.map_map, List.filter_map]
  rfl

/-- The ways between kept blocks are those there were. -/
theorem predecessors_keep {g : Func} {kept : List Label} (hg : g.blocks = f.keep kept) (l : Label) :
    g.predecessors l = (f.predecessors l).filter fun k => kept.contains k := by
  rw [predecessors, hg, keep, predecessors, List.flatMap_map]
  induction f.blocks with
  | nil => rfl
  | cons b bs ih =>
    have hways : ∀ k ∈ (b.successors.filter fun s => s = l).map fun _ => b.label, k = b.label := by
      intro k hk
      obtain ⟨-, -, rfl⟩ := List.mem_map.1 hk
      rfl
    rw [List.flatMap_cons, List.filter_append, ← ih]
    by_cases hk : kept.contains b.label = true
    · have hall : ((b.successors.filter fun s => s = l).map fun _ => b.label).filter
          (fun k => kept.contains k) = (b.successors.filter fun s => s = l).map fun _ => b.label :=
        List.filter_eq_self.2 fun k hk' => by rw [hways k hk', hk]
      rw [List.filter_cons_of_pos (p := fun b : Block => kept.contains b.label) hk,
        List.flatMap_cons, hall]
      rfl
    · have hnone : ((b.successors.filter fun s => s = l).map fun _ => b.label).filter
          (fun k => kept.contains k) = [] :=
        List.filter_eq_nil_iff.2 fun k hk' => by rw [hways k hk']; exact hk
      rw [List.filter_cons_of_neg (p := fun b : Block => kept.contains b.label) hk, hnone,
        List.nil_append]

/-- The values for kept blocks are those for the ways that are left. -/
theorem Matched.keep (h : f.Matched) {g : Func} {kept : List Label} (hg : g.blocks = f.keep kept) :
    g.Matched := by
  intro c hc line hline incoming hinc
  obtain ⟨b, hb, -, rfl⟩ := mem_keep.1 (hg ▸ hc)
  obtain ⟨old, hold, rfl⟩ := List.mem_map.1 hline
  rw [incoming?_dropIncoming] at hinc
  obtain ⟨all, hall, rfl⟩ := Option.map_eq_some_iff.1 hinc
  have hperm := (h b hb old hold all hall).filter fun k => kept.contains k
  rw [predecessors_keep hg]
  rwa [List.filter_map] at hperm

/-- The entry is kept in front. -/
theorem head?_keep {kept : List Label} {e : Block} (he : f.blocks.head? = some e)
    (hkept : e.label ∈ kept) :
    (f.keep kept).head? = some { e with lines := e.lines.map (dropIncoming kept) } := by
  obtain ⟨bs, hbs⟩ := List.head?_eq_some_iff.1 he
  rw [Func.keep, hbs, List.filter_cons_of_pos (by simpa using hkept)]
  rfl

/-- Keeping the entry, and with a block all to which it goes, keeps a function accepted, if its
choices have a value for each way. -/
theorem Accepted.keep (h : f.Accepted) (hmatched : f.Matched) {g : Func} {kept : List Label}
    (hg : g.blocks = f.keep kept) (hresult : g.result = f.result)
    (hentry : ∀ e ∈ f.blocks.head?, e.label ∈ kept)
    (hclosed : ∀ b ∈ f.blocks, b.label ∈ kept → ∀ k ∈ b.successors, k ∈ kept) : g.Accepted := by
  refine ⟨?_, ?_, ?_, ?_, ?_⟩
  · intro c hc
    obtain ⟨b, hb, -, rfl⟩ := mem_keep.1 (hg ▸ hc)
    exact h.closed b hb
  · intro c hc k hk
    obtain ⟨b, hb, hkept, rfl⟩ := mem_keep.1 (hg ▸ hc)
    rw [ownLabels, hg, ownLabels_keep, List.mem_filter]
    exact ⟨h.inside b hb k hk, by simpa using hclosed b hb hkept k hk⟩
  · intro c hc
    rcases he : f.blocks.head? with _ | e
    · rw [hg, Func.keep, List.head?_eq_none_iff.1 he] at hc
      cases hc
    · rw [hg, head?_keep he (hentry e he)] at hc
      obtain rfl := Option.some.inj hc
      rw [predecessors_keep hg, h.entry e he, List.filter_nil]
  · intro c hc v hv
    obtain ⟨b, hb, -, rfl⟩ := mem_keep.1 (hg ▸ hc)
    rw [hresult]
    exact h.result b hb v hv
  · intro c hc
    have hways := hmatched.keep hg c hc
    obtain ⟨b, hb, -, rfl⟩ := mem_keep.1 (hg ▸ hc)
    exact PhisFit.counted ⟨phisFirst_dropIncoming (h.phis b hb).first, hways⟩

/-- The same holds of well-formed functions. -/
theorem WellFormed.keep (h : f.WellFormed) {g : Func} {kept : List Label}
    (hg : g.blocks = f.keep kept) (hresult : g.result = f.result)
    (hentry : ∀ e ∈ f.blocks.head?, e.label ∈ kept)
    (hclosed : ∀ b ∈ f.blocks, b.label ∈ kept → ∀ k ∈ b.successors, k ∈ kept) : g.WellFormed := by
  have hmatched := h.matched.keep hg
  have hbody : g.blocks ≠ [] := by
    obtain ⟨e, he⟩ : ∃ e, f.blocks.head? = some e :=
      Option.isSome_iff_exists.1 (by simpa [List.isSome_head?] using h.body)
    intro hnil
    have hhead := head?_keep he (hentry e he)
    rw [← hg, hnil] at hhead
    cases hhead
  refine wellFormed_iff.2 ⟨hbody, h.accepted.keep h.matched hg hresult hentry hclosed, ?_, ?_⟩
  · exact hmatched.unrepeated
  · intro c hc v hv
    obtain ⟨b, hb, -, rfl⟩ := mem_keep.1 (hg ▸ hc)
    obtain ⟨-, -, -, hvalued⟩ := wellFormed_iff.1 h
    exact hvalued b hb v hv

/-- Pruning keeps a function regular. -/
theorem Regular.prune (h : f.Regular) (elsewhere : List Block) : (f.prune elsewhere).Regular := by
  unfold Func.prune
  dsimp only
  split
  · exact h
  · have hreach : ∀ e ∈ f.blocks.head?, ∀ {l}, l ∈ f.reachable elsewhere ↔
        Relation.ReflTransGen f.Goes e.label l := fun e he =>
      mem_reachable (apart_of_nodup h.nodup) h.inside he
    refine ⟨h.toWellFormed.keep rfl rfl (fun e he => (hreach e he).2 .refl) ?_, ?_⟩
    · intro b hb hkept k hk
      obtain ⟨e, he⟩ : ∃ e, f.blocks.head? = some e :=
        Option.isSome_iff_exists.1 (by simpa [List.isSome_head?] using h.body)
      exact (hreach e he).2 (((hreach e he).1 hkept).tail ⟨b, hb, rfl, hk⟩)
    · change ((f.keep (f.reachable elsewhere)).map Block.label).Nodup
      rw [ownLabels_keep]
      exact h.nodup.filter _

theorem id_prune (f : Func) (elsewhere : List Block) : (f.prune elsewhere).id = f.id := by
  unfold Func.prune
  dsimp only
  split <;> rfl

end Func

/-! ## Passes -/

/-- A module of regular functions. -/
def Module.Regular (m : Module) : Prop := ∀ f ∈ m.funcs, f.Regular

theorem Module.Regular.verify_eq_none {m : Module} (h : m.Regular) : m.verify = none :=
  Module.verify_eq_none fun f hf => (h f hf).toWellFormed

/-- Pruning one function keeps a module regular. -/
theorem Module.Regular.prune {m : Module} (h : m.Regular) {f : Func} (hf : f.Regular) :
    (m.prune f).Regular := by
  intro g hg
  obtain ⟨old, hold, rfl⟩ := List.mem_map.1 hg
  split
  · exact hf.prune _
  · exact h old hold

namespace PassM

theorem get_bind_run {act : PassState → PassM Unit} {s : PassState} :
    (get >>= act).run.run s = (act s).run.run s := rfl

section

variable {id : FuncId} {act : Func → PassM Unit} {s : PassState}

theorem withFunc_none (h : s.module.func? id = none) :
    (withFunc id act).run.run s = (.ok (), s) := by
  rw [withFunc, get_bind_run, h]
  rfl

theorem withFunc_some {f : Func} (h : s.module.func? id = some f) :
    (withFunc id act).run.run s = (act f).run.run s := by
  rw [withFunc, get_bind_run, h]

end

/-- Verification lets a regular function pass. -/
theorem check_run (time pass : String) {f : Func} (hf : f.Regular) (s : PassState) :
    (check time pass f).run.run s = (.ok (), s) := by
  have hnone : f.verify s.module.numbers = none := by
    rw [Func.verify, hf.toWellFormed.complaints_eq_nil]
    rfl
  rw [check, get_bind_run, hnone]
  rfl

/-- A run that ends well, and leaves a regular module if it found one. -/
def Keeps (act : PassM Unit) : Prop :=
  ∀ s : PassState, s.module.Regular → ∃ s', act.run.run s = (.ok (), s') ∧ s'.module.Regular

namespace Keeps

theorem pure : Keeps (Pure.pure ()) := fun s h => ⟨s, rfl, h⟩

theorem seq {act next : PassM Unit} (hact : Keeps act) (hnext : Keeps next) :
    Keeps (act >>= fun _ => next) := by
  intro s h
  obtain ⟨s₁, hrun₁, h₁⟩ := hact s h
  obtain ⟨s₂, hrun₂, h₂⟩ := hnext s₁ h₁
  refine ⟨s₂, ?_, h₂⟩
  rw [ExceptT.run_bind, StateT.run_bind, hrun₁]
  exact hrun₂

theorem forM {α : Type} {act : α → PassM Unit} (h : ∀ x, Keeps (act x)) :
    ∀ xs : List α, Keeps (xs.forM act)
  | [] => pure
  | x :: xs => (h x).seq (forM h xs)

/-- What is done with a regular function of a module. -/
theorem withFunc {id : FuncId} {act : Func → PassM Unit}
    (hact : ∀ f : Func, f.Regular → Keeps (act f)) : Keeps (PassM.withFunc id act) := by
  intro s h
  rcases hfind : s.module.func? id with _ | f
  · exact ⟨s, withFunc_none hfind, h⟩
  · rw [withFunc_some hfind]
    exact hact f (h f (List.mem_of_find?_eq_some hfind)) s h

theorem check (time pass : String) {f : Func} (hf : f.Regular) :
    Keeps (PassM.check time pass f) := fun s h => ⟨s, check_run time pass hf s, h⟩

theorem prune {f : Func} (hf : f.Regular) :
    Keeps (modify fun s => { s with module := s.module.prune f }) := fun s h =>
  ⟨{ s with module := s.module.prune f }, rfl, h.prune hf⟩

/-- Each of the passes keeps a module regular; verification does not end the run. -/
theorem runPass {id : FuncId} {p : Pass} (hp : p ∈ defaultPasses) :
    Keeps (PassM.runPass { verify := true } id p) := by
  obtain rfl := List.mem_singleton.1 hp
  have hcheck : ∀ time pass, Keeps (PassM.withFunc id (PassM.check time pass)) := fun time pass =>
    withFunc fun f hf => check time pass hf
  exact (hcheck _ _).seq ((withFunc fun f hf => prune hf).seq ((hcheck _ _).seq pure))

end Keeps

end PassM

/-- A run of the passes with verification ends well on a module of regular functions, and leaves
one. -/
theorem Module.Regular.runPasses {m : Module} (h : m.Regular) :
    ∃ s, m.runPasses defaultPasses { verify := true } = (.ok (), s) ∧ s.module.Regular := by
  refine PassM.Keeps.forM (fun id => ?_) _ { module := m } h
  exact ((PassM.Keeps.runPass List.mem_cons_self).seq .pure)

end Shader.Ir
