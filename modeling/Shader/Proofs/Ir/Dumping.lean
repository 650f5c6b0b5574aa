import Mathlib.Data.List.NodupEquivFin
import Mathlib.Order.WellFounded
import Shader.Proofs.Ir.Leftovers

/-!
# Dumps

A dump gives numbers to the locals of a function, and they keep them. A pass that takes blocks out
afterwards can leave locals with numbers that are too high, and then the module cannot be printed.
What stays of a function mentions no local of what is gone, so this is all that can happen: after a
dump the module has the text that it has without it, or none at all, and it has none exactly if a
local that stays was counted behind one that goes.
-/

namespace Shader.Ir

/-! ## Counting what stays -/

namespace Numbering

variable {ν ν' ν'' : Numbering} {es fs : List Entity}

theorem Counts.nil (ν : Numbering) : ν.Counts [] ν := ⟨nofun, fun _ _ => rfl⟩

/-- Entities that were counted with others fit exactly if they stand in front of these. -/
theorem fits_iff_prefix (h : ∀ i e, es[i]? = some e → ν.get e = i) (hsub : fs.Sublist es) :
    ν.Fits 0 fs ↔ fs <+: es := by
  constructor
  · intro hfits
    obtain ⟨place, hplace⟩ := List.sublist_iff_exists_orderEmbedding_getElem?_eq.1 hsub
    refine List.prefix_iff_getElem?.2 fun i hi => ?_
    have hget : fs[i]? = some fs[i] := List.getElem?_eq_getElem hi
    have hes : es[place i]? = some fs[i] := (hplace i).symm.trans hget
    have hle : i ≤ place i := place.strictMono.le_apply
    -- its place among all is not before its place among those that stay
    obtain hzero | hsame := hfits i _ hget
    · rw [h _ _ hes] at hzero
      rwa [show place i = i by omega] at hes
    · rw [h _ _ hes, Nat.zero_add] at hsame
      rwa [hsame] at hes
  · rintro ⟨rest, rfl⟩ i e he
    refine .inr ?_
    rw [Nat.zero_add]
    exact h i e (by rw [List.getElem?_append_left (List.getElem?_eq_some_iff.1 he).1, he])

/-- Counting again what stands in front changes nothing. -/
theorem Counts.again (h : ν.Counts es ν') (hnd : es.Nodup) (h' : ν'.Counts fs ν'')
    (hfront : fs <+: es) : ν.Counts es ν'' where
  place := fun i e he => by
    by_cases hmem : e ∈ fs
    · obtain ⟨j, hj⟩ := List.mem_iff_getElem?.1 hmem
      obtain ⟨rest, rfl⟩ := hfront
      have hjt : (fs ++ rest)[j]? = some e := by
        rw [List.getElem?_append_left (List.getElem?_eq_some_iff.1 hj).1, hj]
      rw [h'.place j e hj]
      exact (List.getElem?_inj (List.getElem?_eq_some_iff.1 hjt).1 hnd).1 (hjt.trans he.symm)
    · rw [h'.other e hmem, h.place i e he]
  other := fun e he => by
    rw [h'.other e fun hmem => he (hfront.subset hmem), h.other e he]

end Numbering

/-! ## Actions of a run -/

/-- Whether functions with a name are dumped around a pass, by a pattern for its name. -/
def PassOptions.wants (o : PassOptions) (pattern pass func : String) : Bool :=
  (pattern = "*" || pattern = pass) && (o.dumpFunc = "" || o.dumpFunc = func)

namespace PassM

variable {s s' s'' : PassState} {act next : PassM Unit}

/-- An action goes well. -/
def Ends (act : PassM Unit) (s s' : PassState) : Prop := act.run.run s = (.ok (), s')

/-- An action ends the run. -/
def Breaks (act : PassM Unit) (s : PassState) : Prop := ∃ e s', act.run.run s = (.error e, s')

theorem Ends.seq (h : Ends act s s') (h' : Ends next s' s'') :
    Ends (act >>= fun _ => next) s s'' := by
  rw [Ends, ExceptT.run_bind, StateT.run_bind, h]
  exact h'

theorem Ends.breaks (h : Ends act s s') (h' : Breaks next s') :
    Breaks (act >>= fun _ => next) s := by
  rw [Breaks, ExceptT.run_bind, StateT.run_bind, h]
  exact h'

theorem Breaks.seq (h : Breaks act s) : Breaks (act >>= fun _ => next) s := by
  obtain ⟨e, s', hrun⟩ := h
  rw [Breaks, ExceptT.run_bind, StateT.run_bind, hrun]
  exact ⟨e, s', rfl⟩

/-- Does something only if it is asked for. -/
def whenever (c : Bool) (act : PassM Unit) : PassM Unit := if c then act else pure ()

theorem whenever_bind (c : Bool) (act : PassM Unit) (next : Unit → PassM Unit) :
    whenever c act >>= next = if c then act >>= next else next () := by
  cases c <;> rfl

theorem ends_whenever {c : Bool} (hact : c = true → Ends act s s') (hnone : c = false → s' = s) :
    Ends (whenever c act) s s' := by
  cases c with
  | false =>
    obtain rfl := hnone rfl
    rfl
  | true => exact hact rfl

/-- A pass on a function, action by action. -/
theorem runPass_eq (o : PassOptions) (id : FuncId) (p : Pass) : runPass o id p = (do
    let name := id.told (← get).module.numbers
    whenever (o.wants o.dumpBefore p.name name) (withFunc id (dump "before" p.name))
    whenever o.verify (withFunc id (check "before" p.name))
    withFunc id fun f => modify fun s => { s with module := p.run s.module f }
    whenever o.verify (withFunc id (check "after" p.name))
    whenever (o.wants o.dumpAfter p.name name) (withFunc id (dump "after" p.name))) := by
  simp only [whenever_bind]
  rfl

section

variable {id : FuncId} {f : Func} {act : Func → PassM Unit}

theorem ends_withFunc (hf : s.module.func? id = some f) (h : Ends (act f) s s') :
    Ends (withFunc id act) s s' := (withFunc_some hf).trans h

theorem breaks_withFunc (hf : s.module.func? id = some f) (h : Breaks (act f) s) :
    Breaks (withFunc id act) s := by
  rw [Breaks, withFunc_some hf]
  exact h

end

theorem ends_check (time pass : String) {f : Func} (hf : f.Regular) (s : PassState) :
    Ends (check time pass f) s s := check_run time pass hf s

/-- A dump counts the locals of the function, prints it, and ends the run if that cannot be done. -/
theorem dump_run (time pass : String) (f : Func) (s : PassState) :
    ∃ text, (dump time pass f).run.run s = (do
      match (f.print (f.number s.module.numbers).1).2 with
      | .error e => throw (.inl e)
      | .ok text => write (text ++ "\n\n") : PassM Unit).run.run
        { module := { s.module with numbers := (f.print (f.number s.module.numbers).1).1 },
          dump := text } := by
  let head := "--- " ++ time ++ " " ++ pass ++ " (" ++ f.id.told s.module.numbers ++ ") ---\n"
  rw [dump, get_bind_run]
  dsimp only
  rcases f.number s.module.numbers with ⟨numbers, _ | ⟨expected, found⟩⟩
  · exact ⟨s.dump ++ head, rfl⟩
  · exact ⟨s.dump ++ head ++ ("; " ++ Fault.renumberedText f.id.name expected found ++ "\n"), rfl⟩

section

variable {f : Func} (hf : f.Printable) (time pass : String)
include hf

/-- A dump of a function whose locals fit changes their numbers only. -/
theorem ends_dump (hfits : s.module.numbers.Fits 0 f.unnamed) :
    ∃ s', Ends (dump time pass f) s s' ∧ s'.module.globals = s.module.globals ∧
      s'.module.funcs = s.module.funcs ∧
      s.module.numbers.Counts f.unnamed s'.module.numbers := by
  have hcounts := hf.counts hfits
  -- the function is counted once by the dump and once more for its text
  have hagain := hcounts.again hf.nodup (hf.counts hcounts.fits) List.prefix_rfl
  obtain ⟨text, hrun⟩ := dump_run time pass f s
  obtain ⟨lines, hlines⟩ := hf.exists_text (f.number (f.number s.module.numbers).1).1
  rw [hf.print_eq hcounts.fits, hlines] at hrun
  exact ⟨_, hrun, rfl, rfl, hagain⟩

/-- A dump of another function ends the run. -/
theorem breaks_dump (hfits : ¬ s.module.numbers.Fits 0 f.unnamed) :
    Breaks (dump time pass f) s := by
  have hstill : ¬ (f.number s.module.numbers).1.Fits 0 f.unnamed :=
    mt (Numbering.fits_of_fits_assign hf.nodup) hfits
  obtain ⟨text, hrun⟩ := dump_run time pass f s
  obtain ⟨fault, hfault⟩ := hf.print_of_not_fits hstill
  rw [hfault] at hrun
  exact ⟨_, _, hrun⟩

end

end PassM

/-! ## Runs -/

namespace PassOptions

/-- A function is dumped before blocks are taken out of it. -/
def before (o : PassOptions) (f : Func) : Bool :=
  o.wants o.dumpBefore "deadblocks" (f.id.told [])

/-- A function is dumped after blocks have been taken out of it. -/
def after (o : PassOptions) (f : Func) : Bool := o.wants o.dumpAfter "deadblocks" (f.id.told [])

/-- The locals of a function that dumps give numbers to. -/
def counted (o : PassOptions) (f : Func) : List Entity :=
  if o.before f then f.unnamed else if o.after f then (f.prune []).unnamed else []

/-- The dump of a function does no harm: the locals that stay are counted in front of those that
go. -/
def Harmless (o : PassOptions) (f : Func) : Prop :=
  o.before f = true → (f.prune []).unnamed <+: f.unnamed

theorem counted_subset (o : PassOptions) (f : Func) : o.counted f ⊆ f.unnamed := by
  unfold counted
  split
  · exact fun _ h => h
  · split
    · exact Func.unnamed_prune_sublist.subset
    · exact List.nil_subset _

variable {o : PassOptions} {f : Func} {ν ν' ν'' : Numbering}

/-- What stays of a function fits after its first dump exactly if that does no harm. -/
theorem fits_prune_iff (o : PassOptions)
    (h : ν.Counts (if o.before f then f.unnamed else []) ν')
    (hzero : ∀ e ∈ f.unnamed, ν.get e = 0) : ν'.Fits 0 (f.prune []).unnamed ↔ o.Harmless f := by
  rcases hbefore : o.before f with _ | _
  · rw [hbefore] at h
    refine iff_of_true (fun i e he => .inl ?_) fun htrue => ?_
    · rw [h.other e List.not_mem_nil]
      exact hzero e (Func.unnamed_prune_sublist.subset (List.mem_of_getElem? he))
    · rw [hbefore] at htrue
      cases htrue
  · rw [hbefore, if_pos rfl] at h
    rw [Harmless, Numbering.fits_iff_prefix h.place Func.unnamed_prune_sublist]
    exact ⟨fun hfront _ => hfront, fun hharm => hharm hbefore⟩

/-- Both dumps of a function together. -/
theorem counts_counted (o : PassOptions) (hnd : f.unnamed.Nodup)
    (h : ν.Counts (if o.before f then f.unnamed else []) ν')
    (h' : ν'.Counts (if o.after f then (f.prune []).unnamed else []) ν'')
    (hharm : o.after f = true → o.Harmless f) : ν.Counts (o.counted f) ν'' := by
  unfold counted
  rcases hbefore : o.before f with _ | _
  · rw [hbefore] at h
    exact ⟨h'.place, fun e he => (h'.other e he).trans (h.other e List.not_mem_nil)⟩
  · rw [hbefore] at h
    rcases hafter : o.after f with _ | _
    · rw [hafter] at h'
      exact h.again hnd h' List.nil_prefix
    · rw [hafter] at h'
      exact h.again hnd h' (hharm hafter hbefore)

end PassOptions

namespace Module

/-- A module to which passes can be applied: its functions are finished and told apart, as are its
global variables, and nothing has a number. -/
structure Settled (m : Module) : Prop where
  /-- functions are well formed -/
  regular : m.Regular
  /-- no block has been taken out of them -/
  tidy : ∀ f ∈ m.funcs, f.Tidy
  /-- what they use has the types it is taken for -/
  wellTyped : m.WellTyped
  /-- and has been computed -/
  dominated : ∀ f ∈ m.funcs, f.Dominated
  /-- functions are told apart -/
  ids : (m.funcs.map Func.id).Nodup
  /-- global variables are told apart -/
  globals : (m.globals.map Global.id).Nodup
  /-- nothing has a number -/
  numbers : m.numbers = []

theorem func?_eq {m : Module} (hids : (m.funcs.map Func.id).Nodup) {f : Func} (hf : f ∈ m.funcs) :
    m.func? f.id = some f := by
  rcases hfound : m.func? f.id with _ | g
  · exact absurd (List.find?_eq_none.1 hfound f hf) (by simp)
  · have hid : g.id = f.id := by simpa using List.find?_some hfound
    rw [List.inj_on_of_nodup_map hids (List.mem_of_find?_eq_some hfound) hf hid]

theorem func?_setFunc {m : Module} {f g : Func} (h : m.func? g.id = some f) :
    (m.setFunc g).func? g.id = some g := by
  have hsame : (fun x : Func => decide (x.id = g.id)) ∘ (fun x => if x.id = g.id then g else x) =
      fun x => decide (x.id = g.id) := by
    funext x
    simp only [Function.comp]
    split
    next hid => rw [hid]
    · rfl
  have hid : f.id = g.id := by simpa using List.find?_some h
  rw [func?] at h
  rw [func?, setFunc, List.find?_map, hsame, h, Option.map_some, if_pos hid]

variable {m : Module} (hm : m.Settled)
include hm

theorem Settled.printable {f : Func} (hf : f ∈ m.funcs) : f.Printable where
  closed := (hm.regular f hf).closed
  nodup := (hm.tidy f hf).nodup_unnamed (hm.dominated f hf).numbered
  home := fun _ he => (hm.tidy f hf).home?_of_mem_unnamed he

theorem Settled.printable_prune {f : Func} (hf : f ∈ m.funcs) : (f.prune []).Printable :=
  (hm.regular f hf).printable_prune (hm.tidy f hf) (hm.dominated f hf).numbered

/-- A local of a function is not among the locals of another. -/
theorem Settled.eq_of_mem {f g : Func} (hf : f ∈ m.funcs) (hg : g ∈ m.funcs) {e : Entity}
    (hef : e ∈ f.unnamed) (heg : e ∈ g.unnamed) : f = g := by
  refine List.inj_on_of_nodup_map hm.ids hf hg (Option.some.inj ?_)
  rw [← (hm.printable hf).home e hef, (hm.printable hg).home e heg]

end Module

/-- Some functions of a module have gone through the passes. -/
structure PassState.Through (s : PassState) (o : PassOptions) (m : Module) (done : List FuncId) :
    Prop where
  /-- the global variables are as before -/
  globals : s.module.globals = m.globals
  /-- blocks have been taken out of these functions -/
  funcs : s.module.funcs = m.funcs.map fun f => if f.id ∈ done then f.prune [] else f
  /-- their dumps have given numbers -/
  counted : ∀ f ∈ m.funcs, f.id ∈ done → ∀ i e, (o.counted f)[i]? = some e →
    s.module.numbers.get e = i
  /-- nothing else has a number -/
  other : ∀ e, (∀ f ∈ m.funcs, f.id ∈ done → e ∉ o.counted f) → s.module.numbers.get e = 0

namespace PassState.Through

variable {o : PassOptions} {m : Module} {done : List FuncId} {s : PassState} {f : Func}

theorem localOnly (h : s.Through o m done) (hm : m.Settled) : s.module.numbers.LocalOnly := by
  intro e he
  refine h.other e fun g hg _ hmem => ?_
  have hhome := (hm.printable hg).home e (o.counted_subset g hmem)
  rw [he] at hhome
  cases hhome

/-- The locals of a function that is still to come have no numbers. -/
theorem get_eq_zero (h : s.Through o m done) (hm : m.Settled) (hf : f ∈ m.funcs)
    (hnew : f.id ∉ done) {e : Entity} (he : e ∈ f.unnamed) : s.module.numbers.get e = 0 :=
  h.other e fun g hg hdone hmem =>
    hnew (hm.eq_of_mem hf hg he (o.counted_subset g hmem) ▸ hdone)

theorem ids (h : s.Through o m done) (hm : m.Settled) : (s.module.funcs.map Func.id).Nodup := by
  have hmap : s.module.funcs.map Func.id = m.funcs.map Func.id := by
    rw [h.funcs, List.map_map]
    refine List.map_congr_left fun f _ => ?_
    simp only [Function.comp]
    split
    · exact Func.id_prune f []
    · rfl
  rw [hmap]
  exact hm.ids

theorem func?_eq (h : s.Through o m done) (hm : m.Settled) (hf : f ∈ m.funcs)
    (hnew : f.id ∉ done) : s.module.func? f.id = some f := by
  refine Module.func?_eq (h.ids hm) ?_
  rw [h.funcs]
  exact List.mem_map.2 ⟨f, hf, if_neg hnew⟩

/-- One more function goes through. -/
theorem cons (h : s.Through o m done) (hm : m.Settled) (hf : f ∈ m.funcs) {s' : PassState}
    (hglobals : s'.module.globals = s.module.globals)
    (hfuncs : s'.module.funcs = (s.module.setFunc (f.prune [])).funcs)
    (hcounts : s.module.numbers.Counts (o.counted f) s'.module.numbers) :
    s'.Through o m (f.id :: done) where
  globals := hglobals.trans h.globals
  funcs := by
    rw [hfuncs, Module.setFunc, h.funcs, List.map_map]
    refine List.map_congr_left fun g hg => ?_
    have hid : (if g.id ∈ done then g.prune [] else g).id = g.id := by
      split
      · exact Func.id_prune g []
      · rfl
    simp only [Function.comp, hid, Func.id_prune, List.mem_cons]
    by_cases heq : g.id = f.id
    · rw [if_pos heq, if_pos (.inl heq), List.inj_on_of_nodup_map hm.ids hg hf heq]
    · rw [if_neg heq]
      simp only [heq, false_or]
  counted := fun g hg hdone i e he => by
    by_cases heq : g = f
    · subst heq
      exact hcounts.place i e he
    · have hne : g.id ≠ f.id := fun hid => heq (List.inj_on_of_nodup_map hm.ids hg hf hid)
      have hother : e ∉ o.counted f := fun hmem =>
        heq (hm.eq_of_mem hg hf (o.counted_subset g (List.mem_of_getElem? he))
          (o.counted_subset f hmem))
      rw [hcounts.other e hother]
      exact h.counted g hg ((List.mem_cons.1 hdone).resolve_left hne) i e he
  other := fun e he => by
    rw [hcounts.other e (he f hf List.mem_cons_self)]
    exact h.other e fun g hg hdone => he g hg (List.mem_cons_of_mem _ hdone)

/-- The dump before the pass. -/
theorem dump_before (h : s.Through o m done) (hm : m.Settled) (hf : f ∈ m.funcs)
    (hnew : f.id ∉ done) : ∃ s', PassM.Ends (PassM.whenever (o.before f)
        (PassM.withFunc f.id (PassM.dump "before" "deadblocks"))) s s' ∧
      s'.module.globals = s.module.globals ∧ s'.module.funcs = s.module.funcs ∧
      s.module.numbers.Counts (if o.before f then f.unnamed else []) s'.module.numbers := by
  rcases hbefore : o.before f with _ | _
  · exact ⟨s, rfl, rfl, rfl, .nil _⟩
  · have hfits : s.module.numbers.Fits 0 f.unnamed := fun i e he =>
      .inl (h.get_eq_zero hm hf hnew (List.mem_of_getElem? he))
    obtain ⟨s', hends, hrest⟩ := PassM.ends_dump (hm.printable hf) "before" "deadblocks" hfits
    exact ⟨s', PassM.ends_withFunc (h.func?_eq hm hf hnew) hends, hrest⟩

/-- What is done with a function that is still to come. -/
theorem run_eq (h : s.Through o m done) (hm : m.Settled) :
    (defaultPasses.forM (PassM.runPass o f.id)).run.run s = (do
      PassM.whenever (o.before f) (PassM.withFunc f.id (PassM.dump "before" "deadblocks"))
      PassM.whenever o.verify (PassM.withFunc f.id (PassM.check "before" "deadblocks"))
      PassM.withFunc f.id fun f => modify fun s => { s with module := s.module.prune f }
      PassM.whenever o.verify (PassM.withFunc f.id (PassM.check "after" "deadblocks"))
      PassM.whenever (o.after f)
        (PassM.withFunc f.id (PassM.dump "after" "deadblocks")) : PassM Unit).run.run s := by
  have htold : f.id.told s.module.numbers = f.id.told [] := by
    rw [FuncId.told, FuncId.told, Numbering.told, Numbering.told, h.localOnly hm (.func f.id) rfl]
    rfl
  have hone : defaultPasses.forM (PassM.runPass o f.id) =
      PassM.runPass o f.id ⟨"deadblocks", Module.prune⟩ := by
    exact bind_pure _
  rw [hone, PassM.runPass_eq, PassOptions.before, PassOptions.after, ← htold]
  rfl

/-- The dump after the pass, which needs the locals that are left to fit. -/
theorem dump_after (hp : (f.prune []).Printable)
    (hfunc : s.module.func? f.id = some (f.prune []))
    (hfits : o.after f = true → s.module.numbers.Fits 0 (f.prune []).unnamed) :
    ∃ s', PassM.Ends (PassM.whenever (o.after f)
        (PassM.withFunc f.id (PassM.dump "after" "deadblocks"))) s s' ∧
      s'.module.globals = s.module.globals ∧ s'.module.funcs = s.module.funcs ∧
      s.module.numbers.Counts (if o.after f then (f.prune []).unnamed else [])
        s'.module.numbers := by
  rcases hafter : o.after f with _ | _
  · exact ⟨s, rfl, rfl, rfl, .nil _⟩
  · obtain ⟨s', hends, hrest⟩ := PassM.ends_dump hp "after" "deadblocks" (hfits hafter)
    exact ⟨s', PassM.ends_withFunc hfunc hends, hrest⟩

/-- A function goes through the passes, unless its dumps do harm. -/
theorem step (h : s.Through o m done) (hm : m.Settled) (hf : f ∈ m.funcs) (hnew : f.id ∉ done) :
    (∃ s', PassM.Ends (defaultPasses.forM (PassM.runPass o f.id)) s s' ∧
      s'.Through o m (f.id :: done)) ∨
    PassM.Breaks (defaultPasses.forM (PassM.runPass o f.id)) s ∧ ¬ o.Harmless f := by
  have hreg := hm.regular f hf
  have hp := hm.printable_prune hf
  obtain ⟨s₁, hbefore, hglobals₁, hfuncs₁, hcounts₁⟩ := h.dump_before hm hf hnew
  have hfunc₁ : s₁.module.func? f.id = some f := by
    rw [Module.func?, hfuncs₁]
    exact h.func?_eq hm hf hnew
  -- checks find nothing in a regular function, before it is pruned and after
  have hcheck₁ : PassM.Ends (PassM.whenever o.verify
      (PassM.withFunc f.id (PassM.check "before" "deadblocks"))) s₁ s₁ :=
    PassM.ends_whenever (fun _ => PassM.ends_withFunc hfunc₁ (PassM.ends_check _ _ hreg _))
      fun _ => rfl
  let s₂ : PassState := { s₁ with module := s₁.module.setFunc (f.prune []) }
  have hprune : PassM.Ends (PassM.withFunc f.id fun f =>
      modify fun s => { s with module := s.module.prune f }) s₁ s₂ := by
    refine PassM.ends_withFunc hfunc₁ ?_
    change (Except.ok (), { s₁ with module := s₁.module.prune f }) = (Except.ok (), s₂)
    rw [Module.prune, hreg.prune_eq]
  have hfunc₂ : s₂.module.func? f.id = some (f.prune []) := by
    rw [← Func.id_prune f []] at hfunc₁ ⊢
    exact Module.func?_setFunc hfunc₁
  have hcheck₂ : PassM.Ends (PassM.whenever o.verify
      (PassM.withFunc f.id (PassM.check "after" "deadblocks"))) s₂ s₂ :=
    PassM.ends_whenever
      (fun _ => PassM.ends_withFunc hfunc₂ (PassM.ends_check _ _ (hreg.prune []) _)) fun _ => rfl
  have hfits₂ : s₂.module.numbers.Fits 0 (f.prune []).unnamed ↔ o.Harmless f :=
    o.fits_prune_iff hcounts₁ fun _ he => h.get_eq_zero hm hf hnew he
  -- only the dump behind the pass can meet a local without a number
  by_cases hharm : o.after f = true ∧ ¬ o.Harmless f
  · refine .inr ⟨?_, hharm.2⟩
    have hlast : PassM.Breaks (PassM.whenever (o.after f)
        (PassM.withFunc f.id (PassM.dump "after" "deadblocks"))) s₂ := by
      rw [hharm.1]
      exact PassM.breaks_withFunc hfunc₂
        (PassM.breaks_dump hp _ _ (mt hfits₂.1 hharm.2))
    rw [PassM.Breaks, h.run_eq hm]
    exact hbefore.breaks (hcheck₁.breaks (hprune.breaks (hcheck₂.breaks hlast)))
  · obtain ⟨s₃, hafter, hglobals₃, hfuncs₃, hcounts₃⟩ := dump_after (o := o) hp hfunc₂
      fun hafter => hfits₂.2 (not_not.1 fun hno => hharm ⟨hafter, hno⟩)
    refine .inl ⟨s₃, ?_, h.cons hm hf ?_ ?_ ?_⟩
    · rw [PassM.Ends, h.run_eq hm]
      exact hbefore.seq (hcheck₁.seq (hprune.seq (hcheck₂.seq hafter)))
    · exact hglobals₃.trans hglobals₁
    · rw [hfuncs₃]
      change (s₁.module.setFunc (f.prune [])).funcs = _
      rw [Module.setFunc, hfuncs₁, Module.setFunc]
    · exact o.counts_counted (hm.printable hf).nodup hcounts₁ hcounts₃ fun hafter =>
        not_not.1 fun hno => hharm ⟨hafter, hno⟩

/-- All functions go through the passes, unless the dumps of one do harm. -/
theorem run (hm : m.Settled) : ∀ {fs : List Func} {done : List FuncId} {s : PassState},
    s.Through o m done → (∀ f ∈ fs, f ∈ m.funcs ∧ f.id ∉ done) → (fs.map Func.id).Nodup →
    (∃ s' done', PassM.Ends
        ((fs.map Func.id).forM fun id => defaultPasses.forM (PassM.runPass o id)) s s' ∧
      s'.Through o m done' ∧ done ⊆ done' ∧ ∀ f ∈ fs, f.id ∈ done') ∨
    PassM.Breaks ((fs.map Func.id).forM fun id => defaultPasses.forM (PassM.runPass o id)) s ∧
      ∃ f ∈ fs, ¬ o.Harmless f
  | [], done, s, h, _, _ => .inl ⟨s, done, rfl, h, fun _ hd => hd, nofun⟩
  | f :: fs, done, s, h, hfs, hnd => by
    obtain ⟨⟨hf, hnew⟩, hrest⟩ := List.forall_mem_cons.1 hfs
    obtain ⟨hfirst, hnd⟩ := List.nodup_cons.1 hnd
    rcases h.step hm hf hnew with ⟨s₁, hends, h₁⟩ | ⟨hbreaks, hharm⟩
    · have hnew' : ∀ g ∈ fs, g ∈ m.funcs ∧ g.id ∉ f.id :: done := fun g hg => by
        refine ⟨(hrest g hg).1, fun hmem => ?_⟩
        rcases List.mem_cons.1 hmem with heq | hmem
        · exact hfirst (heq ▸ List.mem_map_of_mem hg)
        · exact (hrest g hg).2 hmem
      rcases run hm h₁ hnew' hnd with ⟨s', done', hends', h', hsub, hall⟩ | ⟨hbreaks, g, hg, hharm⟩
      · refine .inl ⟨s', done', hends.seq hends', h', fun _ hd => hsub (List.mem_cons_of_mem _ hd),
          List.forall_mem_cons.2 ⟨hsub List.mem_cons_self, hall⟩⟩
      · exact .inr ⟨hends.breaks hbreaks, g, List.mem_cons_of_mem _ hg, hharm⟩
    · exact .inr ⟨hbreaks.seq, f, List.mem_cons_self, hharm⟩

section

variable (h : s.Through o m done) (hm : m.Settled) (hall : ∀ f ∈ m.funcs, f.id ∈ done)
include h hm hall

omit hm in
/-- What is left of all functions. -/
theorem funcs_eq : s.module.funcs = m.funcs.map fun f => f.prune [] := by
  rw [h.funcs]
  exact List.map_congr_left fun f hf => if_pos (hall f hf)

theorem printable : s.module.Printable where
  funcs := fun g hg => by
    rw [h.funcs_eq hall] at hg
    obtain ⟨f, hf, rfl⟩ := List.mem_map.1 hg
    exact hm.printable_prune hf
  ids := h.ids hm
  globals := by
    rw [h.globals]
    exact hm.globals

/-- What is left of a function fits exactly if its dumps do no harm. -/
theorem fits_iff (hf : f ∈ m.funcs) :
    s.module.numbers.Fits 0 (f.prune []).unnamed ↔ o.Harmless f := by
  have hcounted := h.counted f hf (hall f hf)
  unfold PassOptions.counted at hcounted
  rcases hbefore : o.before f with _ | _
  · rw [hbefore] at hcounted
    refine iff_of_true (fun i e he => ?_) fun htrue => ?_
    · rcases hafter : o.after f with _ | _
      · refine .inl (h.other e fun g hg _ hmem => ?_)
        have hemem := Func.unnamed_prune_sublist.subset (List.mem_of_getElem? he)
        obtain rfl := hm.eq_of_mem hf hg hemem (o.counted_subset g hmem)
        rw [PassOptions.counted, hbefore, hafter] at hmem
        cases hmem
      · rw [hafter] at hcounted
        exact .inr (by rw [Nat.zero_add]; exact hcounted i e he)
    · rw [hbefore] at htrue
      cases htrue
  · rw [hbefore, if_pos rfl] at hcounted
    rw [Numbering.fits_iff_prefix hcounted Func.unnamed_prune_sublist, PassOptions.Harmless]
    exact ⟨fun hfront _ => hfront, fun hharm => hharm hbefore⟩

/-- The module can be printed exactly if no dump does harm. -/
theorem exists_print_iff : (∃ text, s.module.print.2 = .ok text) ↔ ∀ f ∈ m.funcs, o.Harmless f := by
  rw [(h.printable hm hall).exists_print_iff (h.localOnly hm), h.funcs_eq hall,
    List.forall_mem_map]
  exact forall₂_congr fun f hf => h.fits_iff hm hall hf

/-- Two modules that can be printed have one text. -/
theorem print_eq {o' : PassOptions} {done' : List FuncId} {s' : PassState}
    (h' : s'.Through o' m done') (hall' : ∀ f ∈ m.funcs, f.id ∈ done')
    (hharm : ∀ f ∈ m.funcs, o.Harmless f) (hharm' : ∀ f ∈ m.funcs, o'.Harmless f) :
    s.module.print.2 = s'.module.print.2 := by
  have hfuncs := h.funcs_eq hall
  refine (h.printable hm hall).print_congr (h'.globals.trans h.globals.symm)
    ((h'.funcs_eq hall').trans hfuncs.symm) (h.localOnly hm) (h'.localOnly hm)
    (fun g hg => ?_) (fun g hg => ?_) fun g hg e he hmem => ?_
  all_goals
    rw [hfuncs] at hg
    obtain ⟨f, hf, rfl⟩ := List.mem_map.1 hg
  · exact (h.fits_iff hm hall hf).2 (hharm f hf)
  · exact (h'.fits_iff hm hall' hf).2 (hharm' f hf)
  · -- what is mentioned and not counted now was not counted by any dump
    obtain ⟨hhome, hstays⟩ := (hm.regular f hf).mentions_prune (hm.tidy f hf) (hm.dominated f hf)
      (hm.wellTyped f hf) he
    have hnone : ∀ g ∈ m.funcs, e ∉ g.unnamed := fun g hg heg => by
      have hid := hhome g.id ((hm.printable hg).home e heg)
      obtain rfl := List.inj_on_of_nodup_map hm.ids hg hf hid
      exact hmem (hstays heg)
    rw [h.other e fun g hg _ hg' => hnone g hg (o.counted_subset g hg'),
      h'.other e fun g hg _ hg' => hnone g hg (o'.counted_subset g hg')]

end

end PassState.Through

namespace Module.Settled

variable {m : Module} (hm : m.Settled)
include hm

/-- A module to which passes can be applied has a text. -/
theorem exists_print : ∃ text, m.print.2 = .ok text := by
  have hzero : ∀ e, m.numbers.get e = 0 := fun e => by
    rw [hm.numbers]
    rfl
  have hprintable : m.Printable := ⟨fun _ hf => hm.printable hf, hm.ids, hm.globals⟩
  rw [hprintable.exists_print_iff fun e _ => hzero e]
  exact fun f _ i e _ => .inl (hzero e)

/-- Passes with dumps go through all functions, unless the dumps of one do harm. -/
theorem runPasses (o : PassOptions) :
    (∃ s done, m.runPasses defaultPasses o = (.ok (), s) ∧ s.Through o m done ∧
      ∀ f ∈ m.funcs, f.id ∈ done) ∨
    (∃ e s, m.runPasses defaultPasses o = (.error e, s)) ∧ ∃ f ∈ m.funcs, ¬ o.Harmless f := by
  have hbodies : (m.funcs.filter fun f => !f.blocks.isEmpty) = m.funcs :=
    List.filter_eq_self.2 fun f hf => by simpa using (hm.regular f hf).body
  have hstart : PassState.Through { module := m } o m [] := by
    refine ⟨rfl, ?_, nofun, fun e _ => ?_⟩
    · simp
    · change m.numbers.get e = 0
      rw [hm.numbers]
      rfl
  have hrun := hstart.run (o := o) hm (fun f hf => ⟨hf, List.not_mem_nil⟩) hm.ids
  rw [Module.runPasses, hbodies]
  rcases hrun with ⟨s, done, hends, h, -, hall⟩ | ⟨hbreaks, hharm⟩
  · exact .inl ⟨s, done, hends, h, hall⟩
  · exact .inr ⟨hbreaks, hharm⟩

/-- Without dumps the passes end well and the module has a text. With dumps it has that text or
none, and it has it exactly if in every function that is dumped before the pass the locals that stay
are counted in front of those that go. -/
theorem print_runPasses (o : PassOptions) : ∃ plain text,
    m.runPasses defaultPasses {} = (.ok (), plain) ∧ plain.module.print.2 = .ok text ∧
    (∀ s text', m.runPasses defaultPasses o = (.ok (), s) → s.module.print.2 = .ok text' →
      text' = text) ∧
    ((∃ s, m.runPasses defaultPasses o = (.ok (), s) ∧ s.module.print.2 = .ok text) ↔
      ∀ f ∈ m.funcs, o.before f = true → (f.prune []).unnamed <+: f.unnamed) := by
  have hplain : ∀ f ∈ m.funcs, PassOptions.Harmless {} f := fun f _ htrue => by cases htrue
  obtain ⟨plain, done, hrun, h, hall⟩ : ∃ s done, m.runPasses defaultPasses {} = (.ok (), s) ∧
      s.Through {} m done ∧ ∀ f ∈ m.funcs, f.id ∈ done := by
    rcases hm.runPasses {} with h | ⟨-, f, hf, hharm⟩
    · exact h
    · exact absurd (hplain f hf) hharm
  obtain ⟨text, htext⟩ := (h.exists_print_iff hm hall).2 hplain
  refine ⟨plain, text, hrun, htext, ?_, ?_⟩
  -- either the passes end, or a dump does harm, and then there is neither end nor text
  all_goals rcases hm.runPasses o with ⟨s, done', hrun', h', hall'⟩ | ⟨⟨e, s, hrun'⟩, f, hf, hharm⟩
  · intro s' text' hrun'' htext'
    obtain rfl : s = s' := by
      rw [hrun''] at hrun'
      exact ((Prod.mk.inj hrun').2).symm
    have hharm := (h'.exists_print_iff hm hall').1 ⟨text', htext'⟩
    rw [h'.print_eq hm hall' h hall hharm hplain, htext] at htext'
    exact (Except.ok.inj htext').symm
  · intro s' text' hrun''
    rw [hrun'] at hrun''
    cases hrun''
  · constructor
    · rintro ⟨s', hrun'', htext'⟩
      obtain rfl : s = s' := by
        rw [hrun''] at hrun'
        exact ((Prod.mk.inj hrun').2).symm
      exact (h'.exists_print_iff hm hall').1 ⟨text, htext'⟩
    · intro hharm
      refine ⟨s, hrun', ?_⟩
      rw [h'.print_eq hm hall' h hall hharm hplain, htext]
  · refine iff_of_false ?_ fun hall => hharm (hall f hf)
    rintro ⟨s', hrun'', -⟩
    rw [hrun'] at hrun''
    cases hrun''

end Module.Settled

end Shader.Ir
