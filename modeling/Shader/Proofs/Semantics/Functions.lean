import Shader.Proofs.Lowering.Dumps
import Shader.Proofs.Semantics.Statements

/-!
# Integer functions keep their meaning

The machine starts a function with its reservations, gives its parameters their values, and goes on
to follow its statements. At the end of these it returns zero. Since it follows the meaning for any
number of rounds, and there is one way it can go, it returns what the meaning yields and nothing
else.
-/

namespace Shader.Ir.Func

variable {f : Func} {c : Config}

/-! ## The start of a function -/

/-- Reservations are carried out one after another, and each makes the next cell. -/
theorem reaches_slots {rest : List Line} : ∀ (todo done : List Line) {c : Config},
    ((done ++ todo).map Line.reg).Nodup → (∀ line ∈ todo, line.inst.isAlloca = true) →
    c.rest = todo ++ rest →
    (∀ (i : Nat) line, done[i]? = some line → c.regs line.reg = some (.cell i)) →
    c.memory.length = done.length →
    f.Reaches 0 c fun c' => c'.block = c.block ∧ c'.args = c.args ∧ c'.rest = rest ∧
      (∀ (i : Nat) line, (done ++ todo)[i]? = some line → c'.regs line.reg = some (.cell i)) ∧
      c'.memory.length = (done ++ todo).length
  | [], done, c, _, _, hrest, hcells, hsize =>
    .here ⟨rfl, rfl, hrest, by simpa using hcells, by simpa using hsize⟩
  | line :: todo, done, c, hnd, hslots, hrest, hcells, hsize => by
    obtain ⟨hslot, hslots⟩ := List.forall_mem_cons.1 hslots
    obtain ⟨τ, hinst⟩ : ∃ τ, line.inst = .alloca τ := by
      cases hi : line.inst with
      | alloca τ => exact ⟨τ, rfl⟩
      | _ => simp [hi, Inst.isAlloca] at hslot
    have hstep : f.step c = some (.inl (c.behind line (todo ++ rest)
        (some (.cell c.memory.length)) (c.memory ++ [none]))) := by
      simp [Func.step, hrest, hinst, Inst.outcome]
    have hnext : done ++ line :: todo = done ++ [line] ++ todo := by simp
    rw [hnext] at hnd ⊢
    refine (Reaches.step hstep (reaches_slots todo (done ++ [line]) hnd hslots rfl
      (fun i slot hi => ?_) (by simp [Config.behind, hsize]))).weaken (Nat.zero_le _) fun _ h => h
    change Function.update c.regs line.reg _ slot.reg = _
    rw [List.getElem?_append] at hi
    split at hi
    · -- an earlier reservation has another number
      have hne : slot.reg ≠ line.reg := by
        have hmem := List.mem_map_of_mem (f := Line.reg) (List.mem_of_getElem? hi)
        rw [List.map_append, List.nodup_append, List.map_append, List.nodup_append] at hnd
        exact hnd.1.2.2 _ hmem _ (by simp)
      rw [Function.update_of_ne hne]
      exact hcells i slot hi
    · obtain ⟨hi, rfl⟩ : i - done.length = 0 ∧ line = slot := by
        simpa [List.getElem?_singleton] using hi
      rw [Function.update_self, hsize]
      congr 2
      omega

/-- The machine starts with the reservations, and comes to the code of the entry. -/
theorem Executable.reaches_launch (hf : f.Executable) {l : Label} {b : Block} (hb : f.At l b)
    (hl : l.index = 0) (args : List Scalar) :
    ∃ c, f.launch args = some c ∧
      f.Reaches 0 c fun c' => f.AtHead l c' ∧ f.Housed c' ∧ c'.args = args := by
  have hhead : f.blocks.head? = some b := by
    rw [List.head?_eq_getElem?, ← hl]
    exact hb.1
  have hslots : f.slots = b.slots := by simp [slots, hhead]
  have hnd : (b.slots.map Line.reg).Nodup :=
    ((List.nodup_flatMap.1 hf.numbered.once).1 b hb.mem).sublist (List.filter_sublist.map _)
  let c : Config := { args, block := b.label, rest := b.lines, regs := fun _ => none, memory := []
                      came := none }
  refine ⟨c, by rw [launch, hhead]; rfl, (reaches_slots (c := c) b.slots [] hnd
    (fun line hline => (List.mem_filter.1 hline).2) (hf.slotsFirst.first l b hb)
    (by simp) rfl).weaken (Nat.le_refl _) fun c' h => ?_⟩
  obtain ⟨hblock, hargs, hrest, hcells, hsize⟩ := h
  exact ⟨⟨b, hb, hblock.trans hb.2, hrest⟩, ⟨hslots ▸ hcells, hslots ▸ hsize⟩, hargs⟩

theorem Finished.executable {O : Outside} (h : f.Finished O) : f.Executable := by
  obtain ⟨⟨s, ⟨s₀, hfresh, hw⟩, rfl⟩, -⟩ := h
  have ht := hfresh.tidy
  exact ⟨Steps.tidy hw ht, Steps.shaped hw ht hfresh.shaped,
    Steps.numbered hw ht hfresh.numbered, Steps.slotsFirst hw ht hfresh.slotsFirst⟩

/-! ## What a function returns -/

open Meaning in
/-- The machine returns what a part of the meaning yields for some number of rounds, if it tracks
that for every number. -/
theorem returns_iff {args : List Scalar} {m : Nat → Option (Store × BitVec 32)}
    (hc : f.launch args = some c) (h : ∀ n, f.Tracks n c
      (fun _ w c' => f.step c' = some (.inr (some (.word w)))) (m n)) (v : Option Scalar) :
    f.Returns args v ↔ ∃ w, v = some (.word w) ∧ ∃ n σ, m n = some (σ, w) := by
  constructor
  · rintro ⟨c₀, c', k, hc₀, htakes, hstep⟩
    obtain rfl : c = c₀ := Option.some.inj (hc.symm.trans hc₀)
    -- the meaning cannot give up later than the machine returns
    have htracks := h (k + 1)
    rcases hm : m (k + 1) with _ | ⟨σ, w⟩
    · rw [hm] at htracks
      obtain ⟨j, c'', hj, htakes', -⟩ := htracks
      exact absurd (htakes.length_le hstep htakes') (Nat.not_le_of_lt hj)
    · rw [hm] at htracks
      obtain ⟨j, c'', -, htakes', hstep'⟩ := htracks
      exact ⟨w, htakes.returned_unique hstep htakes' hstep', k + 1, σ, hm⟩
  · rintro ⟨w, rfl, n, σ, hm⟩
    have htracks := h n
    rw [hm] at htracks
    obtain ⟨k, c', -, htakes, hstep⟩ := htracks
    exact ⟨c, c', k, hc, htakes, hstep⟩

end Shader.Ir.Func

namespace Shader.Lowering

open Ir Meaning

variable {O : Outside} {ρ : Realm} {ns : Names} {x : Walk}

/-! ## Parameters -/

/-- The names with those of parameters in the innermost block. -/
def bindNames (ps : List Param) (ns : Names) : Names :=
  ps.foldl (fun ns p => ns.declare p.name.text) ns

/-- The store with parameters and their values in the innermost block. -/
def bindArgs (ps : List Param) (ws : List (BitVec 32)) (σ : Store) : Store :=
  (ps.zip ws).foldl (fun σ e => σ.declare e.1.name.text e.2) σ

theorem bindNames_cons (ps : List Param) (frame : List String) (ns : Names) :
    bindNames ps (frame :: ns) = (frame ++ ps.map fun p => p.name.text) :: ns := by
  induction ps generalizing frame with
  | nil => simp [bindNames]
  | cons p ps ih =>
    have hstep : bindNames (p :: ps) (frame :: ns) =
        bindNames ps ((frame ++ [p.name.text]) :: ns) := rfl
    rw [hstep, ih]
    simp

theorem bindArgs_cons (ps : List Param) (ws : List (BitVec 32))
    (frame : List (String × BitVec 32)) (σ : Store) :
    bindArgs ps ws (frame :: σ) = (frame ++ (ps.map fun p => p.name.text).zip ws) :: σ := by
  induction ps generalizing ws frame with
  | nil => simp [bindArgs]
  | cons p ps ih =>
    cases ws with
    | nil => simp [bindArgs]
    | cons w ws =>
      have hstep : bindArgs (p :: ps) (w :: ws) (frame :: σ) =
          bindArgs ps ws ((frame ++ [(p.name.text, w)]) :: σ) := rfl
      rw [hstep, ih]
      simp

/-- A parameter that is only read is a new variable. -/
theorem bindParams_cons {id : FuncId} {i : Nat} {p : Param} {ps : List Param}
    (hp : p.storage ≠ .output) : bindParams id i (p :: ps) = (do
      let addr ← emit (Emit.alloca p.type p.name.text)
      emit (Emit.store (.param id i p.name.text (Ty.ofData p.type)) addr)
      declare p.name p.type addr false) >>= fun _ => bindParams id (i + 1) ps := by
  have htype : (formal p).type = Ty.ofData p.type := (type_formal p).trans (if_neg hp)
  rw [bindParams, htype]
  simp only [if_neg hp, emit_bind, bind_assoc]
  rfl

/-- The machine gives the parameters the values of the arguments. -/
theorem simulates_bindParams {id : FuncId} : ∀ (ps : List Param) (i : Nat) {ns : Names} {x : Walk},
    (∀ p ∈ ps, p.storage ≠ .output ∧ p.type = .int) → x.site.Ready ρ → ρ.declares →
    x.site.func.id = id → x.site.func.params.drop i = ps.map formal → x.Local O ns → ns ≠ [] →
    Walks O ρ (bindParams id i ps) x fun _ x' => x'.site.Ready ρ ∧ x'.Local O (bindNames ps ns) ∧
      ∀ ws : List (BitVec 32), ws.length = ps.length →
        x.body.Simulates x'.body (fun c => c.args.drop i = ws.map .word)
          (fun σ => some (bindArgs ps ws σ, ())) fun _ _ => True
  | [], i, ns, x, _, hready, _, _, _, hx, _ => by
    unfold bindParams
    refine Walks.pure ⟨hready, hx, fun ws _ => ?_⟩
    exact (Body.Simulates.stays (.refl _) rfl ()).weaken (fun _ h => h) (fun _ => rfl)
      fun _ _ _ => trivial
  | p :: ps, i, ns, x, hps, hready, hρ, hid, hparams, hx, hns => by
    obtain ⟨⟨hp, htype⟩, hps⟩ := List.forall_mem_cons.1 hps
    have hget : x.site.func.params[i]? = some (formal p) := by
      rw [← List.head?_drop, hparams]
      rfl
    have hformal : (formal p).type = Ty.ofData p.type := (type_formal p).trans (if_neg hp)
    have harg : x.site.Has O (.param id i p.name.text (Ty.ofData p.type)) (Ty.ofData p.type) :=
      ⟨rfl, ⟨hid.symm, by rw [hget, ← hformal]; rfl⟩, fun _ h => by cases h⟩
    rw [bindParams_cons hp]
    refine Walks.bind (walks_newVar hready hρ (by simp [htype]) harg)
      fun _ x₁ hgoes h₁ => ?_
    obtain ⟨hready₁, addr, hnew⟩ := h₁
    have hx₁ := hnew.isLocal hx hgoes hns htype
    have hns₁ : Names.declare p.name.text ns ≠ [] := by
      rcases ns with _ | ⟨frame, ns⟩ <;> simp [Names.declare]
    have hparams₁ : x₁.site.func.params.drop (i + 1) = ps.map formal := by
      rw [hgoes.le.params, ← List.drop_drop, hparams]
      rfl
    refine (simulates_bindParams ps (i + 1) hps hready₁ hρ (hgoes.le.id.trans hid) hparams₁ hx₁
      hns₁).weaken fun _ x' hgoes' h => ⟨h.1, h.2.1, fun ws hlen => ?_⟩
    -- the store keeps the first argument, and the others are still to come
    obtain ⟨w, ws, rfl⟩ : ∃ w ws', ws = w :: ws' := List.exists_cons_of_length_eq_add_one hlen
    have hfirst := (hnew.simulates hx hns w).frame
      (R := fun c => c.args.drop (i + 1) = ws.map .word) fun c c' hagrees h => by
        rw [hagrees.1]
        exact h
    refine ((hfirst.bind hgoes.le hgoes'.le fun _ => (h.2.2 ws (by simpa using hlen)).weaken
      (fun _ h => h.2) (fun _ => rfl) fun _ _ h => h)).weaken (fun c hc => ?_) (fun σ => rfl)
      fun _ _ h => h
    have hi : c.args[i]? = some (.word w) := by
      rw [← List.head?_drop, hc]
      rfl
    refine ⟨hi, ?_⟩
    rw [← List.drop_drop, hc]
    rfl

/-! ## Bodies -/

/-- The function does not start with a call of the one that computes global variables. -/
def startsAlone (c : Context) (f : FuncDecl) : Prop := ¬ (f.name.text = "main" ∧ c.hasInit = true)

/-- The walk over the body of an integer function writes code that follows its meaning. -/
theorem follows_bodyCode {c : Context} {f : FuncDecl} (hf : isIntFunc f = true)
    (hc : startsAlone c f) (hready : x.site.Ready ρ) (hρ : ρ.declares) (hx : x.Local O [[]])
    (hid : x.site.func.id = ⟨f.name.text, 0⟩) (hparams : x.site.func.params = f.params.map formal)
    (hresult : x.site.func.result = Ty.ofData f.result) :
    Walks O ρ (bodyCode c f) x fun _ x' => ∀ ws : List (BitVec 32), ws.length = f.params.length →
      ∀ g n k, g.Executable → x'.site.func.Le g → x.body.Matches g [[]] k →
        k.args = ws.map .word → ∃ A, g.Tracks n k (Lands g none (x'.body.Matches g) A)
          (execs n f.body [(f.params.map fun p => p.name.text).zip ws]) := by
  obtain ⟨⟨hint, hps⟩, hbody⟩ : (f.result = .int ∧
      ∀ p ∈ f.params, p.storage ≠ .output ∧ p.type = .int) ∧
      areIntStmts [f.params.map fun p => p.name.text] f.body = true := by
    simpa [isIntFunc] using hf
  have hwithin : x.Within O ρ .int none :=
    ⟨hready.toSane, hρ, hx.sound, nofun, hint ▸ hresult⟩
  unfold bodyCode
  refine Walks.bind (simulates_bindParams f.params 0 hps hready hρ hid (by simpa using hparams) hx
    (by simp)) fun _ x₁ hgoes ⟨hready₁, hx₁, hargs⟩ => ?_
  have hmain : (decide (f.name.text = "main") && c.hasInit) = false := by
    simpa [startsAlone] using hc
  rw [hmain, hint]
  simp only [Bool.false_eq_true, if_false]
  rw [bindNames_cons] at hx₁
  refine (follows_stmts f.body hbody (by simp) (hwithin.goes hgoes) hx₁).weaken
    fun _ x' hgoes' hfollows ws hlen g n k hg hle hk hargs' =>
      ⟨fun k σ => Departs g x₁.scopes.inner.tail k σ.tail, ?_⟩
  have hstart := (hargs ws hlen).tracks (n := n) hg (hgoes'.le.trans hle) hk
    (by rw [List.drop_zero]; exact hargs')
  rw [bindArgs_cons] at hstart
  exact Func.Reaches.tracks hstart fun k' hk' => hfollows g n hg hle _ k' hk'.1

theorem local_startWalk {o : Options} {c : Context} {f : FuncDecl} (hc : ContextSound O c) :
    (startWalk o c f).enter.Local O [[]] := by
  have hfresh := (opened_startWalk o c f).fresh (d := (startWalk o c f).site.draft) rfl
  have hinner : (startWalk o c f).enter.scopes.inner = [[]] :=
    congrArg (List.cons []) hc.outermost
  refine ⟨hfresh.tidy, hfresh.numbered, (hc.scopes _).enter, ?_, ?_, ?_⟩
  · rw [hinner]
    rfl
  · intro frame hframe sym hsym
    rw [hinner, List.mem_singleton] at hframe
    rw [hframe] at hsym
    cases hsym
  · rw [hinner]
    exact List.nodup_nil

/-- Where the statements of a body end, the function returns zero. -/
theorem Written.step_end {o : Options} {c : Context} {f : FuncDecl} {r : Except Failure Unit}
    {y : Walk} {g : Func} {σ : Store} {k : Config} (h : Written O o c f r y g)
    (hint : f.result = .int) (hk : y.body.Matches g σ k) :
    g.step k = some (.inr (some (.word 0))) := by
  obtain ⟨l, b, b', hl, hb, hb', hblock, hrest⟩ := hk.here
  obtain ⟨⟨d, hd, ho⟩, -⟩ := h.goes.sane.point l hl
  obtain rfl := hb.unique hd
  have hend := h.ends l b hb ho
  obtain rfl := hb'.unique hend
  have hnil : k.rest = [] := hrest.trans List.drop_length
  have hterm : defaultResult f.result = some (.zero .int) := by simp [defaultResult, hint]
  have hblock? := h.finished.executable.tidy.block?_eq hend
  simp only [Func.step, hnil, hblock, hblock?, Option.bind_some, hterm, Func.follow, value_zero]
  rfl

/-- What a function returns when its statements have ended. -/
def returned? : Store × Ending → Option (Store × BitVec 32)
  | (σ, .done) => some (σ, 0)
  | (σ, .returned w) => some (σ, w)
  | _ => none

theorem yields_iff {f : FuncDecl} {ws : List (BitVec 32)} {w : BitVec 32} :
    Yields f ws w ↔ ∃ n σ, (execs n f.body
      [(f.params.map fun p => p.name.text).zip ws]).bind returned? = some (σ, w) := by
  refine exists_congr fun n => ?_
  simp only [Meaning.run, Option.bind_eq_bind]
  generalize execs n f.body _ = result
  rcases result with _ | ⟨σ, e⟩
  · simp
  · cases e <;> simp [returned?]

/-- The code of an integer function returns what its meaning yields. -/
theorem returns_lowerBody {o : Options} {c : Context} {f : FuncDecl} {g : Func}
    {bound : List (Name × DataType)} (hc : ContextSound O c) (hf : isIntFunc f = true)
    (hmain : startsAlone c f) (hg : lowerBody o c f = .ok (.ok (), g, bound))
    {ws : List (BitVec 32)} (hlen : ws.length = f.params.length) (v : Option Scalar) :
    g.Returns (ws.map .word) v ↔ ∃ w, v = some (.word w) ∧ Yields f ws w := by
  have hopened := opened_startWalk o c f
  have hint : f.result = .int := by
    simp only [isIntFunc, Bool.and_eq_true, decide_eq_true_eq] at hf
    exact hf.1.1
  have hbody := follows_bodyCode (x := (startWalk o c f).enter) hf hmain (ready_startWalk o c f)
    trivial (local_startWalk hc) hopened.id hopened.params hopened.result
  obtain ⟨r, y, g', h, hends⟩ := lowerBody_written hbody
  obtain ⟨rfl, rfl, -⟩ : r = .ok () ∧ g' = g ∧ y.body.bound = bound := by
    simpa using h.lowered.symm.trans hg
  have hexec := h.finished.executable
  -- from the start of the function to the start of the walk
  have hentry : (startWalk o c f).site.func.At ((declaration f).start []).1
      { label := ((declaration f).start []).1 } := hopened.at_iff.2 ⟨rfl, rfl⟩
  obtain ⟨e, he, -⟩ := (h.goes.le.trans h.le).blocks _ _ hentry
  obtain ⟨k₀, hk₀, hlaunch⟩ := hexec.reaches_launch he hopened.index (ws.map .word)
  have htracks : ∀ n, g'.Tracks n k₀ (fun _ w k => g'.step k = some (.inr (some (.word w))))
      ((execs n f.body [(f.params.map fun p => p.name.text).zip ws]).bind returned?) := by
    refine fun n => hlaunch.tracks fun k ⟨hhead, hhoused, hargs⟩ => ?_
    have hk : (startWalk o c f).enter.body.Matches g' [[]] k := by
      refine ⟨Draft.Starts.here ⟨rfl, _, hentry, rfl⟩ hhead, hhoused, ?_⟩
      change Stored g' k.memory ([] :: c.scopes.inner) [[]]
      rw [hc.outermost]
      exact .cons .nil .nil
    obtain ⟨A, htracks⟩ := hends ws hlen g' n k hexec h.le hk hargs
    refine htracks.bind fun σ e k' he => ?_
    cases e with
    | done => exact .here (h.step_end hint he)
    | returned w => exact .here he
    | broken =>
      obtain ⟨lp, hlp, -⟩ := he
      cases hlp
    | continued =>
      obtain ⟨lp, hlp, -⟩ := he
      cases hlp
  rw [Func.returns_iff hk₀ htracks]
  simp only [yields_iff]

/-! ## Programs -/

/-- In an accepted program, the code of every integer function that does not call the one that
computes the values of global variables returns what the meaning of the function yields, and
returns nothing if it yields nothing. -/
theorem returns_iff_yields {s : Source} {p : Program} {o : Options} {out : Outcome}
    (hparse : s.parse.program = some p) (hlower : lower o p = .ok out) (hok : out.problems = [])
    {f : FuncDecl} (hmem : f ∈ funcDecls p) (hf : isIntFunc f = true)
    (hmain : f.name.text = "main" → out.module.func? ⟨initName, 0⟩ = none) :
    ∃ g, out.module.func? ⟨f.name.text, 0⟩ = some g ∧
      ∀ ws : List (BitVec 32), ws.length = f.params.length → ∀ v,
        g.Returns (ws.map .word) v ↔ ∃ w, v = some (.word w) ∧ Yields f ws w := by
  obtain ⟨c, gs, values, hlowered⟩ := exists_lowered hparse hlower hok
  have hids := hlowered.nodup_ids (namesFree_of_parse hparse)
  obtain ⟨g, hg, hbody⟩ := hlowered.exists_body hmem
  have halone : startsAlone c f := by
    rintro ⟨hname, hinit⟩
    rw [hlowered.hasInit, Option.isSome_iff_exists] at hinit
    obtain ⟨h, rfl⟩ := hinit
    have hfound := Module.func?_eq hids (f := h) (by simp [hlowered.funcs])
    rw [(hlowered.init h rfl).1, hmain hname] at hfound
    cases hfound
  refine ⟨g, ?_, fun ws hlen v => ?_⟩
  · have hfound := Module.func?_eq hids (f := g) (by simp [hlowered.funcs, hg])
    rwa [hbody.id] at hfound
  · obtain ⟨r, bound, hrun⟩ := hbody.lowered
    obtain rfl := hlowered.succeeds f hmem r g bound hrun
    exact returns_lowerBody hlowered.context hf halone hrun hlen v

/-- A program with a function that adds up the integers below its argument, one of them left out. -/
def gappedSum : Source where
  bytes :=
    "int f(int a) { int s; while (a) { if ((a -= 1) == 3) continue; s += a; } return s; }"
      |>.toUTF8.toList

/-- For the argument five, the code of the sum returns seven. -/
theorem returns_gappedSum : ∃ p out g, gappedSum.parse.program = some p ∧ lower {} p = .ok out ∧
    out.module.func? ⟨"f", 0⟩ = some g ∧ g.Returns [.word 5] (some (.word 7)) := by
  have hreports : gappedSum.scan.reports = [] := scan_reports_eq_nil (by decide +kernel)
  obtain ⟨p, out, hparse, hlower, hok, htest⟩ :=
    exists_accepted (t := fun p _ => (funcDecls p).any fun f => f.name.text == "f" &&
      isIntFunc f && f.params.length == 1 && Meaning.run 10 f [5] == some 7)
      hreports (by decide +kernel)
  obtain ⟨f, hmem, hf⟩ := List.any_eq_true.1 htest
  simp only [Bool.and_eq_true, beq_iff_eq] at hf
  obtain ⟨⟨⟨hname, hint⟩, hparams⟩, hyields⟩ := hf
  have hmain : f.name.text ≠ "main" := by
    rw [hname]
    decide
  obtain ⟨g, hfound, hreturns⟩ := returns_iff_yields hparse hlower hok hmem hint
    fun h => absurd h hmain
  rw [hname] at hfound
  exact ⟨p, out, g, hparse, hlower, hfound,
    (hreturns [5] hparams.symm _).2 ⟨7, rfl, 10, hyields⟩⟩

end Shader.Lowering
