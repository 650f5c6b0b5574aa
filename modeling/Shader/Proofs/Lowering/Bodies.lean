import Shader.Lowering.Program
import Shader.Proofs.Ir.Pruning
import Shader.Proofs.Lowering.Statements

/-!
# Bodies of functions

A body is written from an open entry, and whatever is left open at the end returns. So the code of
every function comes about by steps of writing from a fresh site, and all of its blocks are ended:
it is finished. What the steps keep therefore holds of it: it is well formed and well typed, and
every use of a result is dominated by its definition.
-/

namespace Shader.Ir

/-! ## Finished functions -/

/-- Writing from the start of a function has led here. -/
def Site.Drafted (O : Outside) (s : Site) : Prop := ∃ s₀ : Site, s₀.Fresh ∧ Writes O .all s₀ s

/-- A function that has been written from its start, and has no open block. -/
structure Func.Finished (O : Outside) (f : Func) : Prop where
  /-- by steps of writing -/
  drafted : ∃ s : Site, s.Drafted O ∧ s.func = f
  /-- every block has a terminator -/
  closed : ∀ b ∈ f.blocks, ∃ t, b.term = some t

namespace Func.Finished

variable {O : Outside} {f : Func}

theorem outside {O' : Outside} (hO : O.Le O') (h : f.Finished O) : f.Finished O' := by
  obtain ⟨⟨s, ⟨s₀, hfresh, hw⟩, rfl⟩, hclosed⟩ := h
  exact ⟨⟨s, ⟨s₀, hfresh, Steps.outside hO hw⟩, rfl⟩, hclosed⟩

theorem tidy (h : f.Finished O) : f.Tidy := by
  obtain ⟨⟨s, ⟨s₀, hfresh, hw⟩, rfl⟩, -⟩ := h
  exact Steps.tidy hw hfresh.tidy

theorem wellFormed (h : f.Finished O) : f.WellFormed := by
  obtain ⟨⟨s, ⟨s₀, hfresh, hw⟩, rfl⟩, hclosed⟩ := h
  exact (Steps.shaped hw hfresh.tidy hfresh.shaped).wellFormed (Steps.tidy hw hfresh.tidy) hclosed

theorem regular (h : f.Finished O) : f.Regular := ⟨h.wellFormed, h.tidy.nodup_ownLabels⟩

theorem wellTyped (h : f.Finished O) : f.WellTyped O := by
  obtain ⟨⟨s, ⟨s₀, hfresh, hw⟩, rfl⟩, -⟩ := h
  exact Steps.wellTyped hw hfresh.tidy hfresh.wellTyped

theorem dominated (h : f.Finished O) : f.Dominated := by
  have hwell := h.wellTyped
  obtain ⟨⟨s, ⟨s₀, hfresh, hw⟩, rfl⟩, -⟩ := h
  have ht := hfresh.tidy
  exact (Steps.covered hw ht hfresh.shaped hfresh.covered).dominated (Steps.tidy hw ht)
    (Steps.numbered hw ht hfresh.numbered) (Steps.slotsFirst hw ht hfresh.slotsFirst) hwell

end Func.Finished

/-! ## The start of a function -/

/-- A function that is only declared. -/
structure Func.Declared (f : Func) : Prop where
  /-- it has no blocks -/
  blocks : f.blocks = []
  /-- none has been made -/
  labels : f.labels = 0
  /-- or taken out -/
  detached : f.detached = []
  /-- writing has not begun -/
  last : f.last = none
  /-- and no room has been reserved -/
  reserved : f.reserved = 0

/-- Names that are counted change nothing else. -/
theorem Func.foldl_countName (names : List String) (f : Func) :
    ∃ counts, names.foldl Func.countName f = { f with names := counts } := by
  induction names generalizing f with
  | nil => exact ⟨f.names, rfl⟩
  | cons name names ih =>
    obtain ⟨counts, hcounts⟩ := ih (f.countName name)
    exact ⟨counts, hcounts⟩

/-- What there is when writing starts: an empty entry. -/
structure Func.Opened (f : Func) (l : Label) (g : Func) : Prop where
  /-- it is the same function -/
  id : g.id = f.id
  /-- with the same result -/
  result : g.result = f.result
  /-- and the same parameters -/
  params : g.params = f.params
  /-- there is only the entry -/
  blocks : g.blocks = [{ label := l }]
  /-- it is the first block that was made -/
  labels : g.labels = 1
  /-- none has been taken out -/
  detached : g.detached = []
  /-- the entry belongs to the function -/
  func : l.func = f.id
  /-- and is its first block -/
  index : l.index = 0
  /-- no room has been reserved -/
  reserved : g.reserved = 0

theorem Func.Declared.start {f : Func} (h : f.Declared) :
    f.Opened (f.start []).1 (f.start []).2 := by
  obtain ⟨counts, hcounts⟩ := Func.foldl_countName (f.paramNames []) f
  constructor <;> simp [Func.start, h.last, hcounts, Func.addBlock, Func.claimName, Func.countName,
    h.blocks, h.labels, h.detached, h.reserved]

namespace Func.Opened

variable {f g : Func} {l : Label} {d : Draft}

theorem at_iff (h : f.Opened l g) {k : Label} {b : Block} :
    g.At k b ↔ k = l ∧ b = { label := l } := by
  rw [Func.At, h.blocks]
  constructor
  · rintro ⟨hget, rfl⟩
    obtain ⟨-, rfl⟩ := by simpa [List.getElem?_singleton] using hget
    exact ⟨rfl, rfl⟩
  · rintro ⟨rfl, rfl⟩
    exact ⟨by rw [h.index]; rfl, rfl⟩

theorem fresh (h : f.Opened l g) (hd : d.func = g) : Site.Fresh ⟨d, fun _ => ∅⟩ := by
  subst hd
  refine ⟨⟨?_, ?_, fun i b hb => ?_, h.detached⟩, fun k b hb => ?_, h.reserved, fun _ => rfl⟩
  · change d.func.blocks ≠ []
    simp [h.blocks]
  · change d.func.labels = d.func.blocks.length
    simp [h.blocks, h.labels]
  · change d.func.blocks[i]? = some b at hb
    rw [h.blocks] at hb
    obtain ⟨rfl, rfl⟩ := by simpa [List.getElem?_singleton] using hb
    exact ⟨h.func.trans h.id.symm, h.index⟩
  · obtain ⟨-, rfl⟩ := h.at_iff.1 hb
    exact ⟨rfl, rfl⟩

theorem ready (h : f.Opened l g) (hd : d.func = g) (hl : d.point = some l) :
    Site.Ready .all ⟨d, fun _ => ∅⟩ := by
  have hfresh := h.fresh hd
  refine ⟨⟨hfresh.tidy, hfresh.shaped, Nat.zero_le _, fun k hk => ?_⟩, l, hl⟩
  obtain rfl : l = k := Option.some.inj (hl.symm.trans hk)
  subst hd
  exact ⟨⟨_, h.at_iff.2 ⟨rfl, rfl⟩, rfl⟩, Realm.owns_all _⟩

end Func.Opened

/-! ## The end of a function -/

variable {O : Outside} {s : Site}

/-- The site with a block that returns. -/
def Site.returned (s : Site) (l : Label) (v : Option Value) : Site :=
  (s.moved (some l)).withFunc (s.func.close l (.ret v))

theorem Site.returned_run (ht : s.func.Tidy) {l : Label} {b : Block} (hb : s.func.At l b)
    (ho : b.term = none) (v : Option Value) :
    (Emit.setPoint (some l) >>= fun _ => Emit.ret v) s.draft = .ok ((), (s.returned l v).draft) :=
  Emit.terminate_run (s := s.moved (some l)) ht rfl hb ho

/-- A constant, or nothing, is returned from a block that was left open. -/
theorem Site.returned_writes {l : Label} {b : Block} (hb : s.func.At l b) (ho : b.term = none)
    {v : Option Value} (hty : (Term.ret v).WellTyped s.func.result)
    (hv : ∀ w ∈ v.toList, ∃ c, w = .const c) : Writes O .all s (s.returned l v) := by
  have hmove : Step O 0 none (fun _ => False) s (s.moved (some l)) := by
    refine .move s ?_
    rintro _ ⟨⟩
    exact ⟨.inl (Nat.zero_le _), b, hb, ho⟩
  refine .tail (.single hmove) (.close (s := s.moved (some l)) rfl hb ho (.inl (Nat.zero_le _)) hty
    (fun w hw => ?_) fun _ h => by cases h)
  obtain ⟨c, rfl⟩ := hv w hw
  exact ⟨trivial, fun _ h => by cases h⟩

/-- All blocks of a list return, and the others stay as they are. -/
theorem Site.returnAll {v : Option Value} (hv : ∀ w ∈ v.toList, ∃ c, w = .const c) :
    ∀ (ls : List Label) {s : Site}, s.func.Tidy → ls.Nodup →
      (∀ l ∈ ls, ∃ b, s.func.At l b ∧ b.term = none) → (Term.ret v).WellTyped s.func.result →
      ∃ s' : Site, (ls.forM fun l => do
          Emit.setPoint (some l)
          Emit.ret v) s.draft = .ok ((), s'.draft) ∧
        Writes O .all s s' ∧ (∀ l b, s'.func.At l b → b.term = none → l ∉ ls ∧ s.func.At l b) ∧
        ∀ l b, s.func.At l b →
          s'.func.At l (if l ∈ ls then { b with term := some (.ret v) } else b)
  | [], s, _, _, _, _ =>
    ⟨s, rfl, .refl, fun l b hb _ => ⟨by simp, hb⟩, fun l b hb => by simpa using hb⟩
  | l :: ls, s, ht, hnd, hopen, hty => by
    obtain ⟨hl, hnd⟩ := List.nodup_cons.1 hnd
    obtain ⟨b, hb, ho⟩ := hopen l List.mem_cons_self
    have hw := Site.returned_writes (O := O) hb ho hty hv
    have hopen' : ∀ k ∈ ls, ∃ b, (s.returned l v).func.At k b ∧ b.term = none := by
      intro k hk
      obtain ⟨c, hc, ho⟩ := hopen k (List.mem_cons_of_mem _ hk)
      have hne : k ≠ l := fun heq => hl (heq ▸ hk)
      exact ⟨c, (Func.at_close_ne hne).2 hc, ho⟩
    obtain ⟨s', hrun, hw', hrest, hends⟩ := Site.returnAll hv ls (Steps.tidy hw ht) hnd hopen' hty
    refine ⟨s', ?_, hw.trans hw', fun k c hc hco => ?_, fun k c hc => ?_⟩
    · change Except.bind ((Emit.setPoint (some l) >>= fun _ => Emit.ret v) s.draft) _ = _
      rw [Site.returned_run ht hb ho]
      exact hrun
    · obtain ⟨hk, hat⟩ := hrest k c hc hco
      have hne : k ≠ l := by
        rintro rfl
        rw [hat.unique (Func.at_close_self hb)] at hco
        cases hco
      exact ⟨fun hmem => (List.mem_cons.1 hmem).elim hne hk, (Func.at_close_ne hne).1 hat⟩
    · by_cases hkl : k = l
      · subst hkl
        obtain rfl := hc.unique hb
        have hend := hends k _ (Func.at_close_self hb)
        rw [if_neg hl] at hend
        rw [if_pos List.mem_cons_self]
        exact hend
      · have hend := hends k c ((Func.at_close_ne hkl).2 hc)
        simpa [hkl] using hend

end Shader.Ir

namespace Shader.Lowering

open Ir

/-- What a block returns that is left open at the end of a body. -/
def defaultResult (t : DataType) : Option Value := if t = .void then none else some (.zero t)

/-- At the end of a body no block is left open. -/
theorem closeBlocks_run {O : Outside} {s : Site} (ht : s.func.Tidy) {t : DataType}
    (hresult : s.func.result = Ty.ofData t) :
    ∃ s' : Site, closeBlocks t s.draft = .ok ((), s'.draft) ∧ Writes O .all s s' ∧
      (∀ b ∈ s'.func.blocks, ∃ term, b.term = some term) ∧
      ∀ l b, s.func.At l b → b.term = none →
        s'.func.At l { b with term := some (.ret (defaultResult t)) } := by
  have hty : (Term.ret (defaultResult t)).WellTyped s.func.result := by
    unfold defaultResult
    split
    next hvoid => rw [hresult, hvoid]; rfl
    next hvoid =>
      rw [hresult]
      exact ⟨Ty.ofData_ne_void hvoid, Value.type_zero t⟩
  have hconst : ∀ w ∈ (defaultResult t).toList, ∃ c, w = .const c := by
    intro w hw
    unfold defaultResult at hw
    split at hw
    · cases hw
    · exact ⟨_, List.mem_singleton.1 hw⟩
  -- the blocks that are open are known before any of them is ended
  let ls := (s.func.blocks.filter fun b => b.term.isNone).map Block.label
  have hmem : ∀ b : Block, b ∈ s.func.blocks → b.term = none → b.label ∈ ls := fun b hb ho =>
    List.mem_map.2 ⟨b, List.mem_filter.2 ⟨hb, by simp [ho]⟩, rfl⟩
  have hnd : ls.Nodup := ht.nodup_ownLabels.sublist (List.filter_sublist.map _)
  have hopen : ∀ l ∈ ls, ∃ b, s.func.At l b ∧ b.term = none := by
    intro l hl
    obtain ⟨b, hb, rfl⟩ := List.mem_map.1 hl
    obtain ⟨hmem, hnone⟩ := List.mem_filter.1 hb
    exact ⟨b, ht.at_of_mem hmem, Option.isNone_iff_eq_none.1 hnone⟩
  obtain ⟨s', hrun, hw, hrest, hends⟩ := Site.returnAll (O := O) hconst ls ht hnd hopen hty
  refine ⟨s', hrun, hw, fun b hb => ?_, fun l b hb ho => ?_⟩
  · rcases hterm : b.term with _ | term
    · -- a block that is open now was open before, and has returned since
      obtain ⟨hnot, hat⟩ := hrest b.label b ((Steps.tidy hw ht).at_of_mem hb) hterm
      exact absurd (hmem b hat.mem hterm) hnot
    · exact ⟨term, rfl⟩
  · have hend := hends l b hb
    rwa [if_pos (hb.2 ▸ hmem b hb.mem ho)] at hend

section

variable {O : Outside} {ρ : Realm} {x : Walk}

/-! ## Parameters -/

theorem type_formal (p : Param) : (formal p).type =
    if p.storage = .output then .pointer (Ty.ofData p.type) else Ty.ofData p.type := rfl

theorem walks_bindParams {id : FuncId} : ∀ (ps : List Param) (i : Nat) {x : Walk},
    x.site.Ready ρ → ρ.declares → x.site.func.id = id → x.site.func.params.drop i = ps.map formal →
    (∀ p ∈ ps, p.type ≠ .void) →
    Walks O ρ (bindParams id i ps) x fun _ x' => x'.site.Ready ρ
  | [], i, x, hx, _, _, _, _ => by
    unfold bindParams
    exact Walks.pure hx
  | p :: ps, i, x, hx, hρ, hid, hparams, hvoid => by
    unfold bindParams
    have hp : p.type ≠ .void := hvoid p List.mem_cons_self
    have hget : x.site.func.params[i]? = some (formal p) := by
      rw [← List.head?_drop, hparams]
      rfl
    have harg : x.site.Has O (.param id i p.name.text (formal p).type) (formal p).type :=
      ⟨rfl, ⟨hid.symm, hget⟩, fun _ h => by cases h⟩
    -- a declared parameter, and then the others
    have hrest : ∀ {x' : Walk} {addr : Value}, x.site.func.Le x'.site.func → x'.site.Ready ρ →
        SymbolSound O x'.site.func ⟨p.name.text, p.type, addr, false⟩ →
        Walks O ρ (do declare p.name p.type addr false; bindParams id (i + 1) ps) x' fun _ x'' =>
          x''.site.Ready ρ := by
      intro x' addr hle hx' hsym
      refine Walks.bind (walks_declare hx' hρ hsym) fun _ x'' _ ⟨hsite, _⟩ => ?_
      refine walks_bindParams ps (i + 1) ?_ hρ ?_ ?_ fun q hq => hvoid q (List.mem_cons_of_mem _ hq)
      · rw [hsite]
        exact hx'
      · rw [hsite]
        exact hle.id.trans hid
      · rw [hsite, hle.params, ← List.drop_drop, hparams]
        rfl
    dsimp only
    split
    next hout =>
      refine hrest (.refl _) hx ⟨hp, ?_, harg.known, fun _ h => by cases h⟩
      exact (type_formal p).trans (if_pos hout)
    next hout =>
      have htype : (formal p).type = Ty.ofData p.type := (type_formal p).trans (if_neg hout)
      rw [htype] at harg ⊢
      -- any other parameter is copied to a variable of its own
      have hroom : Emits O ρ (do
          let addr ← Emit.alloca p.type p.name.text
          Emit.store (.param id i p.name.text (Ty.ofData p.type)) addr
          return addr) x.site fun addr s' =>
            SymbolSound O s'.func ⟨p.name.text, p.type, addr, false⟩ := by
        refine Emits.bind (Emits.alloca p.name.text hp) fun addr s₁ h₁ ⟨haddr, hreg, hslot, _⟩ => ?_
        refine Emits.bind (Emits.store (Ty.ofData_ne_void hp) (h₁.has harg) haddr)
          fun _ s₂ h₂ _ => ?_
        refine Emits.pure ⟨hp, haddr.type, (h₂.has haddr).known, fun r hr => ?_⟩
        obtain rfl := Option.some.inj (hreg.symm.trans hr)
        exact hslot.mono h₂.le
      exact Walks.bind (Lowers.emit hroom hx) fun addr x' hgoes ⟨hlead, hsym⟩ =>
        hrest hgoes.le hlead.site.ready hsym

/-! ## Bodies -/

/-- What the bodies of functions rely on. -/
structure ContextSound (O : Outside) (c : Context) : Prop where
  /-- functions are called as they are declared -/
  sigs : SignaturesSound O c.sigs
  /-- global variables have room -/
  scopes : ∀ f : Func, ScopesSound O f c.scopes
  /-- no block is open -/
  outermost : c.scopes.inner = []
  /-- the values of global variables are computed by a function without parameters -/
  init : c.hasInit = true → O.sigs ⟨initName, 0⟩ = some (.void, [])

theorem ContextSound.outside {O' : Outside} (hO : O.Le O') {c : Context} (h : ContextSound O c) :
    ContextSound O' c where
  sigs := fun name sig hsig => hO.sigs _ _ (h.sigs name sig hsig)
  scopes := fun f frame hframe sym hsym =>
    have hsound := h.scopes f frame hframe sym hsym
    ⟨hsound.noVoid, hsound.type, hsound.known.outside hO, hsound.slot⟩
  outermost := h.outermost
  init := fun hinit => hO.sigs _ _ (h.init hinit)

theorem walks_bodyCode {c : Context} {f : FuncDecl} (hc : ContextSound O c)
    (hready : x.site.Ready ρ) (hρ : ρ.declares) (hσ : ScopesSound O x.site.func x.scopes)
    (hid : x.site.func.id = ⟨f.name.text, 0⟩) (hparams : x.site.func.params = f.params.map formal)
    (hresult : x.site.func.result = Ty.ofData f.result) (hvoid : ∀ p ∈ f.params, p.type ≠ .void) :
    Walks O ρ (bodyCode c f) x fun _ _ => True := by
  have hx : x.Within O ρ f.result none := ⟨hready.toSane, hρ, hσ, nofun, hresult⟩
  unfold bodyCode
  refine Walks.bind (walks_bindParams f.params 0 hready hρ hid (by simpa using hparams) hvoid)
    fun _ x₁ hgoes₁ hready₁ => ?_
  have hx₁ := hx.goes hgoes₁
  dsimp only
  split
  next hmain =>
    have hinit : c.hasInit = true := by simp at hmain; exact hmain.2
    have hcall : Emits O ρ (Emit.call ⟨initName, 0⟩ .void []) x₁.site
        fun v s' => s'.Has O v .void :=
      Emits.append rfl rfl (hc.init hinit) rfl fun _ h => by cases h
    rw [discard_bind]
    exact Walks.bind (Lowers.emit hcall hready₁) fun _ x₂ hgoes₂ _ =>
      walks_stmts hc.sigs f.body (hx₁.goes hgoes₂)
  next => exact walks_stmts hc.sigs f.body hx₁

theorem declared_declaration (f : FuncDecl) : (declaration f).Declared := ⟨rfl, rfl, rfl, rfl, rfl⟩

/-- The function that computes the values of global variables, before anything is written. -/
def initFunc : Func := { id := ⟨initName, 0⟩, result := .void, params := [] }

theorem declared_initFunc : initFunc.Declared := ⟨rfl, rfl, rfl, rfl, rfl⟩

/-- The walk over a body starts at an empty entry, with the global variables in scope. -/
def startWalk (o : Options) (c : Context) (f : FuncDecl) : Walk :=
  ⟨{ draft := startDraft o (declaration f), scopes := c.scopes }, fun _ => ∅⟩

theorem opened_startWalk (o : Options) (c : Context) (f : FuncDecl) :
    (declaration f).Opened ((declaration f).start []).1 (startWalk o c f).site.func :=
  (declared_declaration f).start

theorem ready_startWalk (o : Options) (c : Context) (f : FuncDecl) :
    (startWalk o c f).site.Ready .all :=
  (opened_startWalk o c f).ready rfl rfl

/-- The code of a function, from the end of the walk over its body. -/
structure Written (O : Outside) (o : Options) (c : Context) (f : FuncDecl)
    (r : Except Failure Unit) (y : Walk) (g : Func) : Prop where
  /-- it is what lowering makes of the body -/
  lowered : lowerBody o c f = .ok (r, g, y.body.bound)
  /-- the walk leads from the start to the end -/
  goes : (startWalk o c f).enter.Goes O .all y
  /-- the code is finished -/
  finished : g.Finished O
  /-- what the walk has written is there -/
  le : y.site.func.Le g
  /-- the blocks that it left open return -/
  ends : ∀ l b, y.site.func.At l b → b.term = none →
    g.At l { b with term := some (.ret (defaultResult f.result)) }

/-- Lowering of a body comes to an end if the walk over it does. -/
theorem lowerBody_written {o : Options} {c : Context} {f : FuncDecl} {P : Unit → Walk → Prop}
    (hbody : Walks O .all (bodyCode c f) (startWalk o c f).enter P) :
    ∃ r y g, Written O o c f r y g ∧ Ends .all P r y := by
  have hopened := opened_startWalk o c f
  obtain ⟨r, y, hrun, hgoes, hr⟩ := hbody (ready_startWalk o c f).toSane
  obtain ⟨s', hclose, hw, hclosed, hends⟩ := closeBlocks_run (O := O) (s := y.site)
    hgoes.sane.tidy (hgoes.le.result.trans hopened.result)
  refine ⟨r, y, s'.func, ⟨?_, hgoes, ⟨⟨s', ⟨(startWalk o c f).site, hopened.fresh rfl,
    hgoes.writes.trans hw⟩, rfl⟩, hclosed⟩, Steps.le hw, hends⟩, hr⟩
  change Except.bind ((inScope (bodyCode c f)).run (startWalk o c f).body) _ = _
  rw [inScope_run hrun hgoes]
  change Except.bind (closeBlocks f.result y.site.draft) _ = _
  rw [hclose]
  rfl

theorem Written.declared {o : Options} {c : Context} {f : FuncDecl} {r : Except Failure Unit}
    {y : Walk} {g : Func} (h : Written O o c f r y g) : (declaration f).id = g.id ∧
      (declaration f).result = g.result ∧ (declaration f).params = g.params := by
  have hopened := opened_startWalk o c f
  have hle : (startWalk o c f).site.func.Le g := h.goes.le.trans h.le
  exact ⟨(hle.id.trans hopened.id).symm, (hle.result.trans hopened.result).symm,
    (hle.params.trans hopened.params).symm⟩

/-- The code of a function is finished, also if its body fails. -/
theorem lowerBody_finished {o : Options} {c : Context} {f : FuncDecl} (hc : ContextSound O c)
    (hvoid : ∀ p ∈ f.params, p.type ≠ .void) :
    ∃ r g bound, lowerBody o c f = .ok (r, g, bound) ∧ g.Finished O ∧ (declaration f).id = g.id ∧
      (declaration f).result = g.result ∧ (declaration f).params = g.params := by
  have hopened := opened_startWalk o c f
  have hbody : Walks O .all (bodyCode c f) (startWalk o c f).enter fun _ _ => True :=
    walks_bodyCode hc (ready_startWalk o c f) trivial (hc.scopes _).enter hopened.id
      hopened.params hopened.result hvoid
  obtain ⟨r, y, g, h, -⟩ := lowerBody_written hbody
  exact ⟨r, g, _, h.lowered, h.finished, h.declared⟩

end

end Shader.Lowering
