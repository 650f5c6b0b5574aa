import Shader.Proofs.Lowering.Bodies
import Shader.Proofs.Lowering.Rounds

/-!
# Programs

The rounds over the definitions of a program, in the order in which they are made. Global variables
are declared one after another, and what is computed for one may use those before it; meanwhile the
function that computes their values is left and gone back to. After that, the code of functions can
refer to all of them, and to all functions by their signatures.

`lower_coded` says that lowering meets no fault, and that all functions are finished if no problem
ends the work, but for the one that computes the values of global variables: it is finished if no
block was made for a value that failed. `lower_finished` is the case of a program without problems.
-/

namespace Shader.Lowering

open Ir

/-! ## What code can refer to -/

/-- What the functions of a program can refer to, once some global variables are declared. -/
def outsideOf (declared : List FuncDecl) (globals : List Global) (hasInit : Bool) : Outside where
  globals
  sigs := fun id =>
    if id = ⟨initName, 0⟩ then (if hasInit then some (.void, []) else none)
    else (declared.find? fun f => (declaration f).id = id).map fun f =>
      ((declaration f).result, (declaration f).params.map Formal.type)

theorem outsideOf_le {declared : List FuncDecl} {globals globals' : List Global}
    {hasInit hasInit' : Bool} (hglobals : ∀ g ∈ globals, g ∈ globals')
    (hinit : hasInit = true → hasInit' = true) :
    (outsideOf declared globals hasInit).Le (outsideOf declared globals' hasInit') where
  globals := hglobals
  sigs := fun id sig h => by
    simp only [outsideOf] at h ⊢
    by_cases hid : id = ⟨initName, 0⟩
    · rw [if_pos hid] at h ⊢
      split at h
      next hhas =>
        rw [if_pos (hinit hhas)]
        exact h
      next => cases h
    · rw [if_neg hid] at h ⊢
      exact h

/-- No function has the name of the one that computes the values of global variables. -/
def NamesFree (declared : List FuncDecl) : Prop := ∀ f ∈ declared, f.name.text ≠ initName

theorem signatures_sound {declared : List FuncDecl} {globals : List Global} {hasInit : Bool}
    (hfree : NamesFree declared) :
    SignaturesSound (outsideOf declared globals hasInit) (signatures declared) := by
  intro name sig hsig
  obtain ⟨f, hfind, rfl⟩ := Option.map_eq_some_iff.1 hsig
  have hname : f.name.text = name := by simpa using List.find?_some hfind
  have hne : (⟨f.name.text, 0⟩ : FuncId) ≠ ⟨initName, 0⟩ := fun heq =>
    hfree f (List.mem_of_find?_eq_some hfind) (congrArg FuncId.name heq)
  have hfind' : declared.find? (fun g => (declaration g).id = ⟨f.name.text, 0⟩) = some f := by
    rw [hname, ← hfind]
    congr 1
    funext g
    simp [declaration]
  have hparams : (declaration f).params.map Formal.type =
      (f.params.map passing).map Passing.ty := by
    simp [declaration, formal, passing, Passing.ty]
  simp only [outsideOf, signatureOf, if_neg hne, hfind', Option.map_some, hparams]
  rfl

/-! ## Global variables -/

theorem Has.outside {O O' : Outside} (hO : O.Le O') {s : Site} {v : Value} {τ : Ty}
    (h : s.Has O v τ) : s.Has O' v τ :=
  ⟨h.type, h.known.outside hO, h.offered⟩

theorem Operand.Sound.outside {O O' : Outside} (hO : O.Le O') {s : Site} {a : Operand}
    (ha : a.Sound O s) : a.Sound O' s := by
  cases a with
  | nothing pos => trivial
  | value pos t v => exact ⟨ha.1, Has.outside hO ha.2⟩
  | place pos t addr name isConst => exact ⟨ha.1, Has.outside hO ha.2⟩
  | lane pos c n addr idx name isConst => exact ⟨Has.outside hO ha.1, Has.outside hO ha.2⟩

/-- Everything may be done but to declare variables. -/
def noLocals : Realm := { Realm.all with declares := False }

/-- The site at which the values of global variables are computed. -/
structure InitAt (O : Outside) (clean : Prop) (s : Site) : Prop where
  /-- it has been written from the start -/
  drafted : s.Drafted O
  /-- writing can go on -/
  ready : s.Ready noLocals
  /-- as long as nothing goes wrong, no other block is left open -/
  closed : clean → ∀ l, ¬ s.Idle l
  /-- the function has its name -/
  id : s.func.id = ⟨initName, 0⟩
  /-- no result -/
  result : s.func.result = .void
  /-- and no parameters -/
  params : s.func.params = []

theorem InitAt.outside {O O' : Outside} {clean clean' : Prop} {s : Site} (h : InitAt O clean s)
    (hO : O.Le O') (hclean : clean' → clean) : InitAt O' clean' s := by
  obtain ⟨s₀, hfresh, hw⟩ := h.drafted
  exact ⟨⟨s₀, hfresh, Steps.outside hO hw⟩, h.ready, fun hc => h.closed (hclean hc), h.id, h.result,
    h.params⟩

theorem InitAt.writes {O : Outside} {clean clean' : Prop} {s s' : Site} (h : InitAt O clean s)
    (hw : Writes O noLocals s s') (hready : s'.Ready noLocals)
    (hclosed : clean' → ∀ l, ¬ s'.Idle l) :
    InitAt O clean' s' := by
  obtain ⟨s₀, hfresh, hw₀⟩ := h.drafted
  have hle : s.func.Le s'.func := Steps.le hw
  exact ⟨⟨s₀, hfresh, hw₀.trans hw⟩, hready, hclosed, hle.id.trans h.id, hle.result.trans h.result,
    hle.params.trans h.params⟩

/-- Every name in scope is that of a global variable, and the function that computes their values
can be written on. -/
structure GlobalsSound (declared : List FuncDecl) (o : Options) (clean : Prop) (g : Globals) :
    Prop where
  /-- a name refers to a variable of its type -/
  scopes : ∀ frame ∈ g.scopes.frames, ∀ sym ∈ frame,
    sym.type ≠ .void ∧ ∃ v ∈ g.globals, v.type = sym.type ∧ sym.handle = v.addr
  /-- no block is open -/
  outermost : g.scopes.inner = []
  /-- writing can go on in the function that computes their values -/
  init : ∃ s : Site, s.draft = g.initDraft o ∧
    InitAt (outsideOf declared g.globals false) clean s

section

variable {declared : List FuncDecl} {g : Globals} {o : Options} {clean : Prop}

theorem GlobalsSound.scopesSound (h : GlobalsSound declared o clean g) {O : Outside}
    (hO : ∀ v ∈ g.globals, v ∈ O.globals) (f : Func) : ScopesSound O f g.scopes := by
  intro frame hframe sym hsym
  obtain ⟨hvoid, v, hv, htype, hhandle⟩ := h.scopes frame hframe sym hsym
  refine ⟨hvoid, ?_, ?_, ?_⟩ <;> rw [hhandle]
  · rw [← htype]
    rfl
  · exact ⟨v, hO v hv, rfl, rfl⟩
  · exact fun _ hr => by cases hr

theorem GlobalsSound.weaken {clean' : Prop} (h : GlobalsSound declared o clean g)
    (hclean : clean' → clean) : GlobalsSound declared o clean' g := by
  obtain ⟨s, hs, hat⟩ := h.init
  exact ⟨h.scopes, h.outermost, s, hs, hat.outside (.refl _) hclean⟩

/-- Before any variable is declared. -/
theorem GlobalsSound.start (bound : List (Name × DataType)) :
    GlobalsSound declared o clean { bound } where
  scopes := fun frame hframe sym hsym => by
    obtain rfl := List.mem_singleton.1 hframe
    cases hsym
  outermost := rfl
  init := by
    have hopened := declared_initFunc.start
    have hready := hopened.ready (d := startDraft o initFunc) rfl rfl
    refine ⟨⟨startDraft o initFunc, fun _ => ∅⟩, rfl, ⟨_, hopened.fresh rfl, .refl⟩, ?_, ?_,
      hopened.id, hopened.result, hopened.params⟩
    · exact ⟨⟨hready.tidy, hready.shaped, hready.first, hready.point⟩, hready.there⟩
    · rintro - l ⟨b, hb, -, hl⟩
      obtain ⟨rfl, -⟩ := hopened.at_iff.1 hb
      exact hl rfl

/-- Where no block is made, none is left open. -/
theorem InitAt.straight {O : Outside} {s s' : Site} (h : InitAt O clean s)
    (hw : Writes O noLocals s s') (hready : s'.Ready noLocals)
    (hlabels : s'.func.labels = s.func.labels) (hclean : clean) (l : Label) : ¬ s'.Idle l := by
  -- a block that is open now was open before, so it was the one at the point
  have hpoint : ∀ {k b}, s'.func.At k b → b.term = none → s.point = some k := by
    intro k b hb ho
    have hlt : k.index < s.func.blocks.length := by
      rw [← h.ready.tidy.count, ← hlabels, hready.tidy.count]
      exact hb.lt
    have hold := h.ready.tidy.at_of_getElem? (List.getElem?_eq_getElem hlt)
    obtain ⟨b', hb', hle⟩ := (Steps.le hw).blocks _ _ hold
    have hindex := (h.ready.tidy.label _ _ (List.getElem?_eq_getElem hlt)).2
    obtain rfl : b = b' := by
      have hsame := hb'.1
      rw [hindex] at hsame
      exact Option.some.inj (hb.1.symm.trans hsame)
    have hk : s.func.blocks[k.index].label = k := hle.label.symm.trans hb.2
    rw [hk] at hold
    rcases hterm : s.func.blocks[k.index].term with _ | t
    · exact not_not.1 fun hne => h.closed hclean k ⟨_, hold, hterm, hne⟩
    · rw [(hle.closed t hterm).1] at ho
      cases ho
  rintro ⟨b, hb, ho, hl⟩
  obtain ⟨k, c, hk, hc, hco, -⟩ := hready.isOpen
  have heq : some k = some l := (hpoint hc hco).symm.trans (hpoint hb ho)
  exact hl (hk.trans heq)

/-- The function has as many blocks as before. -/
abbrev SameBlocks (b b' : Body) : Prop := b'.draft.func.labels = b.draft.func.labels

/-- A walk in the function that computes the values of global variables. If it fails, no block is
left open as long as none is made. -/
theorem GlobalsSound.walk {α : Type} {O : Outside} {act : Lower α} {P : α → Walk → Prop} {s : Site}
    (hs : s.draft = g.initDraft o) (hat : InitAt O clean s)
    (hact : Lowers O noLocals act ⟨⟨g.initDraft o, g.scopes, g.bound⟩, s.given⟩ P) :
    ∃ r x', g.walk o act = .ok (r, { g with init := some x'.site.draft, bound := x'.body.bound }) ∧
      InitAt O (clean ∧ ((∃ a, r = .ok a) ∨ Frames SameBlocks act)) x'.site ∧
      ∀ a, r = .ok a → P a x' := by
  obtain ⟨d, given⟩ := s
  obtain rfl : d = g.initDraft o := hs
  obtain ⟨r, x', hrun, hgoes, hends⟩ := hact hat.ready hat.ready.toSane
  have hscopes : x'.body.scopes = g.scopes := hgoes.scopes_eq id
  have hwalk : g.walk o act =
      .ok (r, { g with init := some x'.site.draft, bound := x'.body.bound }) := by
    change Except.bind (act.run ⟨g.initDraft o, g.scopes, g.bound⟩) _ = _
    rw [hrun]
    simp only [Except.bind, hscopes]
    rfl
  cases r with
  | error e =>
    refine ⟨_, x', hwalk, hat.writes hgoes.writes hends ?_, fun _ h => by cases h⟩
    rintro ⟨hclean, ⟨a, ha⟩ | hsame⟩
    · cases ha
    · exact hat.straight hgoes.writes hends (hsame _ _ _ hrun) hclean
  | ok a =>
    refine ⟨_, x', hwalk, hat.writes hgoes.writes hends.1.site.ready ?_, ?_⟩
    · rintro ⟨hclean, -⟩ l hl
      exact hat.closed hclean l (hends.1.site.closed l hl)
    · rintro _ ⟨⟩
      exact hends.2

/-- Another variable is declared, unless its name is in scope already. -/
theorem GlobalsSound.declare (h : GlobalsSound declared o clean g) {v : GlobalVar}
    (hvoid : v.var.type ≠ .void) :
    GlobalsSound declared o clean (g.declare v).2 ∧ (g.declare v).2.init = g.init ∧
      (∀ x ∈ g.globals, x ∈ (g.declare v).2.globals) ∧
      ∀ addr, (g.declare v).1 = .ok addr →
        ∃ x ∈ (g.declare v).2.globals, x.type = v.var.type ∧ addr = x.addr := by
  let x : Global := g.entry v
  let sym : Symbol DataType Value := g.symbol v
  have hold : ∀ y ∈ g.globals, y ∈ g.globals ++ [x] := fun y hy => List.mem_append_left _ hy
  have hnew : x ∈ g.globals ++ [x] := List.mem_append_right _ (List.mem_singleton.2 rfl)
  obtain ⟨s, hs, hat⟩ := h.init
  -- another global only adds to what stands outside of the function
  have hat' : InitAt (outsideOf declared (g.globals ++ [x]) false) clean s :=
    hat.outside (outsideOf_le hold id) id
  have hscopes : ∀ frame ∈ g.scopes.frames, ∀ sym ∈ frame,
      sym.type ≠ .void ∧ ∃ v ∈ g.globals ++ [x], v.type = sym.type ∧ sym.handle = v.addr := by
    intro frame hframe sym hsym
    obtain ⟨hvoid, y, hy, htype⟩ := h.scopes frame hframe sym hsym
    exact ⟨hvoid, y, hold y hy, htype⟩
  obtain ⟨earlier, -, heq⟩ | ⟨σ, hdecl, heq⟩ := g.declare_cases v
  · rw [heq]
    exact ⟨⟨hscopes, h.outermost, s, hs, hat'⟩, rfl, hold, fun _ h => by cases h⟩
  · rw [heq]
    have hσ : g.scopes.Extends (fun s => s = sym) σ := by
      unfold Scopes.declare at hdecl
      split at hdecl
      · cases hdecl
      · exact ⟨[sym], (Except.ok.inj hdecl).symm, by simp⟩
    refine ⟨⟨fun frame hframe sym' hsym' => ?_, ?_, s, hs, hat'⟩, rfl, hold, ?_⟩
    · rcases hσ.mem hframe hsym' with ⟨frame', hframe', hmem⟩ | rfl
      · exact hscopes frame' hframe' sym' hmem
      · exact ⟨hvoid, x, hnew, rfl, rfl⟩
    · obtain ⟨more, rfl, -⟩ := hσ
      simp [Scopes.setTop, h.outermost]
    · rintro _ ⟨⟩
      exact ⟨x, hnew, rfl, rfl⟩

/-- The value of a variable that has just been declared. -/
theorem lowers_initStore {O : Outside} {ρ : Realm} {x : Walk} {operand : Operand} {t : DataType}
    {v : Global} (hoperand : operand.Sound O x.site) (hv : v ∈ O.globals) (ht : v.type = t) :
    Lowers O ρ (do
      let value ← initialValue t operand
      emit (Emit.store value v.addr)) x fun _ _ => True := by
  refine Lowers.bind (Lowers.initialValue hoperand) fun value x' _ hvalue => ?_
  refine Lowers.emit (Emits.store (Ty.ofData_ne_void hvalue.1) hvalue.2 ⟨?_, ?_, ?_⟩)
  · rw [← ht]
    rfl
  · exact ⟨v, hv, rfl, rfl⟩
  · exact fun _ h => by cases h

/-- Every part of the value of a variable is evaluated. -/
def hasStraightValue (v : GlobalVar) : Prop := ∀ x, v.var.init = some x → isStraight x = true

/-- A variable and its value. -/
theorem GlobalsSound.add (hfree : NamesFree declared) (h : GlobalsSound declared o clean g)
    (v : GlobalVar) :
    ∃ r g', g.add (signatures declared) o v = .ok (r, g') ∧
      GlobalsSound declared o (clean ∧ (r = .ok () ∨ hasStraightValue v)) g' := by
  unfold Globals.add
  dsimp only
  rcases hbad : badGlobal? v with _ | failure
  swap
  · exact ⟨_, _, rfl, h.weaken And.left⟩
  have hvoid : v.var.type ≠ .void := by
    intro hvoid
    simp [badGlobal?, hvoid] at hbad
  dsimp only
  split
  · obtain ⟨s, hs, hat⟩ := h.init
    exact ⟨_, _, rfl, h.scopes, h.outermost, s, hs, hat.outside (.refl _) And.left⟩
  rcases hinit : v.var.init with _ | e
  · exact ⟨_, _, rfl, (h.declare hvoid).1.weaken And.left⟩
  · dsimp only
    obtain ⟨s, hs, hat⟩ := h.init
    obtain ⟨d, given⟩ := s
    obtain rfl : d = g.initDraft o := hs
    have hΓ : SignaturesSound (outsideOf declared g.globals false) (signatures declared) :=
      signatures_sound hfree
    have hexpr := lowers_expr hΓ e
      (ρ := noLocals) (x := ⟨⟨g.initDraft o, g.scopes, g.bound⟩, given⟩)
      (h.scopesSound (fun _ h => h) _)
    obtain ⟨r, x₁, hwalk, hat₁, hr⟩ := GlobalsSound.walk rfl hat hexpr
    -- the name of the variable comes into scope after its value is resolved
    let g₁ : Globals := { g with init := some x₁.site.draft, bound := x₁.body.bound }
    have h₁ : GlobalsSound declared o (clean ∧ ((∃ a, r = .ok a) ∨ Frames SameBlocks _)) g₁ :=
      ⟨h.scopes, h.outermost, x₁.site, rfl, hat₁⟩
    have hstraight : hasStraightValue v → Frames SameBlocks (expr (signatures declared) e) :=
      fun hv => labels_expr (hv e hinit)
    obtain ⟨h₂, hinit₂, hglobals, haddr⟩ := h₁.declare hvoid
    change ∃ r g', Except.bind (g.walk o (expr (signatures declared) e)) _ = .ok (r, g') ∧ _
    rw [hwalk]
    dsimp only [Except.bind]
    rcases hdecl : g₁.declare v with ⟨declared?, g₂⟩
    rw [hdecl] at h₂ hinit₂ hglobals haddr
    rcases declared? with failure | addr
    · exact ⟨_, _, rfl, h₂.weaken fun hc => ⟨hc.1, .inr (hstraight (hc.2.resolve_left nofun))⟩⟩
    rcases r with failure | operand
    · exact ⟨_, _, rfl, h₂.weaken fun hc => ⟨hc.1, .inr (hstraight (hc.2.resolve_left nofun))⟩⟩
    obtain ⟨x, hx, htype, rfl⟩ := haddr addr rfl
    have hO : (outsideOf declared g.globals false).Le (outsideOf declared g₂.globals false) :=
      outsideOf_le hglobals id
    have hat₂ := hat₁.outside hO fun hc : clean => ⟨hc, .inl ⟨operand, rfl⟩⟩
    have hs₂ : x₁.site.draft = g₂.initDraft o := by
      rw [Globals.initDraft, hinit₂]
      rfl
    have hoperand : operand.Sound (outsideOf declared g₂.globals false) x₁.site :=
      (hr operand rfl).outside hO
    have hsite : (⟨g₂.initDraft o, x₁.site.given⟩ : Site) = x₁.site := by rw [← hs₂]
    rw [← hsite] at hoperand
    obtain ⟨r', x₂, hwalk₂, hat₃, -⟩ := GlobalsSound.walk (g := g₂) hs₂ hat₂
      (lowers_initStore hoperand hx htype)
    refine ⟨r', _, hwalk₂, h₂.scopes, h₂.outermost, x₂.site, rfl, hat₃.outside (.refl _) ?_⟩
    exact fun hc => ⟨hc.1, .inr (frames_initStore framing_labels)⟩

/-- Every part of the value of each variable that has a problem is evaluated. -/
def FailStraight (vs : List GlobalVar) (problems : List Problem) : Prop :=
  ∀ v ∈ vs, (∃ failure, ⟨.global v.var.name.text, failure⟩ ∈ problems) → hasStraightValue v

theorem GlobalsSound.addGlobals (hfree : NamesFree declared) : ∀ (vs : List GlobalVar)
    (problems : List Problem) {clean : Prop} {g : Globals}, GlobalsSound declared o clean g →
    ∃ g' problems', addGlobals (signatures declared) o g problems vs = .ok (g', problems') ∧
      GlobalsSound declared o (clean ∧ FailStraight vs problems') g' ∧ problems <+: problems'
  | [], problems, clean, g, h => ⟨g, problems, rfl, h.weaken And.left, List.prefix_rfl⟩
  | v :: vs, problems, clean, g, h => by
    unfold Lowering.addGlobals
    split
    · obtain ⟨r, g₁, hadd, h₁⟩ := h.add hfree v
      obtain ⟨g', problems', hrun, h', hprefix⟩ := GlobalsSound.addGlobals hfree vs
        (problems ++ noted (.global v.var.name.text) r) h₁
      refine ⟨g', problems', ?_, h'.weaken ?_, (List.prefix_append _ _).trans hprefix⟩
      · change Except.bind (g.add (signatures declared) o v) _ = _
        rw [hadd]
        rcases r with failure | ⟨⟩
        · exact hrun
        · rw [noted, List.append_nil] at hrun
          exact hrun
      · rintro ⟨hclean, hfail⟩
        refine ⟨⟨hclean, ?_⟩, fun w hw => hfail w (List.mem_cons_of_mem _ hw)⟩
        rcases r with failure | ⟨⟩
        · refine .inr (hfail v List.mem_cons_self ⟨failure, hprefix.subset ?_⟩)
          exact List.mem_append_right _ List.mem_cons_self
        · exact .inl rfl
    · exact ⟨g, problems, rfl, h.weaken And.left, List.prefix_rfl⟩

theorem GlobalsSound.synthesize (h : GlobalsSound declared o clean g) :
    GlobalsSound declared o clean (g.synthesize o) := by
  unfold Globals.synthesize
  split
  · obtain ⟨h', hinit, -⟩ := h.declare (v := implicitPosition) (by decide)
    obtain ⟨s, hs, hat⟩ := h'.init
    refine ⟨h'.scopes, h'.outermost, s, ?_, hat⟩
    rw [hs, Globals.initDraft, hinit]
    rfl
  · exact h

/-- The function that computes the values of global variables is finished if nothing went wrong. -/
theorem GlobalsSound.finish (h : GlobalsSound declared o clean g) :
    ∃ g', g.finish = .ok g' ∧ g'.globals = g.globals ∧ g'.scopes = g.scopes ∧
      g'.init.isSome = g.init.isSome ∧ ∀ d, g'.init = some d →
        d.func.id = ⟨initName, 0⟩ ∧ d.func.result = .void ∧ d.func.params = [] ∧
        (clean → d.func.Finished (outsideOf declared g.globals false)) := by
  unfold Globals.finish
  rcases hinit : g.init with _ | d
  · refine ⟨g, rfl, rfl, rfl, by rw [hinit], fun d hd => ?_⟩
    rw [hinit] at hd
    cases hd
  obtain ⟨s, hs, hat⟩ := h.init
  obtain rfl : s.draft = d := by rw [hs, Globals.initDraft, hinit]; rfl
  obtain ⟨l, b, hl, hb, ho, hown⟩ := hat.ready.isOpen
  have hret : Emit.ret none s.draft = .ok ((), (s.withFunc (s.func.close l (.ret none))).draft) :=
    Emit.terminate_run hat.ready.tidy hl hb ho
  -- the return ends the block of the point, and no other is open if nothing went wrong
  have hstep : Ir.Step (outsideOf declared g.globals false) 0 none (fun _ => False) s
      (s.withFunc (s.func.close l (.ret none))) :=
    hat.ready.toSane.close_step hl hat.result (fun _ h => by cases h) fun _ h => by cases h
  refine ⟨{ g with init := some (s.withFunc (s.func.close l (.ret none))).draft }, ?_, rfl, rfl,
    rfl, ?_⟩
  · change Except.bind (Emit.ret none s.draft) _ = _
    rw [hret]
    rfl
  rintro _ ⟨⟩
  refine ⟨hat.id, hat.result, hat.params, fun hclean => ⟨?_, fun c hc => ?_⟩⟩
  · obtain ⟨s₀, hfresh, hw⟩ := hat.drafted
    exact ⟨_, ⟨s₀, hfresh, hw.tail hstep⟩, rfl⟩
  · rcases hterm : c.term with _ | term
    · -- an open block would have been left open before
      have hat' := hat.ready.tidy.close.at_of_mem hc
      have hne : c.label ≠ l := by
        intro heq
        rw [heq] at hat'
        rw [hat'.unique (Func.at_close_self hb)] at hterm
        cases hterm
      refine absurd ⟨c, (Func.at_close_ne hne).1 hat', hterm, fun hpoint => hne ?_⟩
        (hat.closed hclean c.label)
      exact Option.some.inj (hpoint.symm.trans hl)
    · exact ⟨term, rfl⟩

end

/-! ## Functions -/

section

variable {o : Options}

/-- Functions with different names, of which every parameter has values. -/
structure Declarable (declared : List FuncDecl) : Prop where
  /-- the names tell them apart -/
  names : (declared.map fun f => f.name.text).Nodup
  /-- parameters have values -/
  params : ∀ f ∈ declared, ∀ p ∈ f.params, p.type ≠ .void

theorem Declarable.declareFunc {declared declared' : List FuncDecl} {f : FuncDecl}
    (h : Declarable declared) (hdecl : declareFunc declared f = .ok declared') :
    Declarable declared' ∧ declared' = declared ++ [f] := by
  unfold Lowering.declareFunc at hdecl
  split at hdecl
  · cases hdecl
  next hnew =>
    split at hdecl
    · cases hdecl
    next hbad =>
      obtain rfl := (Except.ok.inj hdecl).symm
      have hname : ∀ g ∈ declared, g.name.text ≠ f.name.text := fun g hg => by
        simpa using List.find?_eq_none.1 hnew g hg
      have hvoid : ∀ p ∈ f.params, p.type ≠ .void := fun p hp => by
        simpa using List.find?_eq_none.1 (Option.map_eq_none_iff.1 hbad) p hp
      refine ⟨⟨?_, fun g hg => ?_⟩, rfl⟩
      · rw [List.map_append, List.nodup_append]
        refine ⟨h.names, List.nodup_singleton _, fun a ha b hb => ?_⟩
        obtain ⟨g, hg, rfl⟩ := List.mem_map.1 ha
        obtain rfl := List.mem_singleton.1 hb
        exact hname g hg
      · rcases List.mem_append.1 hg with hg | hg
        · exact h.params g hg
        · obtain rfl := List.mem_singleton.1 hg
          exact hvoid

theorem Declarable.nil : Declarable [] := ⟨List.nodup_nil, List.forall_mem_nil _⟩

/-- The functions that are declared, and all of them if nothing goes wrong. -/
theorem Declarable.declareFuncs : ∀ (fs : List FuncDecl) (problems : List Problem)
    {declared : List FuncDecl}, Declarable declared →
    Declarable (declareFuncs o declared problems fs).1 ∧
      (declareFuncs o declared problems fs).1.Sublist (declared ++ fs) ∧
      problems <+: (declareFuncs o declared problems fs).2 ∧
      ((declareFuncs o declared problems fs).2 = [] →
        (declareFuncs o declared problems fs).1 = declared ++ fs)
  | [], problems, declared, h => by
    simpa [Lowering.declareFuncs] using h
  | f :: fs, problems, declared, h => by
    unfold Lowering.declareFuncs
    split
    · rcases hdecl : Lowering.declareFunc declared f with failure | declared'
      · obtain ⟨h', hsub, hprefix, hall⟩ :=
          Declarable.declareFuncs fs (problems ++ [⟨.signature, failure⟩]) h
        refine ⟨h', ?_, (List.prefix_append _ _).trans hprefix, fun hnil => ?_⟩
        · exact hsub.trans ((List.sublist_cons_self f fs).append_left declared)
        · dsimp only at hnil
          rw [hnil] at hprefix
          exact absurd (List.prefix_nil.1 hprefix) (by simp)
      · obtain ⟨h₁, rfl⟩ := h.declareFunc hdecl
        obtain ⟨h', hsub, hprefix, hall⟩ := Declarable.declareFuncs fs problems h₁
        simp only [List.append_assoc, List.singleton_append] at hsub hall
        exact ⟨h', hsub, hprefix, hall⟩
    next hstop =>
      refine ⟨h, List.sublist_append_left declared _, List.prefix_rfl, fun hnil => ?_⟩
      obtain rfl : problems = [] := hnil
      simp [Options.goesOn] at hstop

/-- The code of a function. -/
structure BodyOf (O : Outside) (o : Options) (c : Context) (f : FuncDecl) (g : Func) : Prop where
  /-- it is what lowering makes of the body -/
  lowered : ∃ r bound, lowerBody o c f = .ok (r, g, bound)
  /-- it is finished -/
  finished : g.Finished O
  /-- it is the function that was declared -/
  id : g.id = (declaration f).id
  /-- with its result -/
  result : g.result = (declaration f).result
  /-- and its parameters -/
  params : g.params = (declaration f).params

theorem BodyOf.outside {O O' : Outside} (hO : O.Le O') {c : Context} {f : FuncDecl} {g : Func}
    (h : BodyOf O o c f g) : BodyOf O' o c f g :=
  ⟨h.lowered, h.finished.outside hO, h.id, h.result, h.params⟩

/-- The bodies of functions do not fail. -/
def AllSucceed (o : Options) (c : Context) (fs : List FuncDecl) : Prop :=
  ∀ f ∈ fs, ∀ r g bound, lowerBody o c f = .ok (r, g, bound) → r = .ok ()

theorem Options.goesOn_mono {problems problems' : List Problem}
    (h : o.goesOn problems' = true) (hle : problems <+: problems') :
    o.goesOn problems = true := by
  simp only [Options.goesOn, Bool.or_eq_true, List.isEmpty_iff] at h ⊢
  refine h.imp_right fun hnil => ?_
  rw [hnil] at hle
  exact List.prefix_nil.1 hle

/-- All functions become code, unless problems end the work. -/
theorem lowerBodies_finished {O : Outside} {c : Context} (hc : ContextSound O c) :
    ∀ (fs : List FuncDecl) (out : Outcome), (∀ f ∈ fs, ∀ p ∈ f.params, p.type ≠ .void) →
      ∃ out', lowerBodies o c out fs = .ok out' ∧ out'.module.globals = out.module.globals ∧
        out.problems <+: out'.problems ∧ (o.goesOn out'.problems = true →
          ∃ gs, out'.module.funcs = out.module.funcs ++ gs ∧ List.Forall₂ (BodyOf O o c) fs gs) ∧
        (out'.problems = [] → AllSucceed o c fs)
  | [], out, _ =>
    ⟨out, rfl, rfl, List.prefix_rfl, fun _ => ⟨[], by simp, .nil⟩, fun _ => List.forall_mem_nil _⟩
  | f :: fs, out, hvoid => by
    unfold lowerBodies
    split
    next =>
      obtain ⟨r, g, bound, hrun, hfinished, hid, hresult, hparams⟩ :=
        lowerBody_finished (o := o) hc (hvoid f List.mem_cons_self)
      have hvoid' := fun h hh => hvoid h (List.mem_cons_of_mem _ hh)
      change ∃ out', Except.bind (lowerBody o c f) _ = _ ∧ _
      rw [hrun]
      dsimp only [Except.bind]
      obtain ⟨out', hrun', hglobals, hprefix, hall, hsucceed⟩ := lowerBodies_finished hc fs _ hvoid'
      refine ⟨out', hrun', hglobals, (List.prefix_append _ _).trans hprefix, fun hgo => ?_,
        fun hnil => ?_⟩
      · obtain ⟨gs, hgs, hforall⟩ := hall hgo
        refine ⟨g :: gs, by rw [hgs]; simp, .cons ?_ hforall⟩
        exact ⟨⟨r, bound, hrun⟩, hfinished, hid.symm, hresult.symm, hparams.symm⟩
      · refine List.forall_mem_cons.2 ⟨fun r' g' bound' hrun'' => ?_, hsucceed hnil⟩
        obtain rfl : r = r' := congrArg Prod.fst (Except.ok.inj (hrun.symm.trans hrun''))
        rw [hnil] at hprefix
        rcases r with failure | ⟨⟩
        · simp at hprefix
        · rfl
    next hstop =>
      refine ⟨_, rfl, rfl, List.prefix_rfl, fun hgo => absurd hgo hstop, fun hnil => ?_⟩
      have hproblems : out.problems = [] := hnil
      simp [Options.goesOn, hproblems] at hstop

/-- Functions are found with the results and parameters that they were declared with. -/
theorem BodyOf.find? {O : Outside} {c : Context} {fs : List FuncDecl} {gs : List Func}
    (h : List.Forall₂ (BodyOf O o c) fs gs) (id : FuncId) :
    (gs.find? fun g => g.id = id).map (fun g => (g.result, g.params.map Formal.type)) =
      (fs.find? fun f => (declaration f).id = id).map fun f =>
        ((declaration f).result, (declaration f).params.map Formal.type) := by
  induction h with
  | nil => rfl
  | cons hbody _ ih =>
    rw [List.find?_cons, List.find?_cons, hbody.id]
    split
    · simp [hbody.result, hbody.params]
    · exact ih

/-! ## Programs -/

/-- What a program is lowered to if no problem ends the work. -/
structure Coded (o : Options) (declared : List FuncDecl) (clean : Prop) (out : Outcome)
    (c : Context) (gs : List Func) (values : Option Func) : Prop where
  /-- the functions of the program, and the one that computes the values of global variables -/
  funcs : out.module.funcs = gs ++ values.toList
  /-- all functions that are declared are there -/
  bodies : List.Forall₂ (BodyOf out.module.outside o c) declared gs
  /-- the one that computes the values of global variables is finished unless one of these failed -/
  init : ∀ f, values = some f → f.id = ⟨initName, 0⟩ ∧ (clean → f.Finished out.module.outside)
  /-- the bodies know whether it is there -/
  hasInit : c.hasInit = values.isSome
  /-- functions are called as they are declared -/
  context : ContextSound out.module.outside c
  /-- their names tell functions apart -/
  declarable : Declarable declared

/-- What a program is lowered to if nothing goes wrong. -/
structure Lowered (o : Options) (p : Program) (out : Outcome) (c : Context) (gs : List Func)
    (values : Option Func) : Prop extends Coded o (funcDecls p) True out c gs values where
  /-- no body fails -/
  succeeds : AllSucceed o c (funcDecls p)

theorem NamesFree.declareFuncs {fs : List FuncDecl} (h : NamesFree fs) :
    NamesFree (declareFuncs o [] [] fs).1 := by
  intro f hf
  have hmem := (Declarable.declareFuncs (o := o) fs [] .nil).2.1.mem hf
  exact h f (by simpa using hmem)

/-- The module refers to at least what the code of its functions refers to. -/
theorem outsideOf_le_module {O : Outside} {c : Context} {declared : List FuncDecl} {gs : List Func}
    {values : Option Func} {m : Module} (hfree : NamesFree declared)
    (hbodies : List.Forall₂ (BodyOf O o c) declared gs) (hfuncs : m.funcs = gs ++ values.toList)
    (hinit : ∀ f, values = some f → f.id = ⟨initName, 0⟩ ∧ f.result = .void ∧ f.params = []) :
    (outsideOf declared m.globals values.isSome).Le m.outside where
  globals := fun _ h => h
  sigs := fun id sig h => by
    have hfind := BodyOf.find? hbodies id
    simp only [outsideOf] at h
    simp only [Module.outside, Module.func?, hfuncs, List.find?_append]
    by_cases hid : id = ⟨initName, 0⟩
    · -- no other function has this name
      rw [if_pos hid] at h
      have hnone : gs.find? (fun g => g.id = id) = none := by
        rw [← Option.map_eq_none_iff, hfind, Option.map_eq_none_iff, List.find?_eq_none]
        intro f hf heq
        have hname : (declaration f).id = id := by simpa using heq
        exact hfree f hf (congrArg FuncId.name (hname.trans hid))
      rcases values with _ | f
      · cases h
      · obtain ⟨hfid, hresult, hparams⟩ := hinit f rfl
        obtain rfl := Option.some.inj h
        rw [hnone]
        simp [hfid, hid, hresult, hparams]
    · rw [if_neg hid, ← hfind] at h
      obtain ⟨g, hg, rfl⟩ := Option.map_eq_some_iff.1 h
      simp [hg]

/-- Once all global variables are declared, the bodies of functions are lowered. -/
theorem lowerBodies_coded {declared : List FuncDecl} {clean : Prop} {g : Globals}
    {problems : List Problem} (bound : List (Name × DataType)) (hfree : NamesFree declared)
    (hdeclarable : Declarable declared)
    (hscopes : ∀ O f, (∀ v ∈ g.globals, v ∈ O.globals) → ScopesSound O f g.scopes)
    (houter : g.scopes.inner = [])
    (hinit : o.goesOn problems = true → ∀ d, g.init = some d → d.func.id = ⟨initName, 0⟩ ∧
      d.func.result = .void ∧ d.func.params = [] ∧
      (clean → d.func.Finished (outsideOf declared g.globals false))) :
    ∃ out, lowerBodies o ⟨signatures declared, g.scopes, g.init.isSome⟩
        { module := { globals := g.globals }, problems, bound } declared = .ok out ∧
      problems <+: out.problems ∧
      (out.problems = [] → AllSucceed o ⟨signatures declared, g.scopes, g.init.isSome⟩ declared) ∧
      (o.goesOn out.problems = true → ∃ gs, Coded o declared clean
        { out with module := { out.module with
          funcs := out.module.funcs ++ (g.init.map Draft.func).toList } }
        ⟨signatures declared, g.scopes, g.init.isSome⟩ gs (g.init.map Draft.func)) := by
  have hc : ContextSound (outsideOf declared g.globals g.init.isSome)
      ⟨signatures declared, g.scopes, g.init.isSome⟩ := by
    refine ⟨signatures_sound hfree, fun f => hscopes _ f fun _ h => h, houter, fun hhas => ?_⟩
    simp only [outsideOf, if_true]
    exact if_pos hhas
  obtain ⟨out, hrun, hglobals, hprefix, hall, hsucceed⟩ := lowerBodies_finished (o := o) hc declared
    { module := { globals := g.globals }, problems, bound } hdeclarable.params
  refine ⟨out, hrun, hprefix, hsucceed, fun hgo => ?_⟩
  obtain ⟨gs, hgs, hbodies⟩ := hall hgo
  generalize hm : { out.module with
    funcs := out.module.funcs ++ (g.init.map Draft.func).toList } = m
  have hfuncs : m.funcs = gs ++ (g.init.map Draft.func).toList := by
    rw [← hm, hgs]
    simp
  have hvalues : ∀ f, g.init.map Draft.func = some f → f.id = ⟨initName, 0⟩ ∧ f.result = .void ∧
      f.params = [] ∧ (clean → f.Finished (outsideOf declared g.globals false)) := by
    intro f hf
    obtain ⟨d, hd, rfl⟩ := Option.map_eq_some_iff.1 hf
    exact hinit (Options.goesOn_mono hgo hprefix) d hd
  -- what the bodies were lowered against is what the module has in the end
  have hO : (outsideOf declared g.globals g.init.isSome).Le m.outside := by
    have hle := outsideOf_le_module hfree hbodies hfuncs fun f hf => by
      obtain ⟨hid, hresult, hparams, -⟩ := hvalues f hf
      exact ⟨hid, hresult, hparams⟩
    rw [← hm, hglobals, Option.isSome_map] at hle
    rw [← hm]
    exact hle
  refine ⟨gs, hfuncs, hbodies.imp fun _ _ hbody => hbody.outside hO, fun f hf => ?_, by simp,
    hc.outside hO, hdeclarable⟩
  obtain ⟨hid, -, -, hfinished⟩ := hvalues f hf
  have hinit : (outsideOf declared g.globals false).Le
      (outsideOf declared g.globals g.init.isSome) :=
    outsideOf_le (fun _ h => h) fun h => absurd h Bool.false_ne_true
  exact ⟨hid, fun hclean => (hfinished hclean).outside (hinit.trans hO)⟩

/-- Lowering meets no fault. If no problem ends the work, all functions that can be declared become
code; if there is no problem, these are all functions of the program. -/
theorem lower_coded {p : Program} (hfree : NamesFree (funcDecls p)) :
    ∃ out, lower o p = .ok out ∧ (o.goesOn out.problems = true →
      ∃ declared c gs values, NamesFree declared ∧
        Coded o declared (FailStraight (globalVars p) out.problems) out c gs values ∧
        (out.problems = [] → declared = funcDecls p ∧ AllSucceed o c declared)) := by
  have hdecl := Declarable.declareFuncs (o := o) (funcDecls p) [] .nil
  have hfree' := hfree.declareFuncs (o := o)
  unfold lower
  rcases hrun : declareFuncs o [] [] (funcDecls p) with ⟨declared, problems⟩
  rw [hrun] at hdecl hfree'
  dsimp only at hdecl hfree' ⊢
  obtain ⟨hdeclarable, -, -, hall⟩ := hdecl
  obtain ⟨g, problems', hadd, hg, hprefix⟩ := GlobalsSound.addGlobals (o := o) hfree' (globalVars p)
    problems (show GlobalsSound declared o True _ from .start _)
  change ∃ out, Except.bind (addGlobals (signatures declared) o _ problems (globalVars p)) _ = _ ∧ _
  rw [hadd]
  dsimp only [Except.bind]
  -- the bodies, for both ways in which the round over global variables may have ended
  have hbodies : ∀ g' : Globals,
      (∀ O f, (∀ v ∈ g'.globals, v ∈ O.globals) → ScopesSound O f g'.scopes) →
      g'.scopes.inner = [] →
      (o.goesOn problems' = true → ∀ d, g'.init = some d → d.func.id = ⟨initName, 0⟩ ∧
        d.func.result = .void ∧ d.func.params = [] ∧
        (FailStraight (globalVars p) problems' →
          d.func.Finished (outsideOf declared g'.globals false))) →
      ∃ out, (do
        let out ← lowerBodies o ⟨signatures declared, g'.scopes, g'.init.isSome⟩
          { module := { globals := g'.globals }, problems := problems', bound := g'.bound } declared
        return { out with module := { out.module with
          funcs := out.module.funcs ++ (g'.init.map Draft.func).toList } } : Except Fault Outcome) =
          .ok out ∧ (o.goesOn out.problems = true → ∃ declared c gs values, NamesFree declared ∧
            Coded o declared (FailStraight (globalVars p) out.problems) out c gs values ∧
            (out.problems = [] → declared = funcDecls p ∧ AllSucceed o c declared)) := by
    intro g' hscopes houter hinit
    obtain ⟨out, hrun', hprefix', hsucceed, hcoded⟩ :=
      lowerBodies_coded (o := o) g'.bound hfree' hdeclarable hscopes houter hinit
    refine ⟨_, by rw [hrun']; rfl, fun hgo => ?_⟩
    obtain ⟨gs, hcoded⟩ := hcoded hgo
    refine ⟨declared, _, gs, _, hfree', ⟨hcoded.funcs, hcoded.bodies, fun f hf => ?_,
      hcoded.hasInit, hcoded.context, hcoded.declarable⟩, fun hnil => ?_⟩
    · refine (hcoded.init f hf).imp_right fun hfinished hfail => hfinished fun v hv => ?_
      rintro ⟨failure, hmem⟩
      exact hfail v hv ⟨failure, hprefix'.subset hmem⟩
    · have hproblems : problems = [] := List.prefix_nil.1 (hnil ▸ hprefix.trans hprefix')
      exact ⟨by simpa using hall hproblems, hsucceed hnil⟩
  split
  · obtain ⟨g', hfinish, hglobals, hscopes, hsome, hinit⟩ := hg.synthesize.finish
    change ∃ out, Except.bind ((g.synthesize o).finish) _ = _ ∧ _
    rw [hfinish]
    refine hbodies g' (fun O f hO => ?_) ?_ fun _ d hd => ?_
    · rw [hscopes]
      exact hg.synthesize.scopesSound (hglobals ▸ hO) f
    · rw [hscopes]
      exact hg.synthesize.outermost
    · obtain ⟨hid, hresult, hparams, hfinished⟩ := hinit d hd
      exact ⟨hid, hresult, hparams, fun hfail => hglobals ▸ hfinished ⟨trivial, hfail⟩⟩
  next hstop =>
    exact hbodies g (fun O f hO => hg.scopesSound hO f) hg.outermost fun hgo => absurd hgo hstop

/-- If nothing goes wrong, all functions of the program are finished. -/
theorem lower_finished {p : Program} (hfree : NamesFree (funcDecls p)) :
    ∃ out, lower o p = .ok out ∧
      (out.problems = [] → ∃ c gs values, Lowered o p out c gs values) := by
  obtain ⟨out, hrun, hcoded⟩ := lower_coded (o := o) hfree
  refine ⟨out, hrun, fun hnil => ?_⟩
  obtain ⟨declared, c, gs, values, -, h, hall⟩ := hcoded (by simp [Options.goesOn, hnil])
  obtain ⟨rfl, hsucceeds⟩ := hall hnil
  have hclean : FailStraight (globalVars p) out.problems := by
    rintro v - ⟨failure, hmem⟩
    rw [hnil] at hmem
    cases hmem
  exact ⟨c, gs, values, ⟨h.funcs, h.bodies, fun f hf => (h.init f hf).imp_right fun hfinished _ =>
    hfinished hclean, h.hasInit, h.context, h.declarable⟩, hsucceeds⟩

end

end Shader.Lowering
