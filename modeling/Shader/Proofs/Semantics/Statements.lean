import Shader.Proofs.Lowering.Statements
import Shader.Proofs.Semantics.Control
import Shader.Proofs.Semantics.Expressions

/-!
# Integer statements keep their meaning

The machine follows the meaning of a statement over integer variables, through every nesting of
control structures.
-/

namespace Shader.Lowering

open Ir Meaning

variable {O : Outside} {ρ : Realm} {ns : Names} {x x' : Walk} {Γ : Signatures}

/-! ## Declarations -/

namespace Walk.Local

theorem enter (h : x.Local O ns) : x.enter.Local O ([] :: ns) where
  tidy := h.tidy
  numbered := h.numbered
  sound := h.sound.enter
  names := congrArg (List.cons []) h.names
  ints := fun frame hframe sym hsym => by
    rcases List.mem_cons.1 hframe with rfl | hframe
    · cases hsym
    · exact h.ints frame hframe sym hsym
  distinct := h.distinct

/-- The room of a variable is older than what is still to be written. -/
theorem reg_ne (h : x.Local O ns) {sym : Symbol DataType Value}
    (hsym : sym ∈ x.scopes.inner.flatten) : sym.handle.reg? ≠ some x.site.func.regs := by
  intro hreg
  obtain ⟨frame, hframe, hsym⟩ := List.mem_flatten.1 hsym
  have hsound := h.sound frame (List.mem_append_left _ hframe) sym hsym
  obtain ⟨l, b, line, hb, hline, heq, -⟩ := hsound.slot _ hreg
  exact Nat.lt_irrefl _ (h.numbered.below _ (Func.mem_regList.2 ⟨b, hb.mem, List.mem_map.2
    ⟨line, hline, heq⟩⟩))

end Walk.Local

namespace Walk.Reserves

variable {sym : Symbol DataType Value} {v : Value}

/-- A new variable of the innermost block. -/
theorem inner_eq (h : x.Reserves sym v x') {top : Frame DataType Value}
    {rest : List (Frame DataType Value)} (hinner : x.scopes.inner = top :: rest) :
    x'.scopes.inner = (top ++ [sym]) :: rest := by
  obtain ⟨-, -, -, -, -, -, -, hscopes⟩ := h
  rw [hscopes]
  simp [Scopes.setTop, Scopes.top, hinner]

theorem isLocal (h : x.Reserves sym v x') (hx : x.Local O ns) (hgoes : x.Goes O ρ x')
    (hns : ns ≠ []) (hint : sym.type = .int) : x'.Local O (ns.declare sym.name) := by
  rcases hinner : x.scopes.inner with _ | ⟨top, rest⟩
  · have hnames := hx.names
    rw [hinner] at hnames
    exact absurd hnames.symm hns
  · have hinner' := h.inner_eq hinner
    obtain ⟨hreg, -⟩ := h
    refine ⟨Steps.tidy hgoes.writes hx.tidy, Steps.numbered hgoes.writes hx.tidy hx.numbered,
      hgoes.scopesSound hx.sound, ?_, ?_, ?_⟩
    · rw [hinner', ← hx.names, hinner]
      simp [Names.declare]
    · intro frame hframe s hs
      rw [hinner'] at hframe
      have hold := hx.ints
      rw [hinner] at hold
      rcases List.mem_cons.1 hframe with rfl | hframe
      · rcases List.mem_append.1 hs with hs | hs
        · exact hold top List.mem_cons_self s hs
        · obtain rfl := List.mem_singleton.1 hs
          exact hint
      · exact hold frame (List.mem_cons_of_mem _ hframe) s hs
    · have hperm : ((top ++ [sym]) :: rest).flatten.Perm (sym :: (top :: rest).flatten) := by
        simp only [List.flatten_cons, List.append_assoc, List.singleton_append]
        exact List.perm_middle
      rw [hinner', (hperm.map _).nodup_iff, List.map_cons, List.nodup_cons, ← hinner]
      refine ⟨fun hmem => ?_, hx.distinct⟩
      obtain ⟨s, hs, heq⟩ := List.mem_map.1 hmem
      exact hx.reg_ne hs (heq.trans hreg)

/-- The machine gives a new variable its first value. -/
theorem simulates (h : x.Reserves sym v x') (hx : x.Local O ns) (hns : ns ≠ []) (w : BitVec 32) :
    x.body.Simulates x'.body (fun c => c.value v = some (.word w))
      (fun σ => some (σ.declare sym.name w, ())) fun _ _ => True := by
  rcases hinner : x.scopes.inner with _ | ⟨top, rest⟩
  · have hnames := hx.names
    rw [hinner] at hnames
    exact absurd hnames.symm hns
  · have hinner' := h.inner_eq hinner
    obtain @⟨x₁, u, hreg, hslot, hstays, hle₁, -, hputs, hscopes₁, -⟩ := h
    intro f σ c hf hle hc hv
    have hc₁ : x₁.body.Matches f σ c := hc.stays hstays hscopes₁
    obtain ⟨i, line, hi, hline⟩ := hf.exists_slot (hslot.mono hle)
    rw [← hline] at hreg
    refine ⟨_, (), rfl, (hc₁.store hf hputs hle hi hreg hv).weaken (Nat.le_refl _)
      fun c' ⟨hagrees, hhere, hhoused, hmemory⟩ => ⟨?_, ⟨hhere, hhoused, ?_⟩, trivial⟩⟩
    · exact (Agrees.refl _ c).trans hagrees hle₁.regs
    · have hstored := Stored.other hc.stored hi (fun s hs => ?_) (some (.word w))
      · rw [hinner] at hstored
        rw [hinner', hmemory]
        cases hstored with
        | cons htop hrest =>
          have hnew := Holds.set (f := f) hi hreg hc.housed.size w
          exact .cons (List.rel_append htop (.cons hnew .nil)) hrest
      · rw [hline]
        exact hx.reg_ne hs

end Walk.Reserves

/-- The first value of a variable, if it is declared with one. -/
theorem simulates_initialValue {e : Expr} (he : isInt ns e = true) (hx : x.Local O ns) :
    Lowers O ρ (do initialValue .int (← expr Γ e)) x fun v x' => x'.site.Has O v .i32 ∧
      x.body.Simulates x'.body (fun _ => True) (fun σ => do
        let (σ, a) ← eval e σ
        return (σ, ← a.read σ)) fun w c => c.value v = some (.word w) := by
  refine Lowers.bind (simulates_expr e he hx) fun a x₁ h₁ ha => ?_
  rw [initialValue, if_pos (by simp [ha.1.type_eq]), valueAs_eq ha.1.type_eq]
  refine (ha.supplies h₁.site.le).weaken fun v x₂ h₂ ⟨w, hw, hhas, hsim⟩ => ?_
  obtain rfl := Option.some.inj hw
  exact ⟨hhas, hsim⟩

/-- A declaration. -/
theorem simulates_varDecl {d : VarDecl} (hd : isIntDecl ns d = true) (hx : x.Local O ns)
    (hns : ns ≠ []) (hready : x.site.Ready ρ) (hρ : ρ.declares) :
    Walks O ρ (varDecl Γ d) x fun _ x' => x'.site.Ready ρ ∧
      x'.Local O (ns.declare d.name.text) ∧ x.body.Simulates x'.body (fun _ => True)
        (fun σ => (Meaning.declare d σ).map fun σ => (σ, ())) fun _ _ => True := by
  obtain ⟨htype, hinit⟩ : d.type = .int ∧ d.init.all (isInt ns) = true := by
    simpa [isIntDecl] using hd
  unfold varDecl
  refine Walks.check hready fun hvoid => Walks.check hready fun _ => ?_
  rcases hd : d.init with _ | e
  · refine (walks_newVar hready hρ hvoid (.zero _ O _)).weaken fun _ x' hgoes ⟨h', addr, hnew⟩ => ?_
    refine ⟨h', hnew.isLocal hx hgoes hns htype, ?_⟩
    refine (hnew.simulates hx hns 0).weaken (fun c _ => ?_) (fun σ => ?_) fun _ _ h => h
    · rw [htype]
      exact value_zero c
    · rw [Meaning.declare, hd]
      rfl
  · rw [hd] at hinit
    rw [htype]
    refine Walks.unassoc (Walks.bind (simulates_initialValue hinit hx hready)
      fun v x₁ _ ⟨h₁, hv, hsim⟩ => ?_)
    have hx₁ := hx.leads h₁
    refine (walks_newVar h₁.site.ready hρ (by simp) hv).weaken
      fun _ x' hgoes ⟨h', addr, hnew⟩ => ?_
    refine ⟨h', hnew.isLocal hx₁ hgoes hns rfl, ?_⟩
    refine (hsim.bind h₁.site.le hgoes.le fun w => hnew.simulates hx₁ hns w).weaken (fun _ h => h)
      (fun σ => ?_) fun _ _ h => h
    simp only [Meaning.declare, hd]
    rcases eval e σ with _ | ⟨σ, a⟩
    · rfl
    · rcases ha : a.read σ with _ | w <;> simp [ha]

/-- What a counting loop does first. -/
theorem simulates_forInit {init : ForInit} (h : isIntInit ns init = true) (hx : x.Local O ns)
    (hns : ns ≠ []) (hready : x.site.Ready ρ) (hρ : ρ.declares) :
    Walks O ρ (forInit Γ init) x fun _ x' => x'.site.Ready ρ ∧
      x'.Local O (namesAfterInit ns init) ∧ x.body.Simulates x'.body (fun _ => True)
        (fun σ => (begin init σ).map fun σ => (σ, ())) fun _ _ => True := by
  cases init with
  | nothing =>
    exact Walks.pure ⟨hready, hx, (Body.Simulates.stays (.refl _) rfl ()).weaken (fun _ h => h)
      (fun _ => rfl) fun _ _ _ => trivial⟩
  | var d => exact simulates_varDecl h hx hns hready hρ
  | expr e =>
    refine Walks.discard ((simulates_expr e h hx hready).weaken fun a x' _ ⟨hlead, _, hsim⟩ =>
      ⟨hlead.site.ready, hx.leads hlead, ?_⟩)
    refine (hsim.map fun _ => ()).weaken (fun _ h => h) (fun σ => ?_) fun _ _ _ => trivial
    rw [begin, Option.map_map]
    rfl

/-! ## Steps of a control structure -/

theorem Walk.Codes.le (h : x.Codes O ρ x') : x.site.func.Le x'.site.func := Steps.le h.writes

theorem Walk.Local.codes (h : x.Local O ns) (hc : x.Codes O ρ x') : x'.Local O ns :=
  h.writes hc.writes hc.scopes

section

variable {f : Func} {n : Nat} {σ : Store} {c : Config} {k : Label}

/-- A branch to a block. -/
theorem Walk.Branches.departs {j : Label} (h : x.Branches O ρ (.br j) k x') (hf : f.Executable)
    (hle : x'.site.func.Le f) (hc : x.body.Matches f σ c) : Departs f x.scopes.inner j σ c :=
  (hc.br hf h.closes hle).weaken (Nat.le_refl _) fun _ hc' => hc'.1

/-- A branch to one of two blocks. -/
theorem Walk.Branches.decides {bit : Value} {yes no : Label} {go : Bool}
    (h : x.Branches O ρ (.condBr bit yes no) k x') (hf : f.Executable) (hle : x'.site.func.Le f)
    (hc : x.body.Matches f σ c) (hbit : c.value bit = some (.bit go)) :
    Departs f x.scopes.inner (if go then yes else no) σ c :=
  (hc.condBr hf h.closes hle hbit).weaken (Nat.le_refl _) fun _ hc' => hc'.1

/-- A branch that is made if control comes to the point. -/
theorem Walk.Merges.departs {j : Label} {here : Bool} {p : Option Label}
    (h : x.Merges O ρ j here p x') (hf : f.Executable) (hle : x'.site.func.Le f)
    (hc : x.body.Matches f σ c) : here = true ∧ Departs f x.scopes.inner j σ c := by
  obtain ⟨l, -, -, hl, -⟩ := hc.here
  obtain ⟨hhere, hcloses⟩ := h.closes l hl
  exact ⟨hhere, (hc.br hf hcloses hle).weaken (Nat.le_refl _) fun _ hc' => hc'.1⟩

/-- What the walk over a condition comes down to. -/
def Decides (x : Walk) (e : Expr) (bit : Value) (x' : Walk) : Prop :=
  x.body.Simulates x'.body (fun _ => True) (test e) fun go c => c.value bit = some (.bit go)

/-- A condition. -/
theorem simulates_condition {e : Expr} (he : isInt ns e = true) (hx : x.Local O ns) :
    Lowers O ρ (condition Γ e) x fun bit x' => x'.site.Has O bit .i1 ∧ Decides x e bit x' := by
  refine Lowers.bind (simulates_expr e he hx) fun a x₁ h₁ ha => ?_
  refine (simulates_truthOf ha.1).weaken fun bit x₂ h₂ hbit => ⟨hbit.1, ?_⟩
  refine (ha.2.bind h₁.site.le h₂.site.le hbit.2).weaken (fun _ h => h) (fun σ => ?_) fun _ _ h => h
  rw [test]
  rcases eval e σ with _ | ⟨σ, a⟩
  · rfl
  · rcases ha : truth a σ with _ | t <;> simp [ha]

/-- A condition that has been tested, and the branch behind it. -/
theorem Decides.tracks {e : Expr} {bit : Value} {x₁ x₂ x₃ : Walk} {yes no : Label}
    (h : Decides x e bit x₁) (hscopes : x₂.scopes = x.scopes)
    (hstays : x₁.site.draft.Stays x₂.site.draft) (hscopes₁ : x₁.scopes = x.scopes)
    (hle : x₁.site.func.Le x₂.site.func)
    (hbranch : x₂.Branches O ρ (.condBr bit yes no) k x₃) (hf : f.Executable)
    (hle₃ : x₃.site.func.Le f) (hc : x.body.Matches f σ c) :
    f.Tracks n c (fun σ go => Departs f x.scopes.inner (if go then yes else no) σ) (test e σ) := by
  refine (Body.Simulates.tracks h hf (hle.trans (hbranch.le.trans hle₃)) hc trivial).weaken
    fun σ go c' ⟨hc', hbit⟩ => ?_
  have hc₂ : x₂.body.Matches f σ c' := hc'.stays hstays (hscopes.trans hscopes₁.symm)
  exact hscopes ▸ hbranch.decides hf hle₃ hc₂ hbit

/-- The test of a loop. -/
theorem Walk.Tests.tracks {e : Option Expr} {round leave : Label}
    (h : x.Tests O ρ (Decides x) e round leave k x') (hf : f.Executable)
    (hle : x'.site.func.Le f) (hc : x.body.Matches f σ c) :
    f.Tracks n c (fun σ go => Departs f x.scopes.inner (if go then round else leave) σ)
      (goesOn e σ) := by
  cases e with
  | none => exact .here (Branches.departs h hf hle hc)
  | some e =>
    obtain ⟨bit, x₁, hlead, hdecides, hbranch⟩ := h
    exact hdecides.tracks hlead.scopes (.refl _) hlead.scopes (.refl _) hbranch hf hle hc

theorem Walk.Tests.starts {P : Expr → Value → Walk → Prop} {e : Option Expr}
    {round leave : Label} (h : x.Tests O ρ P e round leave k x') : x'.site.draft.Starts k := by
  cases e with
  | none => exact Branches.starts h
  | some e =>
    obtain ⟨bit, x₁, -, -, hbranch⟩ := h
    exact hbranch.starts

theorem Walk.Tests.codes {P : Expr → Value → Walk → Prop} {e : Option Expr}
    {round leave : Label} (h : x.Tests O ρ P e round leave k x') : x.Codes O ρ x' := by
  cases e with
  | none => exact Branches.toCodes h
  | some e =>
    obtain ⟨bit, x₁, hlead, -, hbranch⟩ := h
    exact ⟨hlead.site.steps.trans hbranch.writes, hbranch.scopes.trans hlead.scopes⟩

end

/-! ## Statements -/

/-- The code that a walk over statements has written follows their meaning in every finished
function, with any number of rounds. -/
def Walk.Follows (x : Walk) (loop : Option Loop) (m : Nat → Store → Option (Store × Ending))
    (x' : Walk) : Prop :=
  ∀ f n, f.Executable → x'.site.func.Le f → x.body.Follows f n x'.body loop (m n)

theorem tail_extends {P : Symbol DataType Value → Prop} {s s' : Scopes DataType Value}
    (h : s.Extends P s') : s'.inner.tail = s.inner.tail := by
  obtain ⟨more, rfl, -⟩ := h
  rcases s with ⟨_ | ⟨top, inner⟩, root⟩ <;> rfl

section

variable {loop : Option Loop} {m : Nat → Store → Option (Store × Ending)} {f : Func} {n : Nat}
  {σ : Store} {c : Config}

/-- What is nested in a control structure, in a scope of its own: from the start of a block, and on
to another one. -/
theorem Walk.Follows.nested {ρ' : Realm} {y : Walk} {j k : Label} {here : Bool} {p : Option Label}
    {frames : List (Frame DataType Value)} (h : x.enter.Follows loop m y)
    (hgoes : x.enter.Goes O ρ' y) (hmerge : (x.exit y).Merges O ρ j here p x')
    (hstarts : x.site.draft.Starts k) (hframes : x.scopes.inner = frames) (hf : f.Executable)
    (hle : x'.site.func.Le f) (hc : Arrives f k frames σ c) :
    f.Tracks n c (Lands f loop (fun σ c => here = true ∧ Departs f frames j σ c)
      (Departs f frames)) (inBlock (m n) σ) := by
  subst hframes
  have hfollows := h f n hf (hmerge.le.trans hle)
  refine tracks_lands (hfollows.inBlock (tail_extends hgoes.scopes) (hc.matches hstarts rfl))
    (fun σ c hc => .here (hmerge.departs hf hle hc)) fun k σ c h => h

/-- Code that always ends is a statement after which the next one follows. -/
theorem Walk.Follows.of_simulates {β : Type} {m : Store → Option (Store × β)}
    {m' : Nat → Store → Option (Store × Ending)} {Q : β → Config → Prop}
    (h : x.body.Simulates x'.body (fun _ => True) m Q)
    (hm : ∀ n σ, m' n σ = (m σ).map fun p => (p.1, .done)) : x.Follows loop m' x' := by
  intro f n hf hle σ c hc
  rw [hm]
  exact (h.tracks hf hle hc trivial).map fun σ r c' hc' => hc'.1

/-- Where control does not come to, there is nothing to follow. -/
theorem Walk.Follows.unreached (h : x.site.point = none) : x.Follows loop m x' := by
  intro f n _ _ σ c hc
  obtain ⟨l, -, -, hl, -⟩ := hc.here
  exact absurd (h.symm.trans hl) (by simp)

/-- A branch that leaves a loop, or ends one of its rounds. -/
theorem follows_branchTo {pos : Pos} {token : Token} (hx : x.Within O ρ .int loop)
    (hready : x.site.Ready ρ) :
    Walks O ρ (branchTo pos token loop) x fun _ x' => x'.scopes = x.scopes ∧
      x.Follows loop (fun n => exec n (.branch pos token)) x' := by
  refine (walks_branchTo hx hready).weaken fun _ x' _ ⟨lp, hlp, hcodes, hcloses⟩ =>
    ⟨hcodes.scopes, fun f n hf hle σ c hc => ?_⟩
  have hgo : Departs f x.scopes.inner (if token = .keyword .break then lp.leave else lp.next) σ c :=
    (hc.br hf hcloses hle).weaken (Nat.le_refl _) fun _ h => h.1
  dsimp only
  rw [exec]
  split
  next hbreak =>
    rw [if_pos hbreak] at hgo
    exact .here ⟨lp, hlp, hgo.tail⟩
  next hbreak =>
    rw [if_neg hbreak] at hgo
    exact .here ⟨lp, hlp, hgo.tail⟩

/-- A return with a value. -/
theorem follows_returnFrom {pos : Pos} {result : Option Expr}
    (hresult : result.all (isInt ns) = true) (hx : x.Within O ρ .int loop)
    (hlocal : x.Local O ns) (hready : x.site.Ready ρ) :
    Walks O ρ (returnFrom Γ .int pos result) x fun _ x' => x'.scopes = x.scopes ∧
      x.Follows loop (fun n => exec n (.ret pos result)) x' := by
  unfold returnFrom
  cases result with
  | none => exact Walks.check hready fun hvoid => absurd (by simp) hvoid
  | some e =>
    refine Walks.check hready fun _ => ?_
    refine Walks.bind (simulates_expr e hresult hlocal hready) fun a x₁ _ ⟨h₁, ha⟩ => ?_
    rw [valueAs_eq ha.1.type_eq]
    refine Walks.bind (ha.supplies h₁.site.le h₁.site.ready)
      fun v x₂ _ ⟨h₂, w, hw, hv, hsim⟩ => ?_
    obtain rfl := Option.some.inj hw
    have hx₂ := hx.goes (h₁.trans h₂).goes
    refine Walks.weaken (walks_leave hx₂ h₂.site.ready ?_ hv.one fun _ h => by cases h)
      fun _ x' _ ⟨hcodes, hcloses⟩ => ⟨?_, fun f n hf hle σ c hc => ?_⟩
    · rw [hx₂.result]
      exact ⟨Ty.ofData_ne_void (by simp), hv.type⟩
    · rw [hcodes.scopes, h₂.scopes, h₁.scopes]
    · have hexec : exec n (.ret pos (some e)) σ =
          (eval e σ >>= fun p => do return (p.1, ← p.2.read p.1)).map
            fun p => (p.1, .returned p.2) := by
        rw [exec]
        simp only [Option.bind_eq_bind, Option.bind_some]
        rcases eval e σ with _ | ⟨σ, b⟩
        · rfl
        · rcases hb : b.read σ with _ | w <;> simp [hb]
      dsimp only
      rw [hexec]
      refine (hsim.tracks hf (hcodes.le.trans hle) hc trivial).map fun σ w c' ⟨hc', hvalue⟩ => ?_
      refine (hc'.here.closes hf hcloses hle).trans ?_
      simp [Func.follow, hvalue]

/-- The walk over a statement writes code that follows its meaning, wherever it starts. -/
def Followed (O : Outside) (Γ : Signatures) (loop : Option Loop) (ns : Names) (st : Stmt) : Prop :=
  ∀ {ρ : Realm} {x : Walk}, x.Within O ρ .int loop → x.Local O ns → x.site.Ready ρ →
    Walks O ρ (stmt Γ .int loop st) x fun _ x' => x.Follows loop (fun n => exec n st) x'

/-- What a statement declares does not matter behind a scope of its own. -/
theorem Followed.of_walks {st : Stmt} (h : ∀ {ρ : Realm} {x : Walk}, x.Within O ρ .int loop →
    x.Local O ns → x.site.Ready ρ → Walks O ρ (stmt Γ .int loop st) x fun _ x' =>
      x'.Local O (namesAfter ns st) ∧ x.Follows loop (fun n => exec n st) x') :
    Followed O Γ loop ns st :=
  fun hx hlocal hready => (h hx hlocal hready).weaken fun _ _ _ h => h.2

/-- A statement that is executed if a condition holds. -/
theorem follows_ifThen {pos : Pos} {e : Expr} {yes : Stmt} (he : isInt ns e = true)
    (hyes : Followed O Γ loop ([] :: ns) yes) (hx : x.Within O ρ .int loop)
    (hlocal : x.Local O ns) (hready : x.site.Ready ρ) :
    Walks O ρ (stmt Γ .int loop (.ifThen pos e yes)) x fun _ x' => x'.scopes = x.scopes ∧
      x.Follows loop (fun n => exec n (.ifThen pos e yes)) x' := by
  unfold stmt
  refine walks_lowers hx.stage hready (simulates_condition he hlocal)
    fun bit x₁ hx₁ h₁ ⟨hbit, hdecides⟩ => ?_
  refine walks_newBlock hx₁ h₁.site.ready fun whenTrue x₂ hx₂ h₂ ⟨hscopes₂, hstays₂⟩ => ?_
  refine walks_newBlock hx₂ h₂.ready fun done x₃ hx₃ h₃ ⟨hscopes₃, hstays₃⟩ => ?_
  replace hbit := (h₂.trans h₃).has hbit
  have hscopes : x₃.scopes = x.scopes := hscopes₃.trans (hscopes₂.trans h₁.scopes)
  have hlocal₃ : x₃.Local O ns :=
    hlocal.writes (h₁.site.steps.trans (h₂.trans h₃).steps) hscopes
  refine walks_jump hx₃ h₃.ready hbit.type hbit.one (by simp [Term.successors])
    fun x₄ hx₄ hready₄ hbranch => ?_
  refine walks_nested hx₄ hready₄ (fun _ hl => .inr hl) (hyes (hx₄.inner hready₄)
    (hlocal₃.codes hbranch.toCodes).enter (hready₄.innerWith _ _))
    fun y hx₅ hcodes hgoes hfollows => ?_
  refine (walks_mergeTo_last hx₅ (by simp)).weaken fun _ x' _ ⟨here, hmerge⟩ => ?_
  have hscopes₄ : x₄.scopes = x.scopes := hbranch.scopes.trans hscopes
  have hscopes' : x'.scopes = x.scopes := hmerge.scopes.trans hscopes₄
  refine ⟨hscopes', fun f n hf hle σ c hc => ?_⟩
  -- behind the statement control is at the start of the last block
  have hdone : ∀ σ c, Departs f x.scopes.inner done σ c → f.Reaches 0 c (x'.body.Matches f σ) :=
    fun σ c h => h.matches (b := x.body) (hmerge.starts done rfl) hscopes'
  dsimp only
  rw [exec]
  refine (hdecides.tracks (n := n) hscopes (hstays₂.trans hstays₃) h₁.scopes (h₂.trans h₃).le
    hbranch hf (hcodes.le.trans (hmerge.le.trans hle)) hc).bind fun σ go c hgo => ?_
  cases go with
  | false => exact hdone σ c hgo
  | true =>
    refine Func.Reaches.tracks hgo fun c hc => tracks_lands (hfollows.nested (n := n) hgoes hmerge
      hbranch.starts (congrArg Scopes.inner hscopes₄) hf hle hc) (fun σ c h => hdone σ c h.2)
      fun k σ c h => h.tail

/-- One of two statements, by a condition. -/
theorem follows_ifElse {pos : Pos} {e : Expr} {yes no : Stmt} (he : isInt ns e = true)
    (hyes : Followed O Γ loop ([] :: ns) yes) (hno : Followed O Γ loop ([] :: ns) no)
    (hx : x.Within O ρ .int loop) (hlocal : x.Local O ns) (hready : x.site.Ready ρ) :
    Walks O ρ (stmt Γ .int loop (.ifElse pos e yes no)) x fun _ x' => x'.scopes = x.scopes ∧
      x.Follows loop (fun n => exec n (.ifElse pos e yes no)) x' := by
  unfold stmt
  refine walks_lowers hx.stage hready (simulates_condition he hlocal)
    fun bit x₁ hx₁ h₁ ⟨hbit, hdecides⟩ => ?_
  refine walks_newBlock hx₁ h₁.site.ready fun whenTrue x₂ hx₂ h₂ ⟨hscopes₂, hstays₂⟩ => ?_
  refine walks_newBlock hx₂ h₂.ready fun whenFalse x₃ hx₃ h₃ ⟨hscopes₃, hstays₃⟩ => ?_
  refine walks_newBlock hx₃ h₃.ready fun done x₄ hx₄ h₄ ⟨hscopes₄, hstays₄⟩ => ?_
  have h₂₄ := (h₂.trans h₃).trans h₄
  replace hbit := h₂₄.has hbit
  have hscopes : x₄.scopes = x.scopes :=
    hscopes₄.trans (hscopes₃.trans (hscopes₂.trans h₁.scopes))
  have hlocal₄ : x₄.Local O ns := hlocal.writes (h₁.site.steps.trans h₂₄.steps) hscopes
  refine walks_jump hx₄ h₄.ready hbit.type hbit.one (by simp [Term.successors])
    fun x₅ hx₅ hready₅ hbranch => ?_
  have hlocal₅ := hlocal₄.codes hbranch.toCodes
  refine walks_nested hx₅ hready₅ (fun _ hl => .inr hl) (hyes (hx₅.inner hready₅) hlocal₅.enter
    (hready₅.innerWith _ _)) fun y hx₆ hcodes hgoes hfollows => ?_
  refine walks_merge hx₆ (by simp) (fun _ => .inl rfl) fun merged x₇ hx₇ hplan₇ hmerge => ?_
  obtain ⟨hplan₇, hready₇⟩ := hplan₇ rfl
  have hlocal₇ := (hlocal₅.codes hcodes).codes hmerge.toCodes
  refine walks_nested ⟨hx₇, hplan₇⟩ hready₇ (fun _ hl => .inr hl) (hno (hx₇.inner hready₇)
    hlocal₇.enter (hready₇.innerWith _ _)) fun z hx₈ hcodes' hgoes' hfollows' => ?_
  refine (walks_merge_last hx₈ (by simp) fun merged' => ?_).weaken
    fun _ x' _ ⟨merged', hmerge'⟩ => ?_
  · split
    · exact .inl rfl
    · exact .inr rfl
  have hscopes₅ : x₅.scopes = x.scopes := hbranch.scopes.trans hscopes
  have hscopes₇ : x₇.scopes = x.scopes := hmerge.scopes.trans hscopes₅
  have hscopes' : x'.scopes = x.scopes := hmerge'.scopes.trans hscopes₇
  refine ⟨hscopes', fun f n hf hle σ c hc => ?_⟩
  have hle₇ : x₇.site.func.Le f := hcodes'.le.trans (hmerge'.le.trans hle)
  -- control comes behind the statements only if there is a point
  have hdone : ∀ σ c, (merged || merged') = true → Departs f x.scopes.inner done σ c →
      f.Reaches 0 c (x'.body.Matches f σ) := fun σ c hhere h =>
    h.matches (b := x.body) (hmerge'.starts done (if_pos hhere)) hscopes'
  dsimp only
  rw [exec]
  refine (hdecides.tracks (n := n) hscopes ((hstays₂.trans hstays₃).trans hstays₄) h₁.scopes
    h₂₄.le hbranch hf (hcodes.le.trans (hmerge.le.trans hle₇)) hc).bind fun σ go c hgo => ?_
  cases go with
  | true =>
    exact Func.Reaches.tracks hgo fun c hc => tracks_lands (hfollows.nested (n := n) hgoes hmerge
      hbranch.starts (congrArg Scopes.inner hscopes₅) hf hle₇ hc)
      (fun σ c h => hdone σ c (by simp [h.1]) h.2) fun k σ c h => h.tail
  | false =>
    exact Func.Reaches.tracks hgo fun c hc => tracks_lands (hfollows'.nested (n := n) hgoes' hmerge'
      (hmerge.starts whenFalse rfl) (congrArg Scopes.inner hscopes₇) hf hle hc)
      (fun σ c h => hdone σ c (by simp [h.1]) h.2) fun k σ c h => h.tail

/-- A loop that tests first. -/
theorem follows_whileLoop {pos : Pos} {e : Expr} {body : Stmt} (he : isInt ns e = true)
    (hbody : ∀ loop, Followed O Γ loop ([] :: ns) body) (hx : x.Within O ρ .int loop)
    (hlocal : x.Local O ns) (hready : x.site.Ready ρ) :
    Walks O ρ (stmt Γ .int loop (.whileLoop pos e body)) x fun _ x' => x'.scopes = x.scopes ∧
      x.Follows loop (fun n => exec n (.whileLoop pos e body)) x' := by
  unfold stmt
  refine walks_newBlock hx.stage hready fun head x₁ hx₁ h₁ ⟨hscopes₁, hstays₁⟩ => ?_
  refine walks_newBlock hx₁ h₁.ready fun round x₂ hx₂ h₂ ⟨hscopes₂, hstays₂⟩ => ?_
  refine walks_newBlock hx₂ h₂.ready fun leave x₃ hx₃ h₃ ⟨hscopes₃, hstays₃⟩ => ?_
  have h₁₃ := (h₁.trans h₂).trans h₃
  have hscopes : x₃.scopes = x.scopes := hscopes₃.trans (hscopes₂.trans hscopes₁)
  have hlocal₃ : x₃.Local O ns := hlocal.writes h₁₃.steps hscopes
  refine walks_jump hx₃ h₃.ready trivial (fun _ h => by cases h) (by simp [Term.successors])
    fun x₄ hx₄ hready₄ hbranch => ?_
  have hlocal₄ := hlocal₃.codes hbranch.toCodes
  refine walks_loopTest hx₄ hready₄ (fun e' he' => simulates_condition
    (Option.some.inj he' ▸ he) hlocal₄) (by simp) (by simp) fun x₅ hx₅ hready₅ htests => ?_
  have hlocal₅ := hlocal₄.codes htests.codes
  refine walks_nested hx₅ hready₅ ?_ (hbody _
    (hx₅.round hready₅ (hx₅.plan.landing (k := leave) (by simp))
      (hx₅.plan.landing (k := head) (by simp)))
    hlocal₅.enter (hready₅.innerWith _ _)) fun y hx₆ hcodes hgoes hfollows => ?_
  · rintro _ (rfl | rfl) <;> exact .inl (hx₅.plan.isNew _ (by simp))
  refine (walks_mergeTo_last hx₆ (by simp)).weaken fun _ x' _ ⟨here, hmerge⟩ => ?_
  have hscopes₄ : x₄.scopes = x.scopes := hbranch.scopes.trans hscopes
  have hscopes₅ : x₅.scopes = x.scopes := htests.codes.scopes.trans hscopes₄
  have hscopes' : x'.scopes = x.scopes := hmerge.scopes.trans hscopes₅
  refine ⟨hscopes', fun f n hf hle σ c hc => ?_⟩
  have hle₅ : x₅.site.func.Le f := hcodes.le.trans (hmerge.le.trans hle)
  have hle₄ : x₄.site.func.Le f := htests.codes.le.trans hle₅
  dsimp only
  rw [exec]
  -- to the head of the loop
  have hc₃ : x₃.body.Matches f σ c := hc.stays ((hstays₁.trans hstays₂).trans hstays₃) hscopes
  have hhead : Departs f x.scopes.inner head σ c := hscopes ▸ hbranch.departs hf hle₄ hc₃
  have htest : ∀ σ c, Arrives f head x.scopes.inner σ c → f.Tracks n c
      (fun σ go => Departs f x.scopes.inner (if go then round else leave) σ)
      (goesOn (some e) σ) := fun σ c hc =>
    hscopes₄ ▸ htests.tracks hf hle₅ (hc.matches hbranch.starts (congrArg Scopes.inner hscopes₄))
  have hround : ∀ σ c, Arrives f round x.scopes.inner σ c → f.Tracks n c
      (Lands f (some { leave, next := head }) (Departs f x.scopes.inner head)
        (Departs f x.scopes.inner)) (inBlock (exec n body) σ) := fun σ c hc =>
    tracks_lands (hfollows.nested hgoes hmerge htests.starts (congrArg Scopes.inner hscopes₅)
      hf hle hc) (fun σ c h => .here h.2) fun k σ c h => h
  exact tracks_lands (tracks_testedLoop htest hround (fun σ c h => .here h) hhead)
    (fun σ c h => h.matches (b := x.body) (hmerge.starts leave rfl) hscopes') fun k σ c h => h

/-- A loop that tests last. -/
theorem follows_doLoop {pos : Pos} {body : Stmt} {e : Expr} (he : isInt ns e = true)
    (hbody : ∀ loop, Followed O Γ loop ([] :: ns) body) (hx : x.Within O ρ .int loop)
    (hlocal : x.Local O ns) (hready : x.site.Ready ρ) :
    Walks O ρ (stmt Γ .int loop (.doLoop pos body e)) x fun _ x' => x'.scopes = x.scopes ∧
      x.Follows loop (fun n => exec n (.doLoop pos body e)) x' := by
  unfold stmt
  refine walks_newBlock hx.stage hready fun round x₁ hx₁ h₁ ⟨hscopes₁, hstays₁⟩ => ?_
  refine walks_newBlock hx₁ h₁.ready fun next x₂ hx₂ h₂ ⟨hscopes₂, hstays₂⟩ => ?_
  refine walks_newBlock hx₂ h₂.ready fun leave x₃ hx₃ h₃ ⟨hscopes₃, hstays₃⟩ => ?_
  have h₁₃ := (h₁.trans h₂).trans h₃
  have hscopes : x₃.scopes = x.scopes := hscopes₃.trans (hscopes₂.trans hscopes₁)
  have hlocal₃ : x₃.Local O ns := hlocal.writes h₁₃.steps hscopes
  refine walks_jump hx₃ h₃.ready trivial (fun _ h => by cases h) (by simp [Term.successors])
    fun x₄ hx₄ hready₄ hbranch => ?_
  have hlocal₄ := hlocal₃.codes hbranch.toCodes
  refine walks_nested hx₄ hready₄ ?_ (hbody _
    (hx₄.round hready₄ (hx₄.plan.landing (k := leave) (by simp))
      (hx₄.plan.landing (k := next) (by simp)))
    hlocal₄.enter (hready₄.innerWith _ _)) fun y hx₅ hcodes hgoes hfollows => ?_
  · rintro _ (rfl | rfl) <;> exact .inl (hx₄.plan.isNew _ (by simp))
  refine walks_mergeTo hx₅ (by simp) fun x₆ here hx₆ hready₆ hmerge => ?_
  have hlocal₆ := (hlocal₄.codes hcodes).codes hmerge.toCodes
  refine (walks_loopTest_last hx₆ hready₆ (fun e' he' => simulates_condition
    (Option.some.inj he' ▸ he) hlocal₆) (by simp) (by simp)).weaken fun _ x' _ htests => ?_
  have hscopes₄ : x₄.scopes = x.scopes := hbranch.scopes.trans hscopes
  have hscopes₆ : x₆.scopes = x.scopes := hmerge.scopes.trans hscopes₄
  have hscopes' : x'.scopes = x.scopes := htests.codes.scopes.trans hscopes₆
  refine ⟨hscopes', fun f n hf hle σ c hc => ?_⟩
  have hle₆ : x₆.site.func.Le f := htests.codes.le.trans hle
  have hle₄ : x₄.site.func.Le f := hcodes.le.trans (hmerge.le.trans hle₆)
  dsimp only
  rw [exec]
  -- to the first round of the loop
  have hc₃ : x₃.body.Matches f σ c := hc.stays ((hstays₁.trans hstays₂).trans hstays₃) hscopes
  have hhead : Departs f x.scopes.inner round σ c := hscopes ▸ hbranch.departs hf hle₄ hc₃
  have hround : ∀ σ c, Arrives f round x.scopes.inner σ c → f.Tracks n c
      (Lands f (some { leave, next }) (Departs f x.scopes.inner next) (Departs f x.scopes.inner))
      (inBlock (exec n body) σ) := fun σ c hc =>
    tracks_lands (hfollows.nested hgoes hmerge hbranch.starts (congrArg Scopes.inner hscopes₄)
      hf hle₆ hc) (fun σ c h => .here h.2) fun k σ c h => h
  have htest : ∀ σ c, Departs f x.scopes.inner next σ c → f.Tracks n c
      (fun σ go => Departs f x.scopes.inner (if go then round else leave) σ) (test e σ) :=
    fun σ c hc => Func.Reaches.tracks
      (hc.matches (b := x.body) (hmerge.starts next rfl) hscopes₆)
      fun c hc => hscopes₆ ▸ htests.tracks hf hle hc
  exact tracks_lands (tracks_testingLoop hround htest hhead)
    (fun σ c h => h.matches (b := x.body) htests.starts hscopes') fun k σ c h => h

/-- The step of a counting loop, and the way back to its head. -/
theorem walks_postlude {post : Option Expr} {head leave : Label} {past coming : List Label}
    (hpost : post.all (isInt ns) = true) (hx : x.Stage O ρ .int loop past (leave :: coming))
    (hlocal : x.Local O ns) (hready : x.site.Ready ρ) (hhead : head ∈ past) :
    Walks O ρ (do
      if let some post := post then discard (expr Γ post)
      emit (Emit.br head >>= fun _ => Emit.setPoint (some leave))) x fun _ x' =>
        x.Codes O ρ x' ∧ x'.site.draft.Starts leave ∧ ∀ f n σ c, f.Executable →
          x'.site.func.Le f → x.body.Matches f σ c → f.Tracks n c
            (fun σ (_ : Unit) => Departs f x.scopes.inner head σ)
            ((postlude post σ).map fun σ => (σ, ())) := by
  have hback : ∀ x₁, x₁.Stage O ρ .int loop past (leave :: coming) → x₁.site.Ready ρ →
      Walks O ρ (emit (Emit.br head >>= fun _ => Emit.setPoint (some leave))) x₁
        fun _ x' => x₁.Branches O ρ (.br head) leave x' := fun x₁ hx₁ hready₁ =>
    walks_jump_last hx₁ hready₁ trivial (fun _ h => by cases h)
      (by simp [Term.successors, hhead])
  cases post with
  | none =>
    refine (hback x hx hready).weaken fun _ x' _ hbranch =>
      ⟨hbranch.toCodes, hbranch.starts, fun f n σ c hf hle hc => ?_⟩
    exact .here (hbranch.departs hf hle hc)
  | some e =>
    dsimp only
    rw [discard_bind]
    refine walks_lowers hx hready (simulates_expr e hpost hlocal) fun a x₁ hx₁ h₁ ha => ?_
    refine (hback x₁ hx₁ h₁.site.ready).weaken fun _ x' _ hbranch =>
      ⟨⟨h₁.site.steps.trans hbranch.writes, hbranch.scopes.trans h₁.scopes⟩, hbranch.starts,
        fun f n σ c hf hle hc => ?_⟩
    have hstep := (ha.2.tracks (n := n) hf (hbranch.le.trans hle) hc trivial).map
      (k := fun p => (p.1, ())) (R := fun σ _ => Departs f x.scopes.inner head σ)
      fun σ r c' hc' => h₁.scopes ▸ hbranch.departs hf hle hc'.1
    rw [postlude, Option.map_map]
    exact hstep

/-- A counting loop, behind what it does first. -/
theorem follows_counting {c : Option Expr} {post : Option Expr} {body : Stmt}
    (hc : c.all (isInt ns) = true) (hpost : post.all (isInt ns) = true)
    (hbody : ∀ loop, Followed O Γ loop ([] :: ns) body) (hx : x.Within O ρ .int loop)
    (hlocal : x.Local O ns) (hready : x.site.Ready ρ) :
    Walks O ρ (do
      let head ← emit (Emit.newBlock "for.cond")
      let round ← emit (Emit.newBlock "for.body")
      let next ← emit (Emit.newBlock "for.inc")
      let leave ← emit (Emit.newBlock "for.end")
      emit do
        Emit.br head
        Emit.setPoint (some head)
      loopTest Γ c round leave
      emit (Emit.setPoint (some round))
      inScope (stmt Γ .int (some { leave, next }) body)
      discard (brIfReachable next)
      emit (Emit.setPoint (some next))
      if let some post := post then discard (expr Γ post)
      emit do
        Emit.br head
        Emit.setPoint (some leave)) x fun _ x' => x.Follows loop
          (fun n => rounds (testedRound c (inBlock (exec n body)) (postlude post)) n) x' := by
  refine walks_newBlock hx.stage hready fun head x₁ hx₁ h₁ ⟨hscopes₁, hstays₁⟩ => ?_
  refine walks_newBlock hx₁ h₁.ready fun round x₂ hx₂ h₂ ⟨hscopes₂, hstays₂⟩ => ?_
  refine walks_newBlock hx₂ h₂.ready fun next x₃ hx₃ h₃ ⟨hscopes₃, hstays₃⟩ => ?_
  refine walks_newBlock hx₃ h₃.ready fun leave x₄ hx₄ h₄ ⟨hscopes₄, hstays₄⟩ => ?_
  have h₁₄ := ((h₁.trans h₂).trans h₃).trans h₄
  have hscopes : x₄.scopes = x.scopes :=
    hscopes₄.trans (hscopes₃.trans (hscopes₂.trans hscopes₁))
  have hlocal₄ : x₄.Local O ns := hlocal.writes h₁₄.steps hscopes
  refine walks_jump hx₄ h₄.ready trivial (fun _ h => by cases h) (by simp [Term.successors])
    fun x₅ hx₅ hready₅ hbranch => ?_
  have hlocal₅ := hlocal₄.codes hbranch.toCodes
  refine walks_loopTest hx₅ hready₅ (fun e he => simulates_condition
    (by simpa [he] using hc) hlocal₅) (by simp) (by simp) fun x₆ hx₆ hready₆ htests => ?_
  have hlocal₆ := hlocal₅.codes htests.codes
  refine walks_nested hx₆ hready₆ ?_ (hbody _
    (hx₆.round hready₆ (hx₆.plan.landing (k := leave) (by simp))
      (hx₆.plan.landing (k := next) (by simp)))
    hlocal₆.enter (hready₆.innerWith _ _)) fun y hx₇ hcodes hgoes hfollows => ?_
  · rintro _ (rfl | rfl) <;> exact .inl (hx₆.plan.isNew _ (by simp))
  refine walks_mergeTo hx₇ (by simp) fun x₈ here hx₈ hready₈ hmerge => ?_
  have hlocal₈ := (hlocal₆.codes hcodes).codes hmerge.toCodes
  refine (walks_postlude hpost hx₈ hlocal₈ hready₈
    (show head ∈ [next, round, head] by simp)).weaken
    fun _ x' _ ⟨hcodes', hstarts, hback⟩ => fun f n hf hle σ c hc => ?_
  have hscopes₅ : x₅.scopes = x.scopes := hbranch.scopes.trans hscopes
  have hscopes₆ : x₆.scopes = x.scopes := htests.codes.scopes.trans hscopes₅
  have hscopes₈ : x₈.scopes = x.scopes := hmerge.scopes.trans hscopes₆
  have hle₈ : x₈.site.func.Le f := hcodes'.le.trans hle
  have hle₆ : x₆.site.func.Le f := hcodes.le.trans (hmerge.le.trans hle₈)
  have hle₅ : x₅.site.func.Le f := htests.codes.le.trans hle₆
  -- to the head of the loop
  have hc₄ : x₄.body.Matches f σ c :=
    hc.stays (((hstays₁.trans hstays₂).trans hstays₃).trans hstays₄) hscopes
  have hhead : Departs f x.scopes.inner head σ c := hscopes ▸ hbranch.departs hf hle₅ hc₄
  have htest : ∀ σ c', Arrives f head x.scopes.inner σ c' → f.Tracks n c'
      (fun σ go => Departs f x.scopes.inner (if go then round else leave) σ)
      (goesOn _ σ) := fun σ c' hc' =>
    hscopes₅ ▸ htests.tracks hf hle₆ (hc'.matches hbranch.starts (congrArg Scopes.inner hscopes₅))
  have hround : ∀ σ c', Arrives f round x.scopes.inner σ c' → f.Tracks n c'
      (Lands f (some { leave, next }) (Departs f x.scopes.inner next) (Departs f x.scopes.inner))
      (inBlock (exec n body) σ) := fun σ c' hc' =>
    tracks_lands (hfollows.nested hgoes hmerge htests.starts (congrArg Scopes.inner hscopes₆)
      hf hle₈ hc') (fun σ c h => .here h.2) fun k σ c h => h
  have hstep : ∀ σ c', Departs f x.scopes.inner next σ c' → f.Tracks n c'
      (fun σ (_ : Unit) => Departs f x.scopes.inner head σ)
      ((postlude post σ).map fun σ => (σ, ())) := fun σ c' hc' =>
    Func.Reaches.tracks (hc'.matches (b := x.body) (hmerge.starts next rfl) hscopes₈)
      fun c' hc' => hscopes₈ ▸ hback f n σ c' hf hle hc'
  exact tracks_lands (tracks_testedLoop htest hround hstep hhead)
    (fun σ c h => h.matches (b := x.body) hstarts (hcodes'.scopes.trans hscopes₈)) fun k σ c h => h

/-- What comes behind code that always ends. -/
theorem Walk.Follows.behind {y : Walk} {act : Store → Option Store} (h : y.Follows loop m x')
    (hgoes : x.Goes O ρ y) (hle : y.site.func.Le x'.site.func)
    (hact : x.body.Simulates y.body (fun _ => True) (fun σ => (act σ).map fun σ => (σ, ()))
      fun _ _ => True) : x.Follows loop (fun n σ => (act σ).bind (m n)) x' := by
  intro f n hf hle' σ c hc
  have htracks := (hact.tracks (n := n) hf (hle.trans hle') hc trivial).bind
    (k := fun p => m n p.1) fun σ _ c hc => h f n hf hle' σ c hc.1
  simp only [tail_extends hgoes.scopes, Option.bind_map] at htracks
  exact htracks

/-- What is in a scope of its own. -/
theorem Walk.Follows.inScope {y : Walk} (h : x.enter.Follows loop m y)
    (hgoes : x.enter.Goes O ρ y) : x.Follows loop (fun n => inBlock (m n)) (x.exit y) := by
  intro f n hf hle σ c hc
  exact tracks_lands ((h f n hf hle).inBlock (tail_extends hgoes.scopes) hc)
    (fun σ c hc => .here hc) fun k σ c hgo => hgo.tail

/-- A counting loop. -/
theorem follows_forLoop {pos : Pos} {init : ForInit} {e post : Option Expr} {body : Stmt}
    (hinit : isIntInit ([] :: ns) init = true)
    (he : e.all (isInt (namesAfterInit ([] :: ns) init)) = true)
    (hpost : post.all (isInt (namesAfterInit ([] :: ns) init)) = true)
    (hbody : ∀ loop, Followed O Γ loop ([] :: namesAfterInit ([] :: ns) init) body)
    (hx : x.Within O ρ .int loop) (hlocal : x.Local O ns) (hready : x.site.Ready ρ) :
    Walks O ρ (stmt Γ .int loop (.forLoop pos init e post body)) x fun _ x' =>
      x'.scopes = x.scopes ∧
        x.Follows loop (fun n => exec n (.forLoop pos init e post body)) x' := by
  unfold stmt
  refine (walks_inScope (P := fun _ y => x.enter.Follows loop (fun n σ => (begin init σ).bind
    (rounds (testedRound e (inBlock (exec n body)) (postlude post)) n)) y) ?_).weaken
    fun _ x' _ ⟨y, hgoes, hfollows, heq⟩ => ?_
  · refine Walks.bind (simulates_forInit hinit hlocal.enter (by simp) hready hx.declares)
      fun _ x₁ hgoes₁ ⟨hready₁, hlocal₁, hsim⟩ => ?_
    exact (follows_counting he hpost hbody (hx.enter.goes hgoes₁) hlocal₁ hready₁).weaken
      fun _ x₂ hgoes₂ hrounds => hrounds.behind hgoes₁ hgoes₂.le hsim
  · subst heq
    refine ⟨rfl, fun f n hf hle σ c hc => ?_⟩
    dsimp only
    rw [exec]
    exact hfollows.inScope hgoes f n hf hle σ c hc

/-- A statement, and those behind it. -/
theorem Walk.Follows.cons {y : Walk} {st : Stmt} {ss : List Stmt}
    (h : x.Follows loop (fun n => exec n st) y) (hrest : y.Follows loop (fun n => execs n ss) x')
    (hgoes : x.Goes O ρ y) (hle : y.site.func.Le x'.site.func) :
    x.Follows loop (fun n => execs n (st :: ss)) x' := by
  intro f n hf hle' σ c hc
  dsimp only
  rw [execs]
  refine (h f n hf (hle.trans hle') σ c hc).bind fun σ e c he => ?_
  cases e with
  | done =>
    have hfollows := hrest f n hf hle' σ c he
    rw [tail_extends hgoes.scopes] at hfollows
    exact hfollows
  | _ => exact .here he

/-- A statement that declares nothing. -/
theorem Walks.undeclared {act : Lower Unit} (hlocal : x.Local O ns)
    (h : Walks O ρ act x fun _ x' => x'.scopes = x.scopes ∧ x.Follows loop m x') :
    Walks O ρ act x fun _ x' => x'.Local O ns ∧ x.Follows loop m x' :=
  h.weaken fun _ _ hgoes ⟨hscopes, hfollows⟩ => ⟨hlocal.writes hgoes.writes hscopes, hfollows⟩

end

theorem namesAfter_ne_nil {ns : Names} (h : ns ≠ []) (st : Stmt) : namesAfter ns st ≠ [] := by
  cases st with
  | var d =>
    rcases ns with _ | ⟨frame, ns⟩ <;> simp [namesAfter, Names.declare]
  | _ => exact h

mutual

/-- The walk over a statement writes code that follows its meaning. -/
theorem follows_stmt : ∀ (st : Stmt) {ns : Names} {ρ : Realm} {x : Walk} {loop : Option Loop},
    isIntStmt ns st = true → ns ≠ [] → x.Within O ρ .int loop → x.Local O ns → x.site.Ready ρ →
    Walks O ρ (stmt Γ .int loop st) x fun _ x' =>
      x'.Local O (namesAfter ns st) ∧ x.Follows loop (fun n => exec n st) x'
  | .empty _, ns, ρ, x, loop, _, hns, hx, hlocal, hready => by
    unfold stmt
    refine Walks.pure ⟨hlocal, fun f n _ _ σ c hc => ?_⟩
    dsimp only
    rw [exec]
    exact .here hc
  | .expr e, ns, ρ, x, loop, h, hns, hx, hlocal, hready => by
    rw [isIntStmt] at h
    unfold stmt
    refine Walks.discard ((simulates_expr e h hlocal hready).weaken fun a x' _ ⟨hlead, ha⟩ =>
      ⟨hlocal.leads hlead, .of_simulates ha.2 fun n σ => ?_⟩)
    rw [exec]
  | .var d, ns, ρ, x, loop, h, hns, hx, hlocal, hready => by
    rw [isIntStmt] at h
    unfold stmt
    refine (simulates_varDecl h hlocal hns hready hx.declares).weaken
      fun _ x' _ ⟨_, hlocal', hsim⟩ => ⟨hlocal', .of_simulates hsim fun n σ => ?_⟩
    rw [exec, Option.map_map]
    rfl
  | .block pos body, ns, ρ, x, loop, h, hns, hx, hlocal, hready => by
    rw [isIntStmt] at h
    unfold stmt
    refine .undeclared hlocal ((walks_inScope (follows_stmts body h (by simp) hx.enter
      hlocal.enter)).weaken fun _ x' _ ⟨y, hgoes, hfollows, heq⟩ => ?_)
    subst heq
    refine ⟨rfl, fun f n hf hle σ c hc => ?_⟩
    dsimp only
    rw [exec]
    exact hfollows.inScope hgoes f n hf hle σ c hc
  | .ifThen pos e yes, ns, ρ, x, loop, h, hns, hx, hlocal, hready => by
    simp only [isIntStmt, Bool.and_eq_true] at h
    exact .undeclared hlocal (follows_ifThen h.1
      (Followed.of_walks (follows_stmt yes h.2 (by simp))) hx hlocal hready)
  | .ifElse pos e yes no, ns, ρ, x, loop, h, hns, hx, hlocal, hready => by
    simp only [isIntStmt, Bool.and_eq_true] at h
    exact .undeclared hlocal
      (follows_ifElse h.1.1 (Followed.of_walks (follows_stmt yes h.1.2 (by simp)))
        (Followed.of_walks (follows_stmt no h.2 (by simp))) hx hlocal hready)
  | .forLoop pos init e post body, ns, ρ, x, loop, h, hns, hx, hlocal, hready => by
    simp only [isIntStmt, Bool.and_eq_true] at h
    exact .undeclared hlocal
      (follows_forLoop h.1 h.2.1 h.2.2.1
        (fun _ => Followed.of_walks (follows_stmt body h.2.2.2 (by simp))) hx hlocal hready)
  | .whileLoop pos e body, ns, ρ, x, loop, h, hns, hx, hlocal, hready => by
    simp only [isIntStmt, Bool.and_eq_true] at h
    exact .undeclared hlocal
      (follows_whileLoop h.1 (fun _ => Followed.of_walks (follows_stmt body h.2 (by simp)))
        hx hlocal hready)
  | .doLoop pos body e, ns, ρ, x, loop, h, hns, hx, hlocal, hready => by
    simp only [isIntStmt, Bool.and_eq_true] at h
    exact .undeclared hlocal (follows_doLoop h.2
      (fun _ => Followed.of_walks (follows_stmt body h.1 (by simp))) hx hlocal hready)
  | .branch pos token, ns, ρ, x, loop, _, hns, hx, hlocal, hready => by
    unfold stmt
    exact .undeclared hlocal (follows_branchTo hx hready)
  | .ret pos result, ns, ρ, x, loop, h, hns, hx, hlocal, hready => by
    rw [isIntStmt] at h
    unfold stmt
    exact .undeclared hlocal (follows_returnFrom h hx hlocal hready)

theorem follows_stmts : ∀ (ss : List Stmt) {ns : Names} {ρ : Realm} {x : Walk}
    {loop : Option Loop}, areIntStmts ns ss = true → ns ≠ [] → x.Within O ρ .int loop →
    x.Local O ns →
    Walks O ρ (stmts Γ .int loop ss) x fun _ x' => x.Follows loop (fun n => execs n ss) x'
  | [], ns, ρ, x, loop, _, hns, hx, hlocal => by
    unfold stmts
    refine Walks.pure fun f n _ _ σ c hc => ?_
    dsimp only
    rw [execs]
    exact .here hc
  | st :: ss, ns, ρ, x, loop, h, hns, hx, hlocal => by
    simp only [areIntStmts, Bool.and_eq_true] at h
    unfold stmts
    refine Walks.ifReachable hx.sane (fun hready => ?_) .unreached
    refine Walks.bind (follows_stmt st h.1 hns hx hlocal hready)
      fun _ x₁ hgoes ⟨hlocal₁, hfollows⟩ => ?_
    exact (follows_stmts ss h.2 (namesAfter_ne_nil hns st) (hx.goes hgoes) hlocal₁).weaken
      fun _ x' hgoes' hrest => hfollows.cons hrest hgoes hgoes'.le

end

end Shader.Lowering
