import Mathlib.Data.List.DropRight
import Shader.Proofs.Semantics.Operators

/-!
# Integer expressions keep their meaning

The code for an expression over integer variables simulates its meaning.
-/

namespace Shader.Lowering

open Ir Meaning

variable {O : Outside} {ρ : Realm} {ns : Names} {x x' : Walk}

/-- A logical operator that may skip its second operand does so exactly if the first one has the
value `skip`. -/
theorem Detour.simulates {R : Walk → Value → Walk → Prop} {lc v : Value} {skip : Bool}
    {m : Store → Option (Store × Bool)}
    (h : Detour R (fun more done => if skip then .condBr lc done more else .condBr lc more done)
      lc x v x')
    (hR : ∀ y rc y', R y rc y' → y.body.Simulates y'.body (fun _ => True) m fun t c =>
      c.value rc = some (.bit t)) (hscopes : x'.scopes = x.scopes) (first : Bool) :
    x.body.Simulates x'.body (fun c => c.value lc = some (.bit first))
      (fun σ => if first = skip then some (σ, Found.value (ofBool first))
        else (m σ).map fun p => (p.1, Found.value (ofBool p.2)))
      fun found c => ∃ w, found = .value w ∧ c.value v = some (.word w) := by
  obtain @⟨x₁, x₂, x₃, d, more, done, l, k, rc, u, h₁, h₂, h₃, hl, hbranch, hstart, hwalk, hk,
    hapart, hmerge, hlanding, hphi, hresult, hle₄, hle₅⟩ := h
  -- where both ways meet, a bit is chosen and becomes an integer
  let b₄ : Body := { x₃.body with draft := d }
  replace hresult : b₄.draft.Puts (.cast .zext u .i32) v x'.body.draft := hresult
  have hscopes₃ : x₃.scopes = x.scopes := h₃.scopes.trans (h₂.scopes.trans h₁.scopes)
  have hend : ∀ {j : Label} {i : Value × Label} (t : Bool),
      ([(lc, l), (rc, k)].find? fun i => i.2 = j) = some i →
      x₃.body.Simulates x'.body
        (fun c' => ∃ c, c.value i.1 = some (.bit t) ∧ Config.From j c c')
        (fun σ => some (σ, Found.value (ofBool t)))
        fun found c => ∃ w, found = .value w ∧ c.value v = some (.word w) := by
    intro j i t hi
    have hchoose : x₃.body.Simulates b₄
        (fun c' => ∃ c, c.value i.1 = some (.bit t) ∧ Config.From j c c')
        (fun σ => some (σ, ())) fun r c => r = () ∧ c.value u = some (.bit t) := by
      refine .put hphi ?_ rfl (fun c' hc => ?_) ()
      · rfl
      · obtain ⟨c, hbit, hfrom⟩ := hc
        exact hfrom.outcome_phi hi hbit
    have hword : b₄.Simulates x'.body (fun c => c.value u = some (.bit t))
        (fun σ => some (σ, Found.value (ofBool t)))
        fun found c => ∃ w, found = .value w ∧ c.value v = some (.word w) := by
      have hput : b₄.Simulates x'.body (fun c => c.value u = some (.bit t))
          (fun σ => some (σ, Found.value (ofBool t)))
          fun found c => found = .value (ofBool t) ∧ c.value v = some (.word (ofBool t)) := by
        refine .put hresult (hscopes.trans hscopes₃.symm) rfl (fun c hbit => ?_) _
        simp only [Inst.outcome, hbit]
        rfl
      exact hput.weaken (fun _ h => h) (fun _ => rfl) fun _ c h => ⟨_, h⟩
    exact hchoose.after hle₄ hle₅ (hword.weaken (fun _ h => h.2) (fun _ => rfl) fun _ _ h => h)
  have hle : ∀ {y : Walk}, y.site.func.Le x₃.site.func → y.site.func.Le x'.site.func :=
    fun h => h.trans (hle₄.trans hle₅)
  by_cases hskip : first = skip
  · -- the second operand is skipped
    have hgo : x.body.Simulates x₃.body (fun c => c.value lc = some (.bit first))
        (fun σ => some (σ, ())) fun r c' =>
          r = () ∧ ∃ c, c.value lc = some (.bit first) ∧ Config.From l c c' := by
      refine .goes hbranch (h₂.le.trans h₃.le) hl ?_ (fun f c hbit => ?_) hlanding hscopes₃ ()
      · cases skip <;> simp [Term.successors]
      · subst hskip
        cases first <;> simp [Func.follow, hbit]
    refine ((hgo.after (h₁.le.trans (h₂.le.trans h₃.le)) (hle₄.trans hle₅)
      ((hend first (j := l) (i := (lc, l)) (by simp)).weaken (fun c' h => h.2) (fun _ => rfl)
        fun _ _ h => h))).weaken (fun _ h => h) (fun σ => ?_) fun _ _ h => h
    rw [if_pos hskip]
  -- the second operand decides, and its own bit is chosen where the ways meet
  · have hgo : x.body.Simulates x₁.body (fun c => c.value lc = some (.bit first))
        (fun σ => some (σ, ())) fun r c' =>
          r = () ∧ ∃ c, c.value lc = some (.bit first) ∧ Config.From l c c' := by
      refine .goes hbranch (.refl _) hl ?_ (fun f c hbit => ?_) hstart h₁.scopes ()
      · cases skip <;> simp [Term.successors]
      · obtain rfl := Bool.eq_not.2 hskip
        cases skip <;> simp [Func.follow, hbit]
    have hmore := (hR _ _ _ hwalk).bind h₂.le (hle (h₃.le)) fun t =>
      (Body.Simulates.goes (P := fun c => c.value rc = some (.bit t)) hmerge (.refl _) hk
        (List.mem_singleton.2 rfl) (fun _ _ _ => rfl) hlanding h₃.scopes ()).after h₃.le
        (hle₄.trans hle₅) ((hend t (j := k) (i := (rc, k)) (by simp [hapart])).weaken
          (fun c' h => h.2) (fun _ => rfl) fun _ _ h => h)
    refine (hgo.after h₁.le (h₂.le.trans (hle h₃.le)) (hmore.weaken (fun _ _ => trivial)
      (fun _ => rfl) fun _ _ h => h)).weaken (fun _ h => h) (fun σ => ?_) fun _ _ h => h
    rw [if_neg hskip]
    rcases m σ with _ | ⟨σ, t⟩ <;> rfl

/-- A choice has the value of the alternative that is taken. -/
theorem Fork.simulates {R : Walk → Operand × Option Value → Walk → Prop}
    {R' : Operand → Walk → Option Value → Walk → Prop} {pos : Pos} {bit : Value} {a : Operand}
    {m m' : Store → Option (Store × BitVec 32)} (h : Fork R R' pos bit x a x')
    (hR : ∀ y first v y', R y (first, v) y' → (first.type = .int ∧ first.hasValue = true) ∧
      ∃ w, v = some w ∧ y.body.Simulates y'.body (fun _ => True) m fun r c =>
        c.value w = some (.word r))
    (hR' : ∀ first y v y', first.type = .int ∧ first.hasValue = true → R' first y v y' →
      ∃ w, v = some w ∧ y.body.Simulates y'.body (fun _ => True) m' fun r c =>
        c.value w = some (.word r)) (hscopes : x'.scopes = x.scopes) :
    ∃ u, a = .value pos .int u ∧ ∀ go, x.body.Simulates x'.body
      (fun c => c.value bit = some (.bit go))
      (fun σ => (if go then m σ else m' σ).map fun p => (p.1, Found.value p.2))
      fun found c => ∃ w, found = .value w ∧ c.value u = some (.word w) := by
  obtain @⟨x₁, x₂, x₃, x₄, x₅, whenTrue, whenFalse, done, l, k, first, v, v', h₁, h₂, h₃, h₄, h₅,
    hbranch, hstart, hwalk, hl, hmerge, hstart', hwalk', hk, hmerge', hapart, hlanding, hresult,
    hle₆⟩ := h
  obtain ⟨hfirst, w, rfl, hyes⟩ := hR _ _ _ _ hwalk
  obtain ⟨w', rfl, hno⟩ := hR' _ _ _ _ hfirst hwalk'
  obtain ⟨u, ha, hphi⟩ := hresult w w' rfl rfl
  rw [hfirst.1] at ha hphi
  have hscopes₃ : x₃.scopes = x.scopes := h₃.scopes.trans (h₂.scopes.trans h₁.scopes)
  have hscopes₅ : x₅.scopes = x.scopes := (h₅.scopes.trans h₄.scopes).trans hscopes₃
  obtain ⟨j, -, hj, -⟩ := id hbranch
  -- the way over one of the alternatives, to where both meet and its value is chosen
  have hroute : ∀ (go : Bool) {y y' : Walk} {d : Draft} {i : Label} {s : Value}
      {m₀ : Store → Option (Store × BitVec 32)}, x₁.site.func.Le y.site.func →
      y.site.draft.Starts (if go then whenTrue else whenFalse) → y.scopes = x.scopes →
      y.Onward y' → y'.site.point = some i → y'.site.draft.Closes (.br done) d →
      y'.site.func.Le x₅.site.func → d.func.Le x₅.site.func →
      ([(w, l), (w', k)].find? fun e => e.2 = i) = some (s, i) →
      (y.body.Simulates y'.body (fun _ => True) m₀ fun r c => c.value s = some (.word r)) →
      x.body.Simulates x'.body (fun c => c.value bit = some (.bit go))
        (fun σ => (m₀ σ).map fun p => (p.1, Found.value p.2))
        fun found c => ∃ r, found = .value r ∧ c.value u = some (.word r) := by
    intro go y y' d i s m₀ hle hstarts hscopes' hy hi hcloses hle' hled hfind hsim
    have hgo : x.body.Simulates y.body (fun c => c.value bit = some (.bit go))
        (fun σ => some (σ, ())) fun r c' =>
          r = () ∧ ∃ c, c.value bit = some (.bit go) ∧ Config.From j c c' := by
      refine .goes hbranch hle hj ?_ (fun f c hbit => ?_) hstarts hscopes' ()
      · cases go <;> simp [Term.successors]
      · simp [Func.follow, hbit]
    have hrest : ∀ r, y'.body.Simulates x'.body (fun c => c.value s = some (.word r))
        (fun σ => some (σ, Found.value r))
        fun found c => ∃ r', found = .value r' ∧ c.value u = some (.word r') := fun r => by
      have hmeet : y'.body.Simulates x₅.body (fun c => c.value s = some (.word r))
          (fun σ => some (σ, ())) fun r' c' =>
            r' = () ∧ ∃ c, c.value s = some (.word r) ∧ Config.From i c c' :=
        .goes hcloses hled hi (List.mem_singleton.2 rfl) (fun _ _ _ => rfl) hlanding
          (hscopes₅.trans (hy.scopes.trans hscopes').symm) ()
      have hend : x₅.body.Simulates x'.body
          (fun c' => ∃ c, c.value s = some (.word r) ∧ Config.From i c c')
          (fun σ => some (σ, Found.value r))
          fun found c => found = .value r ∧ c.value u = some (.word r) := by
        refine .put hphi (hscopes.trans hscopes₅.symm) rfl (fun c' hc => ?_) _
        obtain ⟨c, hr, hfrom⟩ := hc
        exact hfrom.outcome_phi hfind hr
      exact hmeet.after hle' hle₆ (hend.weaken (fun _ h => h.2) (fun _ => rfl) fun _ _ h => ⟨r, h⟩)
    refine (hgo.after (h₁.le.trans hle) (hy.le.trans (hle'.trans hle₆)) ((hsim.bind hy.le
      (hle'.trans hle₆) hrest).weaken (fun _ _ => trivial) (fun _ => rfl) fun _ _ h => h)).weaken
      (fun _ h => h) (fun σ => ?_) fun _ _ h => h
    rcases m₀ σ with _ | p <;> rfl
  refine ⟨u, ha, fun go => ?_⟩
  cases go with
  | true =>
    exact hroute true (.refl _) hstart h₁.scopes h₂ hl hmerge
      (h₃.le.trans (h₄.le.trans h₅.le)) (h₄.le.trans h₅.le) (by simp) hyes
  | false =>
    exact hroute false (h₂.le.trans h₃.le) hstart' hscopes₃ h₄ hk hmerge' h₅.le (.refl _)
      (by simp [hapart]) hno

/-- What the walk over an operand comes down to when it is taken only sometimes. -/
def Evaluates (O : Outside) (m : Store → Option (Store × Found)) (y : Walk) (r : Operand)
    (y' : Walk) : Prop :=
  r.IsInt O y' ∧ y.body.Simulates y'.body (fun _ => True) m fun found c => r.Means found c

/-- What the walk over an operand comes down to where the operand is taken as a condition. -/
def Judges (m : Store → Option (Store × Found)) (y : Walk) (bit : Value) (y' : Walk) : Prop :=
  y.body.Simulates y'.body (fun _ => True) (fun σ => do
    let (σ, b) ← m σ
    return (σ, ← truth b σ)) fun t c => c.value bit = some (.bit t)

/-- The walk over an operand, and what it is taken for as a condition. -/
theorem leading_truthOf {m : Store → Option (Store × Found)} {rhs : Lower Operand}
    (cause : DataType → Cause) (h : Leading O x rhs (Evaluates O m)) :
    Leading O x (rhs >>= truthOf cause) fun y rc y' => y'.site.Has O rc .i1 ∧
      Judges m y rc y' := by
  refine h.bind fun ρ' y b y' hlead ⟨hb, hm⟩ => ?_
  refine (simulates_truthOf hb).weaken fun rc y'' hlead' ⟨hrc, htruth⟩ => ⟨hrc, ?_⟩
  refine (hm.bind hlead.site.le hlead'.site.le htruth).weaken (fun _ h => h) (fun σ => ?_)
    fun _ _ h => h
  rcases m σ with _ | ⟨σ, b⟩
  · rfl
  · change Option.map _ (truth b σ) = Option.bind (truth b σ) _
    rcases truth b σ with _ | t <;> rfl

/-- The exclusive operator on bits. -/
theorem lowers_xor {u v : Value} (hu : x.site.Has O u .i1) (hv : x.site.Has O v .i1) :
    Lowers O ρ (emit (Emit.binary .xor .bool u v)) x fun w x' => x'.site.Has O w .i1 ∧
      ∀ {β : Type} {p q : Bool} (r : β), x.body.Simulates x'.body
        (fun c => c.value u = some (.bit p) ∧ c.value v = some (.bit q))
        (fun σ => some (σ, r)) fun r' c => r' = r ∧ c.value w = some (.bit (p ^^ q)) := by
  have hty : (Inst.binary .xor u v).WellTyped O := by
    refine ⟨by rw [hu.type, hv.type], ?_⟩
    rw [hu.type]
    rfl
  refine (lowers_put (τ := .i1) rfl rfl hty ?_ (hu.two hv)).weaken fun w x' _ ⟨hw, hput⟩ =>
    ⟨hw, fun r => hput r fun c ⟨hp, hq⟩ => ?_⟩
  · rw [Inst.type?, hu.type]
  · simp [Inst.outcome, hp, hq, Opcode.act?, Opcode.onBits]

/-- What a logical operator does once its first operand has been tested. -/
def decided (op : LogicOp) (m : Store → Option (Store × Found)) (first : Bool) (σ : Store) :
    Option (Store × Found) := do
  if op = .and && !first || op = .or && first then return (σ, .value (ofBool first))
  let (σ, b) ← m σ
  let second ← truth b σ
  return (σ, .value (ofBool (if op = .xor then first ^^ second else second)))

/-- What the code of a logical operator comes down to behind the test of its first operand. -/
def Concludes (op : LogicOp) (m : Store → Option (Store × Found)) (bit : Value) (y : Walk)
    (v : Value) (y' : Walk) : Prop :=
  ∀ first, y.body.Simulates y'.body (fun c => c.value bit = some (.bit first))
    (decided op m first) fun found c => ∃ w, found = .value w ∧ c.value v = some (.word w)

/-- A detour decides for the operator that may skip its second operand. -/
theorem Detour.concludes {op : LogicOp} {m : Store → Option (Store × Found)} {bit v : Value}
    (skip : Bool) (hop : (op = .and && !skip || op = .or && skip) = true)
    (h : Detour (Judges m)
      (fun more done => if skip then .condBr bit done more else .condBr bit more done) bit x v x')
    (hscopes : x'.scopes = x.scopes) : Concludes op m bit x v x' := by
  intro first
  refine (h.simulates (fun _ _ _ h => h) hscopes first).weaken (fun _ h => h) (fun σ => ?_)
    fun _ _ h => h
  have hxor : op ≠ .xor := by
    rintro rfl
    cases hop
  have hwhen : (op = .and && !first || op = .or && first) = decide (first = skip) := by
    revert hop
    cases op <;> cases skip <;> cases first <;> decide
  simp only [decided, hwhen, hxor, if_false, decide_eq_true_eq]
  split
  next => rfl
  next =>
    rcases m σ with _ | ⟨σ, b⟩
    · rfl
    · rcases htr : truth b σ with _ | t <;> simp [htr]

/-- The exclusive operator evaluates its second operand at once. -/
theorem concludes_xor {pos : Pos} {cause : DataType → Cause} {lc : Value} {rhs : Lower Operand}
    {m : Store → Option (Store × Found)} (hx : x.Local O ns) (hlc : x.site.Has O lc .i1)
    (hrhs : Leading O x (rhs >>= truthOf cause) fun y rc y' => y'.site.Has O rc .i1 ∧
      Judges m y rc y') :
    Lowers O ρ (do
      let rc ← truthOf cause (← rhs)
      return Operand.value pos .int (← emit do Emit.fromBool (← Emit.binary .xor .bool lc rc))) x
      fun a x' => ∃ v, a = .value pos .int v ∧ x'.site.Has O v .i32 ∧
        Concludes .xor m lc x v x' := by
  refine Lowers.unassoc (Lowers.bind (hrhs ρ x .refl rfl) fun rc x₁ h₁ ⟨hrc, hm⟩ => ?_)
  rw [emit_bind, bind_assoc]
  refine Lowers.bind (lowers_xor (h₁.site.has hlc) hrc) fun bit x₂ h₂ ⟨hbit, hxor⟩ => ?_
  refine Lowers.bind (lowers_fromBool hbit) fun v x₃ h₃ ⟨hv, hword⟩ => ?_
  refine Lowers.pure ⟨v, rfl, hv, fun first => ?_⟩
  have hfirst := hm.frame (R := fun c => c.value lc = some (.bit first)) fun c c' hagrees h =>
    (hx.value_eq hlc hagrees).trans h
  have hrest : ∀ t, x₁.body.Simulates x₃.body
      (fun c => c.value rc = some (.bit t) ∧ c.value lc = some (.bit first))
      (fun σ => some (σ, Found.value (ofBool (first ^^ t))))
      fun found c => ∃ w, found = .value w ∧ c.value v = some (.word w) := fun t => by
    have hbit' := (hxor () (p := first) (q := t)).after h₂.site.le h₃.site.le
      ((hword (Found.value (ofBool (first ^^ t)))).weaken (fun _ h => h.2) (fun _ => rfl)
        fun _ _ h => h)
    exact hbit'.weaken (fun c h => ⟨h.2, h.1⟩) (fun _ => rfl) fun _ _ h => ⟨_, h⟩
  refine (hfirst.bind h₁.site.le (h₂.site.le.trans h₃.site.le) hrest).weaken
    (fun c h => ⟨trivial, h⟩) (fun σ => ?_) fun _ _ h => h
  simp only [decided]
  rcases m σ with _ | ⟨σ, b⟩
  · rfl
  · rcases htr : truth b σ with _ | t <;> simp [htr]

/-- A logical operator. -/
theorem simulates_logical {pos : Pos} {op : LogicOp} {a : Operand} {rhs : Lower Operand}
    {m : Store → Option (Store × Found)} (hx : x.Local O ns) (ha : a.IsInt O x)
    (hrhs : Leading O x rhs (Evaluates O m)) :
    Lowers O ρ (logical pos op a rhs) x fun r x' => r.IsInt O x' ∧
      ∀ found, x.body.Simulates x'.body (fun c => a.Means found c)
        (fun σ => (truth found σ).bind fun first => decided op m first σ)
        fun found c => r.Means found c := by
  refine Lowers.bind (simulates_truthOf ha) fun lc x₁ h₁ ⟨hlc, htruth⟩ => ?_
  have hsecond := leading_truthOf (.logicType op) (hrhs.mono h₁)
  -- it remains to say what happens behind the test of the first operand
  refine Lowers.weaken (P := fun r x₂ => ∃ v, r = .value pos .int v ∧ x₂.site.Has O v .i32 ∧
    Concludes op m lc x₁ v x₂) ?_ fun r x₂ h₂ ⟨v, hr, hv, hconcludes⟩ => ?_
  · cases op with
    | or =>
      simp only [reduceCtorEq, if_false]
      exact (lowers_shortCircuit (fun more done => .condBr lc done more) hlc hsecond
        (fun _ _ => .inr rfl)).weaken fun r x₂ h₂ ⟨v, hr, hv, hdetour⟩ =>
          ⟨v, hr, hv, hdetour.concludes true rfl h₂.scopes⟩
    | and =>
      simp only [if_true]
      exact (lowers_shortCircuit (fun more done => .condBr lc more done) hlc hsecond
        (fun _ _ => .inl rfl)).weaken fun r x₂ h₂ ⟨v, hr, hv, hdetour⟩ =>
          ⟨v, hr, hv, hdetour.concludes false rfl h₂.scopes⟩
    | xor => exact concludes_xor (hx.leads h₁) hlc hsecond
  · obtain rfl := hr
    refine ⟨⟨rfl, hv⟩, fun found => ?_⟩
    refine ((htruth found).bind h₁.site.le h₂.site.le hconcludes).weaken (fun _ h => h)
      (fun σ => ?_) fun _ _ h => h
    rcases truth found σ with _ | t <;> rfl

/-- The walk over an alternative ends with its value. -/
def Supplies (O : Outside) (m : Store → Option (Store × Found)) (y : Walk) (v : Option Value)
    (y' : Walk) : Prop :=
  ∃ w, v = some w ∧ y'.site.Has O w .i32 ∧ y.body.Simulates y'.body (fun _ => True) (fun σ => do
    let (σ, b) ← m σ
    return (σ, ← b.read σ)) fun r c => c.value w = some (.word r)

theorem Evaluates.supplies {a : Operand} {y : Walk} {m : Store → Option (Store × Found)}
    (h : Evaluates O m y a x) (hle : y.site.func.Le x.site.func) :
    Lowers O ρ (valueOf a) x fun v x' => Supplies O m y (some v) x' := by
  obtain ⟨ha, hm⟩ := h
  refine (simulates_valueOf ha).weaken fun v x' hlead ⟨hv, hread⟩ => ⟨v, rfl, hv, ?_⟩
  refine (hm.bind hle hlead.site.le hread).weaken (fun _ h => h) (fun σ => ?_) fun _ _ h => h
  rcases m σ with _ | ⟨σ, b⟩
  · rfl
  · change Option.map _ (b.read σ) = Option.bind (b.read σ) _
    rcases b.read σ with _ | w <;> rfl

/-- A choice between two expressions. -/
theorem simulates_choice {pos : Pos} {bit : Value} {yes no : Lower Operand}
    {m m' : Store → Option (Store × Found)} (hbit : x.site.Has O bit .i1)
    (hyes : Leading O x yes (Evaluates O m)) (hno : Leading O x no (Evaluates O m')) :
    Lowers O ρ (choice pos bit yes no) x fun r x' => r.IsInt O x' ∧
      ∀ go, x.body.Simulates x'.body (fun c => c.value bit = some (.bit go))
        (fun σ => do
          let (σ, b) ← if go then m σ else m' σ
          return (σ, .value (← b.read σ))) fun found c => r.Means found c := by
  -- the first alternative has a type and a value, which is what the second one is converted to
  have hfirst : Leading O x (do
      let a ← yes
      let v ← alternative? a
      return (a, v)) fun y p y' => (∀ w, p.2 = some w → p.1.type ≠ .void ∧
        y'.site.Has O w (Ty.ofData p.1.type)) ∧
          (p.1.type = .int ∧ p.1.hasValue = true) ∧ Supplies O m y p.2 y' := by
    refine hyes.bind fun ρ' y a y' hlead ha => ?_
    rw [alternative?, if_pos ha.1.hasValue]
    refine Lowers.bind (Lowers.map (ha.supplies hlead.site.le) (Q := Supplies O m y)
      fun _ _ _ h => h) fun v y'' _ hv => Lowers.pure ?_
    refine ⟨fun u hu => ?_, ⟨ha.1.type_eq, ha.1.hasValue⟩, hv⟩
    obtain ⟨w, rfl, hw, -⟩ := hv
    obtain rfl := Option.some.inj hu
    dsimp only
    rw [ha.1.type_eq]
    exact ⟨by simp, hw⟩
  have hsecond : ∀ a, Leading O x (no >>= otherwise? pos a) fun y v y' =>
      (∀ w, v = some w → y'.site.Has O w (Ty.ofData a.type)) ∧
        (a.type = .int ∧ a.hasValue = true → Supplies O m' y v y') := by
    refine fun a => hno.bind fun ρ' y b y' hlead hb => ?_
    by_cases ha : a.type = .int ∧ a.hasValue = true
    · simp only [otherwise?, ha.2, if_true, ha.1, valueAs_eq hb.1.type_eq]
      refine Lowers.map (Lowers.insteadOf (hb.supplies hlead.site.le)) fun v y'' _ hv =>
        ⟨fun u hu => ?_, fun _ => hv⟩
      obtain ⟨w, hvw, hw, -⟩ := hv
      obtain rfl := Option.some.inj (hvw.symm.trans hu)
      exact hw
    · exact (lowers_otherwise hb.1.sound).weaken fun v y'' _ hv => ⟨hv, fun h => absurd h ha⟩
  refine (lowers_choice hbit hfirst hsecond).weaken fun r x' hlead h => ?_
  obtain ⟨hsound, hfork⟩ := h
  obtain ⟨u, rfl, hsim⟩ := hfork.simulates
    (fun y first v y' h => ⟨h.1, h.2.imp fun w hw => ⟨hw.1, hw.2.2⟩⟩)
    (fun first y v y' h hR => (hR h).imp fun w hw => ⟨hw.1, hw.2.2⟩) hlead.scopes
  refine ⟨⟨rfl, hsound.2⟩, fun go => (hsim go).weaken (fun _ h => h) (fun σ => ?_) fun _ _ h => h⟩
  have hvalue : ∀ m : Store → Option (Store × Found),
      ((m σ >>= fun p => do return (p.1, ← p.2.read p.1)).map fun p => (p.1, Found.value p.2)) =
        m σ >>= fun p => do return (p.1, Found.value (← p.2.read p.1)) := by
    intro m
    rcases m σ with _ | ⟨σ, b⟩
    · rfl
    · rcases hb : b.read σ with _ | w <;> simp [hb]
  cases go with
  | true => exact hvalue m
  | false => exact hvalue m'

/-- Two operands that are evaluated one after another, and used then. -/
theorem Evaluates.both {a b : Operand} {x₁ x₂ x₃ : Walk}
    {m m' : Store → Option (Store × Found)} {k : Found → Found → Store → Option (Store × Found)}
    {R : Found → Config → Prop} (ha : Evaluates O m x a x₁) (hb : Evaluates O m' x₁ b x₂)
    (hx : x₁.Local O ns) (h₁ : x.site.func.Le x₁.site.func) (h₂ : x₁.site.func.Le x₂.site.func)
    (h₃ : x₂.site.func.Le x₃.site.func) (huse : ∀ p q, x₂.body.Simulates x₃.body
      (fun c => a.Means p c ∧ b.Means q c) (k p q) R) :
    x.body.Simulates x₃.body (fun _ => True) (fun σ => (m σ).bind fun p => (m' p.1).bind fun q =>
      k p.2 q.2 q.1) R := by
  refine ha.2.bind (k := fun p σ => (m' σ).bind fun q => k p q.2 q.1) h₁ (h₂.trans h₃) fun p => ?_
  have hsecond := hb.2.frame (R := fun c => a.Means p c) fun c c' hagrees => ha.1.means hx hagrees
  refine (hsecond.bind h₂ h₃ fun q => (huse p q).weaken (fun c h => ⟨h.2, h.1⟩) (fun _ => rfl)
    fun _ _ h => h).weaken (fun c h => ⟨trivial, h⟩) (fun _ => rfl) fun _ _ h => h

/-! ## Expressions -/

variable {Γ : Signatures}

/-- The name of a variable stands for the variable. -/
theorem evaluates_name {n : Name} (hx : x.Local O ns)
    (hn : (ns.any fun frame => frame.contains n.text) = true) :
    Lowers O ρ (expr Γ (.name n)) x (Evaluates O (eval (.name n)) x) := by
  obtain ⟨sym, hsym, hint⟩ := hx.exists_local hn
  intro hready
  have hget : ∀ {α : Type} {f : Body → Lower α} {Q : α → Walk → Prop},
      Walks O ρ (f x.body) x Q → Walks O ρ (get >>= f) x Q := fun h => h
  have hlookup : x.body.scopes.lookup? n.text = some sym := Scopes.lookup?_of_local? hsym
  unfold expr resolve
  refine Walks.assoc (hget ?_)
  simp only [hlookup, bind_assoc, pure_bind]
  refine Lowers.bind (P := fun _ x' => x'.site = x.site ∧ x'.scopes = x.scopes)
    (Lowers.bindName fun x' hsite hscopes => ⟨hsite, hscopes⟩)
    (fun _ x' _ ⟨hsite, hscopes⟩ => Lowers.pure ?_) hready
  obtain ⟨-, hhas⟩ := hx.sound.lookup hready hlookup
  rw [hint] at hhas
  refine ⟨⟨hint, by rw [hsite]; exact hhas, sym, by rw [hscopes]; exact hsym, rfl⟩, ?_⟩
  have hdraft : x'.body.draft = x.body.draft := congrArg Site.draft hsite
  refine (Body.Simulates.stays (by rw [hdraft]; exact .refl _) hscopes (Found.place n.text)).weaken
    (fun _ h => h) (fun σ => ?_) fun _ _ h => h.1
  rw [eval]

/-- The digits of a number that is parsed are those that its text starts with. -/
theorem ofDigits_takeWhile {cs : List Char} {n : Nat}
    (h : parseUnsigned? (unsuffixed cs) = some n) :
    Numeral.ofDigits (cs.takeWhile Char.isDigit) = n := by
  simp only [parseUnsigned?] at h
  split at h
  next hdigits =>
    obtain rfl := Option.some.inj h
    have hsplit : unsuffixed cs ++ cs.rtakeWhile isSuffixLetter = cs :=
      cs.rdropWhile_append_rtakeWhile
    have htail : (cs.rtakeWhile isSuffixLetter).takeWhile Char.isDigit = [] := by
      rcases hcons : cs.rtakeWhile isSuffixLetter with _ | ⟨c, tail⟩
      · rfl
      · have hc : isSuffixLetter c = true :=
          List.mem_rtakeWhile_imp (hcons ▸ List.mem_cons_self)
        refine List.takeWhile_cons_of_neg ?_
        simp only [isSuffixLetter, Bool.or_eq_true, beq_iff_eq] at hc
        rcases hc with ((rfl | rfl) | rfl) | rfl <;> decide
    conv_lhs => rw [← hsplit]
    rw [List.takeWhile_append_of_pos (List.all_eq_true.1 hdigits.2.1), htail, List.append_nil]
  next => cases h

/-- A number stands for its value. -/
theorem evaluates_number {pos : Pos} {text : String} :
    Lowers O ρ (expr Γ (.number pos .int text)) x
      (Evaluates O (eval (.number pos .int text)) x) := by
  unfold expr
  split
  next => exact Lowers.fail
  next v hv =>
    simp only [literal, intLiteral] at hv
    split at hv
    next => cases hv
    next n hn =>
    split at hv
    next hlt =>
      obtain rfl := Except.ok.inj hv
      refine Lowers.pure ⟨⟨rfl, .int _ O _⟩, ?_⟩
      refine (Body.Simulates.stays (.refl _) rfl (Found.value (Meaning.literal text))).weaken
        (fun _ h => h) (fun σ => ?_) fun _ c h => ⟨Meaning.literal text, h.1, ?_⟩
      · rw [eval, if_pos rfl]
      · change some (Scalar.word (BitVec.ofInt 32 (signedWord n))) = _
        rw [signedWord, if_pos hlt, Meaning.literal, ofDigits_takeWhile hn]
        rfl
    next => cases hv

mutual

/-- The code of an expression simulates its meaning. -/
theorem simulates_expr : ∀ (e : Expr) {ρ : Realm} {x : Walk}, isInt ns e = true → x.Local O ns →
    Lowers O ρ (expr Γ e) x (Evaluates O (eval e) x)
  | .name n, ρ, x, h, hx => evaluates_name hx (by rwa [isInt] at h)
  | .number pos kind text, ρ, x, h, hx => by
    obtain rfl : kind = .int := by simpa [isInt] using h
    exact evaluates_number
  | .bool pos b, ρ, x, h, hx => by simp [isInt] at h
  | .call fn args, ρ, x, h, hx => by simp [isInt] at h
  | .construct pos type args, ρ, x, h, hx => by simp [isInt] at h
  | .index base i, ρ, x, h, hx => by simp [isInt] at h
  | .member e sel selPos, ρ, x, h, hx => by simp [isInt] at h
  | .unary pos op e, ρ, x, h, hx => by
    unfold expr
    refine Lowers.bind (simulates_expr e (by rwa [isInt] at h) hx) fun a x₁ h₁ ⟨ha, hm⟩ => ?_
    -- all operators but the steps use the value of their operand
    have hvalue : ∀ op, (∀ s, op ≠ .step s) → Lowers O ρ (unary pos op a) x₁
        (Evaluates O (eval (.unary pos op e)) x) := by
      intro op hop
      refine (simulates_unary ha).weaken fun r x₂ h₂ ⟨hr, hop'⟩ => ⟨hr, ?_⟩
      refine (hm.bind h₁.site.le h₂.site.le hop').weaken (fun _ h => h) (fun σ => ?_)
        fun _ _ h => h
      rw [eval]
      rcases eval e σ with _ | ⟨σ, a⟩
      · rfl
      · cases op with
        | step s => exact absurd rfl (hop s)
        | _ =>
          change Option.map _ (a.read σ) = Option.bind (a.read σ) _
          rcases a.read σ with _ | w <;> rfl
    cases op with
    | step s =>
      refine (simulates_step (hx.leads h₁) ha).weaken fun r x₂ h₂ ⟨hr, hstep⟩ => ⟨hr, ?_⟩
      refine (hm.bind h₁.site.le h₂.site.le hstep).weaken (fun _ h => h) (fun σ => ?_)
        fun _ _ h => h
      rw [eval]
      rfl
    | _ => exact hvalue _ (by simp)
  | .postStep s e, ρ, x, h, hx => by
    unfold expr
    refine Lowers.bind (simulates_expr e (by rwa [isInt] at h) hx) fun a x₁ h₁ ⟨ha, hm⟩ => ?_
    refine (simulates_step (hx.leads h₁) ha).weaken fun r x₂ h₂ ⟨hr, hstep⟩ => ⟨hr, ?_⟩
    refine (hm.bind h₁.site.le h₂.site.le hstep).weaken (fun _ h => h) (fun σ => ?_) fun _ _ h => h
    rw [eval]
    rfl
  | .binary (.arith op) e e', ρ, x, h, hx => by
    unfold expr
    obtain ⟨⟨hop, he⟩, he'⟩ : (isTotal op = true ∧ isInt ns e = true) ∧ isInt ns e' = true := by
      simpa [isInt] using h
    refine Lowers.bind (simulates_expr e he hx) fun a x₁ h₁ ha => ?_
    refine Lowers.bind (simulates_expr e' he' (hx.leads h₁)) fun b x₂ h₂ hb => ?_
    have hx₂ := (hx.leads h₁).leads h₂
    refine (simulates_arithExpr hx₂ hop (ha.1.leads h₂) hb.1).weaken fun r x₃ h₃ ⟨hr, huse⟩ =>
      ⟨hr, ?_⟩
    refine (ha.both hb (hx.leads h₁) h₁.site.le h₂.site.le h₃.site.le huse).weaken (fun _ h => h)
      (fun σ => ?_) fun _ _ h => h
    rw [eval]
    rfl
  | .binary (.rel op) e e', ρ, x, h, hx => by
    unfold expr
    obtain ⟨he, he'⟩ : isInt ns e = true ∧ isInt ns e' = true := by simpa [isInt] using h
    refine Lowers.bind (simulates_expr e he hx) fun a x₁ h₁ ha => ?_
    refine Lowers.bind (simulates_expr e' he' (hx.leads h₁)) fun b x₂ h₂ hb => ?_
    have hx₂ := (hx.leads h₁).leads h₂
    refine (simulates_comparison hx₂ (ha.1.leads h₂) hb.1).weaken fun r x₃ h₃ ⟨hr, huse⟩ =>
      ⟨hr, ?_⟩
    refine (ha.both hb (hx.leads h₁) h₁.site.le h₂.site.le h₃.site.le huse).weaken (fun _ h => h)
      (fun σ => ?_) fun _ _ h => h
    rw [eval]
    rfl
  | .binary (.logic op) e e', ρ, x, h, hx => by
    unfold expr
    obtain ⟨he, he'⟩ : isInt ns e = true ∧ isInt ns e' = true := by simpa [isInt] using h
    refine Lowers.bind (simulates_expr e he hx) fun a x₁ h₁ ⟨ha, hm⟩ => ?_
    have hx₁ := hx.leads h₁
    refine (simulates_logical hx₁ ha fun ρ' y hw hscopes => simulates_expr e' he'
      (hx₁.writes hw hscopes)).weaken fun r x₂ h₂ ⟨hr, huse⟩ => ⟨hr, ?_⟩
    refine (hm.bind h₁.site.le h₂.site.le huse).weaken (fun _ h => h) (fun σ => ?_) fun _ _ h => h
    rw [eval]
    rfl
  | .assign op e e', ρ, x, h, hx => by
    unfold expr
    obtain ⟨⟨hop, he⟩, he'⟩ : (op.all isTotal = true ∧ isInt ns e = true) ∧
        isInt ns e' = true := by
      simpa only [isInt, Bool.and_eq_true] using h
    refine Lowers.bind (simulates_expr e he hx) fun a x₁ h₁ ⟨ha, hm⟩ => ?_
    have hx₁ := hx.leads h₁
    refine (simulates_assign hx₁ hop ha (simulates_expr e' he' hx₁)).weaken
      fun r x₂ h₂ ⟨hr, huse⟩ => ⟨hr, ?_⟩
    refine (hm.bind h₁.site.le h₂.site.le huse).weaken (fun _ h => h) (fun σ => ?_) fun _ _ h => h
    rw [eval]
    rfl
  | .cond c e e', ρ, x, h, hx => by
    unfold expr
    obtain ⟨⟨hc, he⟩, he'⟩ : (isInt ns c = true ∧ isInt ns e = true) ∧ isInt ns e' = true := by
      simpa [isInt] using h
    refine Lowers.bind (simulates_expr c hc hx) fun a x₁ h₁ ⟨ha, hm⟩ => ?_
    refine Lowers.bind (simulates_truthOf ha) fun bit x₂ h₂ ⟨hbit, htruth⟩ => ?_
    have hx₂ := (hx.leads h₁).leads h₂
    refine (simulates_choice hbit (fun ρ' y hw hscopes => simulates_expr e he
      (hx₂.writes hw hscopes)) fun ρ' y hw hscopes => simulates_expr e' he'
      (hx₂.writes hw hscopes)).weaken fun r x₃ h₃ ⟨hr, huse⟩ => ⟨hr, ?_⟩
    -- the truth of the condition is read from what it was found to be, then the way is chosen
    have hrest := fun found => (htruth found).bind h₂.site.le h₃.site.le huse
    refine (hm.bind h₁.site.le (h₂.site.le.trans h₃.site.le) hrest).weaken (fun _ h => h)
      (fun σ => ?_) fun _ _ h => h
    rw [eval]
    rcases eval c σ with _ | ⟨σ, a⟩
    · rfl
    · rcases htr : truth a σ with _ | t <;> simp [htr]
  | .seq first rest, ρ, x, h, hx => by
    unfold expr
    obtain ⟨hfirst, hrest⟩ : isInt ns first = true ∧ areInt ns rest = true := by
      simpa [isInt] using h
    refine Lowers.bind (simulates_expr first hfirst hx) fun a x₁ h₁ ⟨ha, hm⟩ => ?_
    refine (simulates_sequence rest hrest (hx.leads h₁) ha).weaken fun r x₂ h₂ ⟨hr, hseq⟩ =>
      ⟨hr, ?_⟩
    refine (hm.bind h₁.site.le h₂.site.le hseq).weaken (fun _ h => h) (fun σ => ?_) fun _ _ h => h
    rw [eval]
    rfl

theorem simulates_sequence : ∀ (es : List Expr) {ρ : Realm} {x : Walk} {a : Operand},
    areInt ns es = true → x.Local O ns → a.IsInt O x →
    Lowers O ρ (sequence Γ a es) x fun r x' => r.IsInt O x' ∧ ∀ found,
      x.body.Simulates x'.body (fun c => a.Means found c) (evalRest found es) fun found c =>
        r.Means found c
  | [], ρ, x, a, h, hx, ha => by
    unfold sequence
    refine Lowers.pure ⟨ha, fun found => ?_⟩
    refine (Body.Simulates.stays (.refl _) rfl found).weaken (fun _ h => h) (fun σ => ?_)
      fun _ c h => ?_
    · rw [evalRest]
    · rw [h.1]
      exact h.2
  | e :: es, ρ, x, a, h, hx, ha => by
    unfold sequence
    obtain ⟨hfirst, hrest⟩ : isInt ns e = true ∧ areInt ns es = true := by
      simpa [areInt] using h
    refine Lowers.bind (simulates_expr e hfirst hx) fun b x₁ h₁ ⟨hb, hm⟩ => ?_
    refine (simulates_sequence es hrest (hx.leads h₁) hb).weaken fun r x₂ h₂ ⟨hr, hseq⟩ =>
      ⟨hr, fun found => ?_⟩
    refine (hm.bind h₁.site.le h₂.site.le hseq).weaken (fun _ _ => trivial) (fun σ => ?_)
      fun _ _ h => h
    rw [evalRest]
    rfl

end

end Shader.Lowering
