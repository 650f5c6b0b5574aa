import Shader.Proofs.Lowering.Expressions
import Shader.Proofs.Semantics.Simulation

/-!
# Integer expressions keep their meaning

The code for an expression over integer variables simulates its meaning. An operand stands for what
the meaning has found: a value, or a variable that has not been read yet. Each operator on operands
has its own lemma, which says what the code of the operator does to what its operands stand for.
-/

namespace Shader.Lowering

open Ir Meaning

/-! ## Surroundings of an expression -/

/-- The variables of the open blocks are integers with names, and have room of their own. -/
structure Walk.Local (O : Outside) (ns : Names) (x : Walk) : Prop where
  /-- labels are places -/
  tidy : x.site.func.Tidy
  /-- numbers tell instructions apart -/
  numbered : x.site.func.Numbered
  /-- all variables have room -/
  sound : ScopesSound O x.site.func x.scopes
  /-- the names of the variables -/
  names : (x.scopes.inner.map fun frame => frame.map Symbol.name) = ns
  /-- their types -/
  ints : ∀ frame ∈ x.scopes.inner, ∀ sym ∈ frame, sym.type = .int
  /-- no two of them share room -/
  distinct : (x.scopes.inner.flatten.map fun sym => sym.handle.reg?).Nodup

variable {O : Outside} {ρ : Realm} {ns : Names} {x x' : Walk}

namespace Walk.Local

theorem writes (h : x.Local O ns) (hw : Writes O ρ x.site x'.site)
    (hscopes : x'.scopes = x.scopes) : x'.Local O ns where
  tidy := Steps.tidy hw h.tidy
  numbered := Steps.numbered hw h.tidy h.numbered
  sound := h.sound.writes hw hscopes
  names := hscopes ▸ h.names
  ints := hscopes ▸ h.ints
  distinct := hscopes ▸ h.distinct

theorem leads (h : x.Local O ns) (hlead : x.Leads O ρ x') : x'.Local O ns :=
  h.writes hlead.site.steps hlead.scopes

/-- What a value is does not change while further instructions are carried out. -/
theorem value_eq (h : x.Local O ns) {v : Value} {τ : Ty} (hv : x.site.Has O v τ)
    {c c' : Config} (hagrees : Agrees x.site.func.regs c c') : c'.value v = c.value v := by
  cases v with
  | const k => rfl
  | global id content => rfl
  | param id i name type =>
    simp only [Config.value, Value.scalar?, hagrees.1]
  | result id r name type =>
    obtain ⟨-, l, b, line, hb, hline, hreg, -⟩ := hv.known
    refine hagrees.2 r (h.numbered.below r (Func.mem_regList.2 ⟨b, hb.mem, ?_⟩))
    exact List.mem_map.2 ⟨line, hline, hreg⟩

/-- A name that is declared refers to an integer variable. -/
theorem exists_local (h : x.Local O ns) {name : String}
    (hname : (ns.any fun frame => frame.contains name) = true) :
    ∃ sym, x.scopes.local? name = some sym ∧ sym.type = .int := by
  rw [← h.names] at hname
  simp only [List.any_map, List.any_eq_true, Function.comp, List.contains_iff_mem] at hname
  obtain ⟨frame, hframe, hmem⟩ := hname
  obtain ⟨sym, hsym, rfl⟩ := List.mem_map.1 hmem
  have hsome : (x.scopes.local? sym.name).isSome := by
    rw [Scopes.local?, List.findSome?_isSome_iff]
    refine ⟨frame, hframe, ?_⟩
    rw [Frame.find?, List.find?_isSome]
    exact ⟨sym, hsym, by simp⟩
  obtain ⟨sym', hsym'⟩ := Option.isSome_iff_exists.1 hsome
  obtain ⟨frame', hframe', hfind⟩ := List.exists_of_findSome?_eq_some hsym'
  exact ⟨sym', hsym', h.ints frame' hframe' sym' (List.mem_of_find?_eq_some hfind)⟩

end Walk.Local

/-! ## Integer operands -/

/-- An operand that is an integer, or an integer variable of an open block. -/
def Operand.IsInt (O : Outside) (x : Walk) : Operand → Prop
  | value _ type v => type = .int ∧ x.site.Has O v .i32
  | place _ type addr name _ => type = .int ∧ x.site.Has O addr (.pointer .i32) ∧
    ∃ sym, x.scopes.local? name = some sym ∧ sym.handle = addr
  | _ => False

/-- What an operand stands for. -/
def Operand.Means (found : Found) (c : Config) : Operand → Prop
  | value _ _ v => ∃ w, found = .value w ∧ c.value v = some (.word w)
  | place _ _ _ name _ => found = .place name
  | _ => False

namespace Operand.IsInt

variable {a : Operand}

theorem type_eq (h : a.IsInt O x) : a.type = .int := by
  cases a with
  | value pos type v => exact h.1
  | place pos type addr name isConst => exact h.1
  | _ => exact h.elim

theorem hasValue (h : a.IsInt O x) : a.hasValue = true := by
  cases a with
  | nothing pos => exact h.elim
  | _ => rfl

theorem sound (h : a.IsInt O x) : a.Sound O x.site := by
  cases a with
  | value pos type v =>
    obtain ⟨rfl, hv⟩ := h
    exact ⟨by simp, hv⟩
  | place pos type addr name isConst =>
    obtain ⟨rfl, haddr, -⟩ := h
    exact ⟨by simp, haddr⟩
  | _ => exact h.elim

theorem leads (h : a.IsInt O x) (hlead : x.Leads O ρ x') : a.IsInt O x' := by
  cases a with
  | value pos type v => exact ⟨h.1, hlead.site.has h.2⟩
  | place pos type addr name isConst =>
    refine ⟨h.1, hlead.site.has h.2.1, ?_⟩
    rw [hlead.scopes]
    exact h.2.2
  | _ => exact h.elim

/-- What an operand stands for does not change while further instructions are carried out. -/
theorem means (h : a.IsInt O x) (hx : x.Local O ns) {found : Found} {c c' : Config}
    (hagrees : Agrees x.site.func.regs c c') (hc : a.Means found c) : a.Means found c' := by
  cases a with
  | value pos type v =>
    obtain ⟨w, hw, hv⟩ := hc
    exact ⟨w, hw, (hx.value_eq h.2 hagrees).trans hv⟩
  | place pos type addr name isConst => exact hc
  | _ => exact h.elim

end Operand.IsInt

/-! ## Operators on integers

On integers, the operators come down to the instructions that they write. -/

section

variable {pos : Pos} {a b : Operand}

theorem valueAs_eq {t : DataType} (h : a.type = t) : valueAs a t = valueOf a := by
  simp only [valueAs, h, if_true, bind_pure]

theorem arith_int {op : ArithOp} (ha : a.type = .int) (hb : b.type = .int) :
    arith pos op a b = (do
      let v ← valueOf a
      let w ← valueOf b
      return .value pos .int (← emit (Emit.append (.binary (Emit.opcode op .int) v w)))) := by
  have hfloat : DataType.isFloating .int = false := rfl
  have hnum : DataType.isNumeric .int = true := rfl
  have hpromote : DataType.promote? .int .int = some .int := rfl
  have hconv : (DataType.convertible .int .int && DataType.convertible .int .int) = true := rfl
  have harith : arith pos op a b = promotedArith pos op a b := by
    cases op <;> simp [arith, ha, hb, hfloat, hnum]
  simp only [harith, promotedArith, ha, hb, hpromote, hconv, if_true, valueAs_eq ha, valueAs_eq hb]
  rfl

theorem comparison_int {op : RelOp} (ha : a.type = .int)
    (hb : b.type = .int) : comparison pos op a b = (do
      let v ← valueOf a
      let w ← valueOf b
      let bit ← emit (Emit.append (.icmp (Emit.intPred false op) v w))
      return .value pos .int (← emit (Emit.fromBool bit))) := by
  have hpromote : DataType.promote? .int .int = some .int := rfl
  have hvec : DataType.isVector .int = false := rfl
  simp only [comparison, ha, hb, hpromote, hvec, valueAs_eq ha, valueAs_eq hb, emit_bind,
    bind_assoc, Bool.false_and, Bool.false_eq_true, if_false]
  rfl

theorem truthOf_int {cause : DataType → Cause} (ha : a.type = .int) :
    truthOf cause a = (do
      let v ← valueOf a
      emit (Emit.append (.icmp .ne v (.zero .int)))) := by
  have hscalar : DataType.isScalar .int = true := rfl
  simp only [truthOf, ha, hscalar]
  rfl
theorem unary_int {op : UnaryOp} (ha : a.type = .int) : unary pos op a = (do
    let v ← valueOf a
    match op with
    | .neg => return .value pos .int (← emit (Emit.append (.binary .sub (.zero .int) v)))
    | .not => do
      let bit ← emit (Emit.append (.icmp .eq v (.zero .int)))
      return .value pos .int (← emit (Emit.fromBool bit))
    | .bitNot => return .value pos .int (← emit (Emit.append (.binary .xor v (.int (-1)))))
    | _ => return .value pos .int v) := by
  have hnum : DataType.isNumeric .int = true := rfl
  have hscalar : DataType.isScalar .int = true := rfl
  have hfloat : DataType.isFloating .int = false := rfl
  have hbool : DataType.isBoolean .int = false := rfl
  cases op <;> simp [unary, ha, hnum, hscalar, hfloat, hbool, emit_bind]
  all_goals rfl

theorem step_int {s : Step} {post : Bool} {text : String} {addr : Value} {name : String} {q : Pos} :
    step pos s post text (.place q .int addr name false) = (do
      let old ← emit (Emit.append (.load .i32 addr))
      let new ← emit (Emit.append (.binary (Emit.opcode s.op .int) old (.int 1)))
      emit (Emit.store new addr)
      return .value pos .int (if post then old else new)) := by
  simp [step, Operand.target?, emit_bind, Operand.type]
  rfl

end

/-! ## Instructions -/

theorem onWords_opcode (op : ArithOp) (p q : BitVec 32) :
    (Emit.opcode op .int).onWords p q = Meaning.arith p q op := by
  cases op <;> rfl

theorem holds_intPred (op : RelOp) (p q : BitVec 32) :
    (Emit.intPred false op).holds p q = compare p q op := by
  cases op <;> rfl

theorem value_zero (c : Config) : c.value (.zero .int) = some (.word 0) := rfl

/-- An instruction that has a result and leaves memory alone. -/
theorem lowers_put {inst : Inst} {τ : Ty} (ha : inst.isAlloca = false)
    (hi : inst.incoming? = none) (hty : inst.WellTyped O) (hτ : inst.type? = some τ)
    (hv : ∀ v ∈ inst.operands, ∃ σ, x.site.Has O v σ) :
    Lowers O ρ (emit (Emit.append inst)) x fun v x' => x'.site.Has O v τ ∧
      ∀ {β : Type} {P : Config → Prop} {s : Scalar} (r : β),
        (∀ c, P c → inst.outcome c = some (some s, c.memory)) →
        x.body.Simulates x'.body P (fun σ => some (σ, r)) fun r' c =>
          r' = r ∧ c.value v = some s := by
  refine (Lowers.emit (Emits.append_puts ha hi hty hτ hv)).weaken fun v x' hlead ⟨hv, hputs⟩ =>
    ⟨hv, fun r hout => ?_⟩
  exact .put hputs hlead.scopes ha hout r

theorem lowers_binary (op : Opcode) {u v : Value} (hop : op.isFloating = false)
    (hu : x.site.Has O u .i32) (hv : x.site.Has O v .i32) :
    Lowers O ρ (emit (Emit.append (.binary op u v))) x fun w x' => x'.site.Has O w .i32 ∧
      ∀ {β : Type} {p q s : BitVec 32} (r : β), op.onWords p q = some s →
        x.body.Simulates x'.body
          (fun c => c.value u = some (.word p) ∧ c.value v = some (.word q))
          (fun σ => some (σ, r)) fun r' c => r' = r ∧ c.value w = some (.word s) := by
  have hty : (Inst.binary op u v).WellTyped O := by
    refine ⟨by rw [hu.type, hv.type], ?_⟩
    rw [hu.type, Opcode.fits, hop]
    rfl
  refine (lowers_put (τ := .i32) rfl rfl hty ?_ (hu.two hv)).weaken fun w x' _ h =>
    ⟨h.1, fun r hs => h.2 r fun c hc => ?_⟩
  · rw [Inst.type?, hu.type]
  · simp [Inst.outcome, hc.1, hc.2, Opcode.act?, hs]

/-- A comparison of integers. -/
theorem lowers_icmp {pred : IntPred} {u v : Value} (hu : x.site.Has O u .i32)
    (hv : x.site.Has O v .i32) :
    Lowers O ρ (emit (Emit.append (.icmp pred u v))) x fun w x' => x'.site.Has O w .i1 ∧
      ∀ {β : Type} {p q : BitVec 32} (r : β), x.body.Simulates x'.body
        (fun c => c.value u = some (.word p) ∧ c.value v = some (.word q))
        (fun σ => some (σ, r)) fun r' c => r' = r ∧ c.value w = some (.bit (pred.holds p q)) := by
  have hty : (Inst.icmp pred u v).WellTyped O := by
    refine ⟨by rw [hu.type, hv.type], ?_⟩
    rw [hu.type]
    rfl
  refine (lowers_put (τ := .i1) rfl rfl hty ?_ (hu.two hv)).weaken fun w x' _ h =>
    ⟨h.1, fun r => h.2 r fun c hc => ?_⟩
  · rw [Inst.type?, hu.type]
    rfl
  · simp [Inst.outcome, hc.1, hc.2]

/-- A bit becomes an integer. -/
theorem lowers_fromBool {u : Value} (hu : x.site.Has O u .i1) :
    Lowers O ρ (emit (Emit.fromBool u)) x fun w x' => x'.site.Has O w .i32 ∧
      ∀ {β : Type} {bit : Bool} (r : β), x.body.Simulates x'.body
        (fun c => c.value u = some (.bit bit)) (fun σ => some (σ, r)) fun r' c =>
          r' = r ∧ c.value w = some (.word (ofBool bit)) := by
  have hty : (Inst.cast .zext u .i32).WellTyped O := by
    rw [Inst.WellTyped, hu.type]
    rfl
  refine (lowers_put (τ := .i32) rfl rfl hty rfl hu.one).weaken fun w x' _ h =>
    ⟨h.1, fun r => h.2 r fun c hbit => ?_⟩
  simp only [Inst.outcome, hbit]
  rfl

/-! ## Operands that are used -/

section

variable {pos : Pos} {a b : Operand}

/-- The value of an operand; a variable is read now. -/
theorem simulates_valueOf (ha : a.IsInt O x) :
    Lowers O ρ (valueOf a) x fun v x' => x'.site.Has O v .i32 ∧
      ∀ found, x.body.Simulates x'.body (fun c => a.Means found c)
        (fun σ => (found.read σ).map fun w => (σ, w)) fun w c => c.value v = some (.word w) := by
  cases a with
  | value pos type v =>
    refine Lowers.pure ⟨ha.2, fun found f σ c _ _ hc ⟨w, hfound, hv⟩ => ?_⟩
    exact ⟨σ, w, by rw [hfound]; rfl, .here ⟨.refl _ _, hc, hv⟩⟩
  | place pos type addr name isConst =>
    obtain ⟨rfl, haddr, sym, hsym, rfl⟩ := ha
    have hty : (Inst.load .i32 sym.handle).WellTyped O := ⟨by simp, haddr.type⟩
    refine (Lowers.emit (Emits.append_puts rfl rfl hty rfl haddr.one)).weaken
      fun v x' hlead ⟨hv, hputs⟩ => ⟨hv, fun found f σ c hf hle hc hmeans => ?_⟩
    obtain rfl : found = .place name := hmeans
    exact Body.Simulates.load (P := fun _ => True) hputs hlead.scopes hsym f σ c hf hle hc trivial
  | _ => exact ha.elim

/-- The values of two operands, which are both read now. -/
theorem simulates_operands (hx : x.Local O ns) (ha : a.IsInt O x) (hb : b.IsInt O x) :
    Lowers O ρ (do
      let u ← valueOf a
      let v ← valueOf b
      return (u, v)) x fun uv x' => x'.site.Has O uv.1 .i32 ∧ x'.site.Has O uv.2 .i32 ∧
        ∀ found found', x.body.Simulates x'.body
          (fun c => a.Means found c ∧ b.Means found' c)
          (fun σ => do return (σ, ← found.read σ, ← found'.read σ)) fun pq c =>
            c.value uv.1 = some (.word pq.1) ∧ c.value uv.2 = some (.word pq.2) := by
  refine Lowers.bind (simulates_valueOf ha) fun u x₁ h₁ ⟨hu, hread⟩ => ?_
  refine Lowers.bind (simulates_valueOf (hb.leads h₁)) fun v x₂ h₂ ⟨hv, hread'⟩ => ?_
  refine Lowers.pure ⟨h₂.site.has hu, hv, fun found found' => ?_⟩
  -- the second operand still stands for the same when the first has been read, and the value of
  -- the first is not lost when the second is read
  have hfirst := (hread found).frame (R := fun c => b.Means found' c) fun c c' hagrees =>
    hb.means hx hagrees
  have hsecond : ∀ p, x₁.body.Simulates x₂.body
      (fun c => c.value u = some (.word p) ∧ b.Means found' c)
      (fun σ => (found'.read σ).map fun q => (σ, p, q)) fun pq c =>
        c.value u = some (.word pq.1) ∧ c.value v = some (.word pq.2) := by
    intro p f σ c hf hle hc ⟨hp, hmeans⟩
    obtain ⟨σ', q, hq, hreach⟩ := (hread' found').frame (R := fun c => c.value u = some (.word p))
      (fun c c' hagrees h => ((hx.leads h₁).value_eq hu hagrees).trans h) f σ c hf hle hc
      ⟨hmeans, hp⟩
    obtain ⟨w, hw, heq⟩ := Option.map_eq_some_iff.1 hq
    obtain ⟨rfl, rfl⟩ := Prod.mk.inj heq
    refine ⟨σ, (p, w), by simp [hw], hreach.weaken (Nat.le_refl _) ?_⟩
    exact fun c' ⟨hagrees, hc', hqc, hpc⟩ => ⟨hagrees, hc', hpc, hqc⟩
  refine (hfirst.bind h₁.site.le h₂.site.le hsecond).weaken (fun _ h => h) (fun σ => ?_)
    fun _ _ h => h
  rcases found.read σ with _ | p <;> rcases hq : found'.read σ with _ | q <;> simp [hq]

/-- An arithmetic operation. -/
theorem simulates_arith {op : ArithOp} (hx : x.Local O ns) (hop : isTotal op = true)
    (ha : a.IsInt O x) (hb : b.IsInt O x) :
    Lowers O ρ (arith pos op a b) x fun r x' => ∃ v, r = .value pos .int v ∧ x'.site.Has O v .i32 ∧
      ∀ found found', x.body.Simulates x'.body (fun c => a.Means found c ∧ b.Means found' c)
        (fun σ => do return (σ, ← Meaning.arith (← found.read σ) (← found'.read σ) op))
        fun w c => c.value v = some (.word w) := by
  have hfixed : (Emit.opcode op .int).isFloating = false := by cases op <;> rfl
  have htotal : ∀ p q, ∃ r, Meaning.arith p q op = some r := by
    intro p q
    cases op <;> first | exact ⟨_, rfl⟩ | cases hop
  rw [arith_int ha.type_eq hb.type_eq]
  refine Lowers.pair (Lowers.bind (simulates_operands hx ha hb) fun ⟨u, v⟩ x₁ h₁ h => ?_)
  obtain ⟨hu, hv, hread⟩ := h
  refine Lowers.bind (lowers_binary _ hfixed hu hv) fun w x₂ h₂ ⟨hw, hput⟩ => ?_
  refine Lowers.pure ⟨w, rfl, hw, fun found found' => ?_⟩
  refine ((hread found found').bind (k := fun pq σ =>
    (Meaning.arith pq.1 pq.2 op).map fun r => (σ, r)) h₁.site.le h₂.site.le
    fun ⟨p, q⟩ => ?_).weaken (fun _ h => h) (fun σ => ?_) fun _ _ h => h
  · obtain ⟨r, hr⟩ := htotal p q
    refine (hput r ((onWords_opcode op p q).trans hr)).weaken (fun _ h => h) (fun σ => ?_)
      fun _ c ⟨hr', h⟩ => hr' ▸ h
    rw [hr]
    rfl
  · rcases found.read σ with _ | p <;> rcases found'.read σ with _ | q <;> simp
    rcases Meaning.arith p q op with _ | r <;> rfl

/-- An arithmetic operator. -/
theorem simulates_arithExpr {op : ArithOp} (hx : x.Local O ns) (hop : isTotal op = true)
    (ha : a.IsInt O x) (hb : b.IsInt O x) :
    Lowers O ρ (arithExpr pos op a b) x fun r x' => r.IsInt O x' ∧
      ∀ found found', x.body.Simulates x'.body (fun c => a.Means found c ∧ b.Means found' c)
        (fun σ => do return (σ, .value (← Meaning.arith (← found.read σ) (← found'.read σ) op)))
        fun found c => r.Means found c := by
  have hresult : op.resultType a.type b.type = .int := by
    rw [ha.type_eq, hb.type_eq]
    cases op <;> rfl
  refine Lowers.bind (simulates_arith hx hop ha hb) fun r x₁ h₁ ⟨v, hr, hv, hsim⟩ => ?_
  subst hr
  simp only [hresult]
  refine Lowers.bind (P := fun u x' => u = v ∧ x' = x₁) (Lowers.insteadOf (Lowers.pure ⟨rfl, rfl⟩))
    fun u x₂ h₂ ⟨hu, hx₂⟩ => Lowers.pure ?_
  subst hu hx₂
  refine ⟨⟨rfl, hv⟩, fun found found' => ((hsim found found').map (fun w => Found.value w)).weaken
    (fun _ h => h) (fun σ => ?_) fun r c ⟨w, hr, h⟩ => ⟨w, hr, h⟩⟩
  rcases found.read σ with _ | p
  · rfl
  rcases found'.read σ with _ | q
  · rfl
  change Option.map _ (Meaning.arith p q op >>= fun w => pure (σ, w)) =
    Meaning.arith p q op >>= fun w => pure (σ, Found.value w)
  rcases Meaning.arith p q op with _ | w <;> rfl

/-- A comparison. -/
theorem simulates_comparison {op : RelOp} (hx : x.Local O ns) (ha : a.IsInt O x)
    (hb : b.IsInt O x) :
    Lowers O ρ (comparison pos op a b) x fun r x' => r.IsInt O x' ∧
      ∀ found found', x.body.Simulates x'.body (fun c => a.Means found c ∧ b.Means found' c)
        (fun σ => do
          return (σ, .value (ofBool (compare (← found.read σ) (← found'.read σ) op))))
        fun found c => r.Means found c := by
  rw [comparison_int ha.type_eq hb.type_eq]
  refine Lowers.pair (Lowers.bind (simulates_operands hx ha hb) fun ⟨u, v⟩ x₁ h₁ h => ?_)
  obtain ⟨hu, hv, hread⟩ := h
  refine Lowers.bind (lowers_icmp hu hv) fun bit x₂ h₂ ⟨hbit, hcmp⟩ => ?_
  refine Lowers.bind (lowers_fromBool hbit) fun w x₃ h₃ ⟨hw, hword⟩ => ?_
  refine Lowers.pure ⟨⟨rfl, hw⟩, fun found found' => ?_⟩
  refine ((hread found found').bind (k := fun pq σ =>
    some (σ, .value (ofBool (compare pq.1 pq.2 op)))) h₁.site.le (h₂.site.le.trans h₃.site.le)
    fun ⟨p, q⟩ => ?_).weaken (fun _ h => h) (fun σ => ?_) fun _ _ h => h
  · refine (hcmp ()).after h₂.site.le h₃.site.le ?_
    refine (hword (.value (ofBool (compare p q op)))).weaken (fun c h => h.2) (fun _ => rfl)
      fun _ c ⟨hr, h⟩ => ⟨_, hr, ?_⟩
    rw [holds_intPred] at h
    exact h
  · rcases found.read σ with _ | p <;> rcases found'.read σ with _ | q <;> rfl

/-- What an operand is taken for as a condition. -/
theorem simulates_truthOf {cause : DataType → Cause} (ha : a.IsInt O x) :
    Lowers O ρ (truthOf cause a) x fun bit x' => x'.site.Has O bit .i1 ∧
      ∀ found, x.body.Simulates x'.body (fun c => a.Means found c)
        (fun σ => (truth found σ).map fun t => (σ, t)) fun t c =>
          c.value bit = some (.bit t) := by
  rw [truthOf_int ha.type_eq]
  refine Lowers.bind (simulates_valueOf ha) fun v x₁ h₁ ⟨hv, hread⟩ => ?_
  refine (lowers_icmp hv (.zero _ O .int)).weaken fun bit x₂ h₂ ⟨hbit, hcmp⟩ =>
    ⟨hbit, fun found => ?_⟩
  refine ((hread found).bind (k := fun w σ => some (σ, w != 0)) h₁.site.le h₂.site.le
    fun w => ?_).weaken (fun _ h => h) (fun σ => ?_) fun _ _ h => h
  · exact (hcmp (w != 0)).weaken (fun c h => ⟨h, rfl⟩) (fun _ => rfl) fun _ c ⟨hr, h⟩ => hr ▸ h
  · rw [truth]
    rcases found.read σ with _ | p <;> rfl

/-- The value of an operand, and code that computes with it. -/
theorem Body.Simulates.read {β : Type} {b b' b'' : Body} {P : Config → Prop} {v : Value}
    {found : Found} {g : BitVec 32 → β} {R : β → Config → Prop}
    (hread : b.Simulates b' P (fun σ => (found.read σ).map fun w => (σ, w)) fun w c =>
      c.value v = some (.word w))
    (hle : b.draft.func.Le b'.draft.func) (hle' : b'.draft.func.Le b''.draft.func)
    (h : ∀ w, b'.Simulates b'' (fun c => c.value v = some (.word w)) (fun σ => some (σ, g w)) R) :
    b.Simulates b'' P (fun σ => (found.read σ).map fun w => (σ, g w)) R := by
  refine (hread.bind hle hle' h).weaken (fun _ h => h) (fun σ => ?_) fun _ _ h => h
  rcases found.read σ with _ | w <;> rfl

/-- An operator in front of its operand. -/
theorem simulates_unary {op : UnaryOp} (ha : a.IsInt O x) :
    Lowers O ρ (unary pos op a) x fun r x' => r.IsInt O x' ∧
      ∀ found, x.body.Simulates x'.body (fun c => a.Means found c)
        (fun σ => (found.read σ).map fun w => (σ, .value (Meaning.unary w op)))
        fun found c => r.Means found c := by
  rw [unary_int ha.type_eq]
  refine Lowers.bind (simulates_valueOf ha) fun v x₁ h₁ ⟨hv, hread⟩ => ?_
  -- plus and the steps change nothing: the value is that of the operand
  have hkeep : ∀ w : BitVec 32, x₁.body.Simulates x₁.body (fun c => c.value v = some (.word w))
      (fun σ => some (σ, Found.value w)) fun found c => (Operand.value pos .int v).Means found c :=
    fun w => (Body.Simulates.stays (.refl _) rfl (Found.value w)).weaken (fun _ h => h)
      (fun _ => rfl) fun _ c ⟨hr, h⟩ => ⟨w, hr, h⟩
  cases op with
  | neg =>
    refine Lowers.bind (lowers_binary .sub rfl (.zero _ O .int) hv)
      fun u x₂ h₂ ⟨hu, hput⟩ => Lowers.pure ⟨⟨rfl, hu⟩, fun found => ?_⟩
    refine (hread found).read h₁.site.le h₂.site.le fun w => ?_
    refine (hput (Found.value (-w)) (p := 0) (q := w) (s := -w) ?_).weaken
      (fun c h => ⟨value_zero c, h⟩) (fun _ => rfl) fun _ c ⟨hr, h⟩ => ⟨-w, hr, h⟩
    simp [Opcode.onWords]
  | not =>
    refine Lowers.bind (lowers_icmp hv (.zero _ O .int)) fun bit x₂ h₂ ⟨hbit, hcmp⟩ => ?_
    refine Lowers.bind (lowers_fromBool hbit) fun u x₃ h₃ ⟨hu, hword⟩ => ?_
    refine Lowers.pure ⟨⟨rfl, hu⟩, fun found => ?_⟩
    refine (hread found).read h₁.site.le (h₂.site.le.trans h₃.site.le) fun w => ?_
    refine Body.Simulates.after ((hcmp ()).weaken (fun c h => ⟨h, value_zero c⟩) (fun _ => rfl)
      fun _ _ h => h.2) h₂.site.le h₃.site.le ?_
    exact (hword (Found.value (ofBool (w == 0)))).weaken (fun _ h => h) (fun _ => rfl)
      fun _ c ⟨hr, h⟩ => ⟨_, hr, h⟩
  | bitNot =>
    refine Lowers.bind (lowers_binary .xor rfl hv (.int _ O _)) fun u x₂ h₂ ⟨hu, hput⟩ =>
      Lowers.pure ⟨⟨rfl, hu⟩, fun found => ?_⟩
    refine (hread found).read h₁.site.le h₂.site.le fun w => ?_
    refine (hput (Found.value (~~~w)) (p := w) (q := .allOnes 32) (s := ~~~w) ?_).weaken
      (fun c h => ⟨h, rfl⟩) (fun _ => rfl) fun _ c ⟨hr, h⟩ => ⟨_, hr, h⟩
    exact congrArg some BitVec.xor_allOnes
  | plus =>
    exact Lowers.pure ⟨⟨rfl, hv⟩, fun found =>
      (hread found).read h₁.site.le (.refl _) hkeep⟩
  | step s =>
    exact Lowers.pure ⟨⟨rfl, hv⟩, fun found =>
      (hread found).read h₁.site.le (.refl _) hkeep⟩

/-- A value is kept in a variable. -/
theorem lowers_store {v : Value} {name : String} {sym : Symbol DataType Value}
    (hx : x.Local O ns) (hv : x.site.Has O v .i32)
    (haddr : x.site.Has O sym.handle (.pointer .i32)) (hsym : x.scopes.local? name = some sym) :
    Lowers O ρ (emit (Emit.store v sym.handle)) x fun _ x' =>
      ∀ {β : Type} {w : BitVec 32} (r : β),
        x.body.Simulates x'.body (fun c => c.value v = some (.word w))
          (fun σ => some (σ.set name w, r)) fun r' _ => r' = r := by
  refine (Lowers.emit (Emits.store_puts (by simp) hv haddr)).weaken
    fun _ x' hlead ⟨u, hputs⟩ => fun r => ?_
  exact .store hputs hlead.scopes hsym hx.distinct (fun _ h => h) r

/-- A step of a variable. -/
theorem simulates_step {s : Step} {post : Bool} {text : String} (hx : x.Local O ns)
    (ha : a.IsInt O x) :
    Lowers O ρ (step pos s post text a) x fun r x' => r.IsInt O x' ∧
      ∀ found, x.body.Simulates x'.body (fun c => a.Means found c)
        (Meaning.step s post found) fun found c => r.Means found c := by
  cases a with
  | value q type v => exact Lowers.fail
  | place q type addr name isConst =>
    cases isConst with
    | true => exact Lowers.fail
    | false =>
      obtain ⟨rfl, haddr, sym, hsym, rfl⟩ := ha
      have hfixed : (Emit.opcode s.op .int).isFloating = false := by cases s <;> rfl
      have hone : ∀ w, ∃ new, Meaning.arith w 1 s.op = some new := by
        intro w
        cases s <;> exact ⟨_, rfl⟩
      rw [step_int]
      have hplace : (Operand.place q .int sym.handle name false).IsInt O x :=
        ⟨rfl, haddr, sym, hsym, rfl⟩
      refine Lowers.bind (simulates_valueOf hplace) fun old x₁ h₁ ⟨hold, hread⟩ => ?_
      refine Lowers.bind (lowers_binary _ hfixed hold (.int _ O 1)) fun new x₂ h₂ ⟨hnew, hput⟩ => ?_
      have hx₂ := (hx.leads h₁).leads h₂
      have hsym₂ : x₂.scopes.local? name = some sym := by
        rw [h₂.scopes, h₁.scopes]
        exact hsym
      refine Lowers.bind (lowers_store hx₂ hnew (h₂.site.has (h₁.site.has haddr)) hsym₂)
        fun _ x₃ h₃ hstore => ?_
      refine Lowers.pure ⟨⟨rfl, ?_⟩, fun found => ?_⟩
      · cases post
        · exact h₃.site.has hnew
        · exact h₃.site.has (h₂.site.has hold)
      -- the old and the new value stay known while the new one is kept
      have hold₁ := hx.leads h₁
      have hsecond : ∀ w, x₁.body.Simulates x₃.body (fun c => c.value old = some (.word w))
          (fun σ => (Meaning.arith w 1 s.op).map fun n =>
            (σ.set name n, Found.value (if post then w else n)))
          fun found c => (Operand.value pos .int (if post then old else new)).Means found c := by
        intro w
        obtain ⟨n, hn⟩ := hone w
        have hcompute := (hput () ((onWords_opcode s.op w 1).trans hn)).frame
          (R := fun c => c.value old = some (.word w)) fun c c' hagrees h =>
            (hold₁.value_eq hold hagrees).trans h
        have hkeep := (hstore (Found.value (if post then w else n)) (w := n)).frame
          (R := fun c => c.value old = some (.word w) ∧ c.value new = some (.word n))
          fun c c' hagrees h => ⟨(hx₂.value_eq (h₂.site.has hold) hagrees).trans h.1,
            (hx₂.value_eq hnew hagrees).trans h.2⟩
        have hall := hcompute.after h₂.site.le h₃.site.le
          (hkeep.weaken (fun c h => ⟨h.1.2, h.2, h.1.2⟩) (fun _ => rfl) fun _ _ h => h)
        refine hall.weaken (fun c h => ⟨⟨h, rfl⟩, h⟩) (fun σ => ?_) fun r c h => ?_
        · rw [hn]
          rfl
        · obtain ⟨rfl, hw, hn⟩ := h
          cases post
          · exact ⟨n, rfl, hn⟩
          · exact ⟨w, rfl, hw⟩
      intro f σ c hf hle hc hmeans
      -- only a place is stepped, and the store gives what it holds
      obtain rfl : found = .place name := hmeans
      refine ((hread (.place name)).bind h₁.site.le (h₂.site.le.trans h₃.site.le)
        hsecond).weaken (fun _ h => h) (fun σ => ?_) (fun _ _ h => h) f σ c hf hle hc rfl
      rw [Found.read, Meaning.step]
      rcases σ.get? name with _ | w
      · rfl
      · change Option.map _ (Meaning.arith w 1 s.op) = Option.bind (Meaning.arith w 1 s.op) _
        rcases Meaning.arith w 1 s.op with _ | n <;> rfl
  | _ => exact ha.elim

/-- The value that an assignment keeps. -/
theorem simulates_assigned {op : Option ArithOp} {text : String} (name : String)
    (hx : x.Local O ns) (hop : op.all isTotal = true) (ha : a.IsInt O x) (hb : b.IsInt O x) :
    Lowers O ρ (assigned pos op text a b) x fun v x' => x'.site.Has O v .i32 ∧
      ∀ found, x.body.Simulates x'.body (fun c => a.Means (.place name) c ∧ b.Means found c)
        (fun σ => (Meaning.assigned op name found σ).map fun w => (σ, w))
        fun w c => c.value v = some (.word w) := by
  cases op with
  | none =>
    refine Lowers.insteadOf ?_
    rw [ha.type_eq, valueAs_eq hb.type_eq]
    exact (simulates_valueOf hb).weaken fun v x' _ ⟨hv, hread⟩ => ⟨hv, fun found =>
      (hread found).weaken (fun _ h => h.2) (fun _ => rfl) fun _ _ h => h⟩
  | some op =>
    refine Lowers.bind (simulates_arith hx hop ha hb) fun r x₁ h₁ ⟨v, hr, hv, hsim⟩ => ?_
    subst hr
    rw [ha.type_eq]
    refine Lowers.insteadOf (Lowers.pure ⟨hv, fun found => ?_⟩)
    refine (hsim (.place name) found).weaken (fun _ h => h) (fun σ => ?_) fun _ _ h => h
    have hget : (Found.place name).read σ = σ.get? name := rfl
    simp only [Meaning.assigned, hget]
    rcases σ.get? name with _ | p <;> rcases found.read σ with _ | q <;> simp
    rcases Meaning.arith p q op with _ | r <;> rfl

/-- An assignment to a variable. -/
theorem simulates_assign {op : Option ArithOp} {text : String} {rhs : Lower Operand}
    {m : Store → Option (Store × Found)} (hx : x.Local O ns) (hop : op.all isTotal = true)
    (ha : a.IsInt O x)
    (hrhs : Lowers O ρ rhs x fun r x' => r.IsInt O x' ∧
      x.body.Simulates x'.body (fun _ => True) m fun found c => r.Means found c) :
    Lowers O ρ (assign pos op text a rhs) x fun r x' => r.IsInt O x' ∧
      ∀ found, x.body.Simulates x'.body (fun c => a.Means found c) (fun σ =>
        match found with
        | .value _ => none
        | .place name => do
          let (σ, b) ← m σ
          let w ← Meaning.assigned op name b σ
          return (σ.set name w, .value w)) fun found c => r.Means found c := by
  cases a with
  | value q type v => exact Lowers.fail
  | place q type addr name isConst =>
    obtain ⟨rfl, haddr, sym, hsym, rfl⟩ := id ha
    simp only [assign, Operand.target?]
    refine Lowers.check fun _ => ?_
    refine Lowers.bind hrhs fun b x₁ h₁ ⟨hb, hm⟩ => ?_
    have hx₁ := hx.leads h₁
    refine Lowers.bind (simulates_assigned name hx₁ hop (ha.leads h₁) hb)
      fun v x₂ h₂ ⟨hv, hvalue⟩ => ?_
    have hsym₂ : x₂.scopes.local? name = some sym := by
      rw [h₂.scopes, h₁.scopes]
      exact hsym
    have hx₂ := hx₁.leads h₂
    refine Lowers.bind (lowers_store hx₂ hv (h₂.site.has (h₁.site.has haddr)) hsym₂)
      fun _ x₃ h₃ hstore => ?_
    refine Lowers.pure ⟨⟨rfl, h₃.site.has hv⟩, fun found f σ c hf hle hc hmeans => ?_⟩
    obtain rfl : found = .place name := hmeans
    -- the value stays known while it is stored, and is what the assignment results in
    have hkeep : ∀ w, x₂.body.Simulates x₃.body (fun c => c.value v = some (.word w))
        (fun σ => some (σ.set name w, Found.value w))
        fun found c => (Operand.value pos .int v).Means found c := fun w =>
      ((hstore (Found.value w)).frame (R := fun c => c.value v = some (.word w))
        fun c c' hagrees h => (hx₂.value_eq hv hagrees).trans h).weaken (fun _ h => ⟨h, h⟩)
        (fun _ => rfl) fun _ c h => ⟨w, h.1, h.2⟩
    have hrest : ∀ found, x₁.body.Simulates x₃.body (fun c => b.Means found c)
        (fun σ => (Meaning.assigned op name found σ).map fun w => (σ.set name w, Found.value w))
        fun found c => (Operand.value pos .int v).Means found c := fun found => by
      refine ((hvalue found).bind h₂.site.le h₃.site.le hkeep).weaken
        (fun c h => ⟨rfl, h⟩) (fun σ => ?_) fun _ _ h => h
      rcases Meaning.assigned op name found σ with _ | w <;> rfl
    have hall := hm.bind h₁.site.le (h₂.site.le.trans h₃.site.le) hrest
    have hmeaning : ((m σ).bind fun p => (Meaning.assigned op name p.2 p.1).map fun w =>
        (p.1.set name w, Found.value w)) = do
          let (σ, b) ← m σ
          let w ← Meaning.assigned op name b σ
          return (σ.set name w, .value w) := by
      rcases m σ with _ | ⟨σ, b⟩
      · rfl
      · change Option.map _ (Meaning.assigned op name b σ) =
          Option.bind (Meaning.assigned op name b σ) _
        rcases Meaning.assigned op name b σ with _ | w <;> rfl
    obtain ⟨σ', r, hr, hreach⟩ := hall f σ c hf hle hc trivial
    exact ⟨σ', r, hmeaning.symm.trans hr, hreach⟩
  | _ => exact ha.elim

end

end Shader.Lowering
