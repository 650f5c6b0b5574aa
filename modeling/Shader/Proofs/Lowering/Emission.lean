import Shader.Proofs.Lowering.Progress

/-!
# What operations write

Each operation on values of the shader's types leads on and ends with a value of the type that it
should have, provided that its operands have the types that it is made for. The conditions are those
that lowering checks before it writes; where they hold, no operation meets a fault.
-/

namespace Shader

namespace DataType

/-- Single numbers and vectors, on which instructions work as they are. -/
def isFlat : DataType → Bool
  | scalar _ | vector _ _ => true
  | _ => false

end DataType

namespace Ir

/-- The type of a comparison, component by component. -/
def Ty.bits : DataType → Ty
  | .vector _ n => vector n.size i1
  | _ => i1

/-! ## Classes of the shader's types -/

theorem lanewise_isFloat {t : DataType} (ht : t.isFlat = true) (h : t.isFloating = true) :
    (Ty.ofData t).lanewise Ty.isFloat = true := by
  cases t with
  | scalar s => revert h; cases s <;> decide
  | vector s n => revert h; cases s <;> cases n <;> decide
  | void => cases ht
  | matrix n => cases ht

theorem lanewise_isInt {t : DataType} (ht : t.isFlat = true) (h : t.isFloating = false) :
    (Ty.ofData t).lanewise Ty.isInt = true := by
  cases t with
  | scalar s => revert h; cases s <;> decide
  | vector s n => revert h; cases s <;> cases n <;> decide
  | void => cases ht
  | matrix n => cases ht

/-- The instruction for an operator suits the type that it is picked for. -/
theorem fits_opcode {op : ArithOp} {t : DataType} (ht : t.isFlat = true)
    (h : op.isIntegral = true → t.isFloating = false) :
    (Emit.opcode op t).fits (Ty.ofData t) = true := by
  rcases hf : t.isFloating with _ | _
  · have hint := lanewise_isInt ht hf
    cases op <;> simp only [Emit.opcode, hf] <;> cases t.isUnsigned <;>
      simpa [Opcode.fits, Opcode.isFloating] using hint
  · have hfloat := lanewise_isFloat ht hf
    have hop : op.isIntegral = false := by
      rcases hi : op.isIntegral with _ | _
      · rfl
      · rw [h hi] at hf
        cases hf
    cases op <;> simp [ArithOp.isIntegral] at hop <;>
      simpa [Emit.opcode, hf, Opcode.fits, Opcode.isFloating] using hfloat

namespace Site.Has

variable {O : Outside} {ρ : Realm} {s : Site} {x y z : Value} {σ τ υ : Ty}

/-- One operand. -/
theorem one (hx : s.Has O x σ) : ∀ v ∈ [x], ∃ σ, s.Has O v σ :=
  List.forall_mem_singleton.2 ⟨σ, hx⟩

/-- Two operands. -/
theorem two (hx : s.Has O x σ) (hy : s.Has O y τ) : ∀ v ∈ [x, y], ∃ σ, s.Has O v σ :=
  List.forall_mem_cons.2 ⟨⟨σ, hx⟩, hy.one⟩

/-- Three operands. -/
theorem three (hx : s.Has O x σ) (hy : s.Has O y τ) (hz : s.Has O z υ) :
    ∀ v ∈ [x, y, z], ∃ σ, s.Has O v σ := List.forall_mem_cons.2 ⟨⟨σ, hx⟩, hy.two hz⟩

end Site.Has

namespace Emits

variable {O : Outside} {ρ : Realm} {s : Site}

/-! ## Memory -/

theorem load {t : DataType} {addr : Value} (ht : t ≠ .void)
    (ha : s.Has O addr (.pointer (Ty.ofData t))) :
    Emits O ρ (Emit.load t addr) s fun v s' => s'.Has O v (Ty.ofData t) :=
  append rfl rfl ⟨Ty.ofData_ne_void ht, ha.type⟩ rfl ha.one

theorem store_puts {v addr : Value} {τ : Ty} (hτ : τ ≠ .void) (hv : s.Has O v τ)
    (ha : s.Has O addr (.pointer τ)) :
    Emits O ρ (Emit.store v addr) s fun _ s' =>
      ∃ u, s.draft.Puts (.store v addr) u s'.draft := by
  have htype : (Inst.store v addr).type? = some .void := by
    simp [Inst.type?, hv.type, ha.type]
  have hty : (Inst.store v addr).WellTyped O := by
    rw [Inst.WellTyped, hv.type]
    exact ⟨hτ, ha.type⟩
  exact discard ((append_puts rfl rfl hty htype (hv.two ha)).weaken fun u _ _ h => ⟨u, h.2⟩)

theorem store {v addr : Value} {τ : Ty} (hτ : τ ≠ .void) (hv : s.Has O v τ)
    (ha : s.Has O addr (.pointer τ)) : Emits O ρ (Emit.store v addr) s fun _ _ => True :=
  (store_puts hτ hv ha).weaken fun _ _ _ _ => trivial

/-- A value of an integer type can be an index, and one number at a time. -/
theorem isIndex_of_i32 {v : Value} (h : v.type = .i32) : v.isIndex = true ∧ v.lanes = 0 := by
  cases v with
  | const c => cases c <;> simp_all [Value.type, Const.type, Value.isIndex, Value.lanes]
  | global id content => cases h
  | param func i name type =>
    obtain rfl : type = .i32 := h
    exact ⟨rfl, rfl⟩
  | result func r name type =>
    obtain rfl : type = .i32 := h
    exact ⟨rfl, rfl⟩

theorem columnAddr {n : Dim} {addr idx : Value}
    (ha : s.Has O addr (.pointer (Ty.ofData (.matrix n)))) (hi : s.Has O idx .i32) :
    Emits O ρ (Emit.columnAddr (.matrix n) addr idx) s fun v s' =>
      s'.Has O v (.pointer (Ty.ofData (.vector .float n))) := by
  obtain ⟨hidx, hlanes⟩ := isIndex_of_i32 hi.type
  have htype : (Inst.elementAddr (Ty.ofData (.matrix n)) addr idx).type? =
      some (.pointer (Ty.ofData (.vector .float n))) := by
    simp [Inst.type?, Ty.ofData, hidx, Ty.addressOf, ha.type, hlanes, Ty.ofScalar]
  exact append rfl rfl ⟨⟨n, rfl⟩, ha.type, hi.type⟩ htype (ha.two hi)

/-! ## Components -/

theorem lane {x idx : Value} {n : Nat} {τ : Ty} (hx : s.Has O x (.vector n τ))
    (hi : s.Has O idx .i32) : Emits O ρ (Emit.lane x idx) s fun v s' => s'.Has O v τ := by
  have htype : (Inst.extractElement x idx).type? = some τ := by simp [Inst.type?, hx.type]
  exact append rfl rfl ⟨⟨n, τ, hx.type⟩, hi.type⟩ htype (hx.two hi)

theorem setLane {x elem idx : Value} {n : Nat} {τ : Ty} (hx : s.Has O x (.vector n τ))
    (he : s.Has O elem τ) (hi : s.Has O idx .i32) :
    Emits O ρ (Emit.setLane x elem idx) s fun v s' => s'.Has O v (.vector n τ) := by
  have htype : (Inst.insertElement x elem idx).type? = some (.vector n τ) := by
    simp [Inst.type?, hx.type]
  exact append rfl rfl ⟨⟨n, by rw [hx.type, he.type]⟩, hi.type⟩ htype (hx.three he hi)

theorem column {x : Value} {n : Dim} {i : Nat} (hx : s.Has O x (Ty.ofData (.matrix n)))
    (hi : i < n.size) :
    Emits O ρ (Emit.column x i) s fun v s' => s'.Has O v (Ty.ofData (.vector .float n)) := by
  have htype : (Inst.extractValue x i).type? = some (Ty.ofData (.vector .float n)) := by
    simp [Inst.type?, hx.type, Ty.ofData, Ty.part?, Ty.ofScalar]
  exact append rfl rfl ⟨n, hx.type, hi⟩ htype hx.one

theorem setColumn {x col : Value} {n : Dim} {i : Nat} (hx : s.Has O x (Ty.ofData (.matrix n)))
    (hc : s.Has O col (Ty.ofData (.vector .float n))) (hi : i < n.size) :
    Emits O ρ (Emit.setColumn x col i) s fun v s' => s'.Has O v (Ty.ofData (.matrix n)) := by
  have htype : (Inst.insertValue x col i).type? = some (Ty.ofData (.matrix n)) := by
    simp [Inst.type?, hx.type, hc.type, Ty.ofData, Ty.part?, Ty.ofScalar]
  exact append rfl rfl ⟨n, hx.type, hc.type, hi⟩ htype (hx.two hc)

theorem splatLanes {c : ScalarType} {n : Dim} {v : Value} (hv : s.Has O v (Ty.ofScalar c)) :
    Emits O ρ (Emit.splatLanes (.vector c n) v) s fun w s' =>
      s'.Has O w (Ty.ofData (.vector c n)) := by
  refine foldlM (fun s' w i _ hlead hw => ?_) (Site.Has.const s O (.undef _))
  exact setLane hw (hlead.has hv) (.index s' O i)

theorem splat {t : DataType} {c : ScalarType} {v : Value} (hc : t.component? = some c)
    (ht : t.isScalar = false) (hv : s.Has O v (Ty.ofScalar c)) :
    Emits O ρ (Emit.splat t v) s fun w s' => s'.Has O w (Ty.ofData t) := by
  cases t with
  | void => cases hc
  | scalar r => cases ht
  | vector r n =>
    obtain rfl := Option.some.inj hc
    exact splatLanes hv
  | matrix n =>
    obtain rfl := Option.some.inj hc
    refine bind (splatLanes hv) fun col s₁ hlead hcol => ?_
    refine foldlM (fun s' m i hi hlead' hm => ?_) (Site.Has.const s₁ O (.undef _))
    exact setColumn hm (hlead'.has hcol) (List.mem_range.1 hi)

theorem const {t : DataType} {x : Numeral.Dyadic} (ht : t ≠ .void) :
    Emits O ρ (Emit.const t x) s fun v s' => s'.Has O v (Ty.ofData t) := by
  have hnum : ∀ (c : ScalarType) (s : Site), s.Has O (.const (.ofScalar c x)) (Ty.ofScalar c) := by
    intro c s
    have h := Site.Has.const s O (.ofScalar c x)
    rw [Const.type_ofScalar] at h
    exact h
  cases t with
  | void => exact absurd rfl ht
  | scalar c => exact pure (hnum c s)
  | vector c n => exact splat (t := .vector c n) rfl rfl (hnum c s)
  | matrix n => exact splat (t := .matrix n) rfl rfl (hnum .float s)

/-! ## Arithmetic -/

theorem binary {op : ArithOp} {t : DataType} {x y : Value} (ht : t.isFlat = true)
    (hop : op.isIntegral = true → t.isFloating = false) (hx : s.Has O x (Ty.ofData t))
    (hy : s.Has O y (Ty.ofData t)) :
    Emits O ρ (Emit.binary op t x y) s fun v s' => s'.Has O v (Ty.ofData t) := by
  refine append rfl rfl ⟨?_, ?_⟩ ?_ (hx.two hy)
  · rw [hx.type, hy.type]
  · rw [hx.type]
    exact fits_opcode ht hop
  · rw [Inst.type?, hx.type]

/-- An operation on bits. -/
theorem bitwise {op : Opcode} {x y : Value} (hop : op.isFloating = false) (hx : s.Has O x .i1)
    (hy : s.Has O y .i1) :
    Emits O ρ (Emit.append (.binary op x y)) s fun v s' => s'.Has O v .i1 := by
  refine append rfl rfl ⟨?_, ?_⟩ ?_ (hx.two hy)
  · rw [hx.type, hy.type]
  · rw [hx.type, Opcode.fits, hop]
    rfl
  · rw [Inst.type?, hx.type]

theorem neg {t : DataType} {x : Value} (ht : t.isFlat = true) (hx : s.Has O x (Ty.ofData t)) :
    Emits O ρ (Emit.neg t x) s fun v s' => s'.Has O v (Ty.ofData t) := by
  unfold Emit.neg
  split
  next hf =>
    refine append rfl rfl ?_ ?_ hx.one
    · rw [Inst.WellTyped, hx.type]
      exact lanewise_isFloat ht hf
    · rw [Inst.type?, hx.type]
  next hf =>
    have hzero := Site.Has.zero s O t
    refine append rfl rfl ⟨?_, ?_⟩ ?_ (hzero.two hx)
    · rw [hzero.type, hx.type]
    · rw [hzero.type]
      exact lanewise_isInt ht (by simpa using hf)
    · rw [Inst.type?, hzero.type]

/-! ## Comparison -/

theorem icmp {p : IntPred} {t : DataType} {x y : Value} (ht : t.isFlat = true)
    (hf : t.isFloating = false) (hx : s.Has O x (Ty.ofData t)) (hy : s.Has O y (Ty.ofData t)) :
    Emits O ρ (Emit.append (.icmp p x y)) s fun v s' => s'.Has O v (Ty.bits t) := by
  refine append rfl rfl ⟨?_, ?_⟩ ?_ (hx.two hy)
  · rw [hx.type, hy.type]
  · rw [hx.type]
    exact lanewise_isInt ht hf
  · rw [Inst.type?, hx.type]
    revert hf
    cases t with
    | scalar c => cases c <;> simp [DataType.isFloating, DataType.component?,
        ScalarType.isFloating, Ty.ofData, Ty.ofScalar, Ty.icmp?, Ty.bits]
    | vector c n => exact fun _ => rfl
    | void => cases ht
    | matrix n => cases ht

theorem fcmp {p : FloatPred} {t : DataType} {x y : Value} (ht : t.isFlat = true)
    (hf : t.isFloating = true) (hx : s.Has O x (Ty.ofData t)) (hy : s.Has O y (Ty.ofData t)) :
    Emits O ρ (Emit.append (.fcmp p x y)) s fun v s' => s'.Has O v (Ty.bits t) := by
  refine append rfl rfl ⟨?_, ?_⟩ ?_ (hx.two hy)
  · rw [hx.type, hy.type]
  · rw [hx.type]
    exact lanewise_isFloat ht hf
  · rw [Inst.type?, hx.type]
    revert hf
    cases t with
    | scalar c => cases c <;> simp [DataType.isFloating, DataType.component?,
        ScalarType.isFloating, Ty.ofData, Ty.ofScalar, Ty.fcmp?, Ty.bits]
    | vector c n => exact fun _ => rfl
    | void => cases ht
    | matrix n => cases ht

theorem compareLanes {op : RelOp} {t : DataType} {x y : Value} (ht : t.isFlat = true)
    (hx : s.Has O x (Ty.ofData t)) (hy : s.Has O y (Ty.ofData t)) :
    Emits O ρ (Emit.compareLanes op t x y) s fun v s' => s'.Has O v (Ty.bits t) := by
  unfold Emit.compareLanes
  split
  next hf => exact fcmp ht hf hx hy
  next hf => exact icmp ht (by simpa using hf) hx hy

theorem compare {op : RelOp} {t : DataType} {x y : Value} (ht : t.isFlat = true)
    (hop : t.isVector = true → op.isOrdered = false) (hx : s.Has O x (Ty.ofData t))
    (hy : s.Has O y (Ty.ofData t)) :
    Emits O ρ (Emit.compare op t x y) s fun v s' => s'.Has O v .i1 := by
  cases t with
  | void => cases ht
  | matrix n => cases ht
  | scalar c => exact compareLanes ht hx hy
  | vector c n =>
    simp only [Emit.compare, hop rfl]
    refine bind (compareLanes ht hx hy) fun lanes s₁ _ hlanes => ?_
    refine bind (lane hlanes (.index s₁ O 0)) fun first s₂ hlead hfirst => ?_
    refine foldlM (fun s' all i _ hlead' hall => ?_) hfirst
    have hlanes' := hlead'.has (hlead.has hlanes)
    refine bind (lane hlanes' (.index s' O (i + 1))) fun next s₃ hlead₃ hnext => ?_
    refine bitwise ?_ (hlead₃.has hall) hnext
    split <;> rfl

theorem truth {t : DataType} {x : Value} (ht : t.isFlat = true) (hx : s.Has O x (Ty.ofData t)) :
    Emits O ρ (Emit.truth t x) s fun v s' => s'.Has O v .i1 :=
  compare ht (fun _ => rfl) hx (.zero s O t)

/-- A conversion. -/
theorem cast_puts {op : CastOp} {x : Value} {σ τ : Ty} (h : op.legal σ τ = true)
    (hx : s.Has O x σ) :
    Emits O ρ (Emit.append (.cast op x τ)) s fun v s' =>
      s'.Has O v τ ∧ s.draft.Puts (.cast op x τ) v s'.draft := by
  refine append_puts rfl rfl ?_ rfl hx.one
  rw [Inst.WellTyped, hx.type]
  exact h

theorem cast {op : CastOp} {x : Value} {σ τ : Ty} (h : op.legal σ τ = true) (hx : s.Has O x σ) :
    Emits O ρ (Emit.append (.cast op x τ)) s fun v s' => s'.Has O v τ :=
  (cast_puts h hx).weaken fun _ _ _ hv => hv.1

theorem fromBool {c : Value} (hc : s.Has O c .i1) :
    Emits O ρ (Emit.fromBool c) s fun v s' => s'.Has O v .i32 := cast rfl hc

/-! ## Conversion -/

/-- Two types of one shape, with the types of their numbers. -/
inductive SameShape : DataType → ScalarType → DataType → ScalarType → Prop
  /-- single numbers -/
  | scalar (c r : ScalarType) : SameShape (.scalar c) c (.scalar r) r
  /-- vectors of one length -/
  | vector (c r : ScalarType) (n : Dim) : SameShape (.vector c n) c (.vector r n) r

theorem SameShape.legal {src dst : DataType} {c r : ScalarType} (h : SameShape src c dst r)
    {op : CastOp} (hop : op.takes (Ty.ofScalar c) (Ty.ofScalar r) = true) :
    op.legal (Ty.ofData src) (Ty.ofData dst) = true := by
  cases h with
  | scalar => cases c <;> cases r <;> exact hop
  | vector c r n => simpa [Ty.ofData, CastOp.legal] using hop

theorem SameShape.zext {src dst : DataType} {c : ScalarType} (h : SameShape src c dst .bool) :
    CastOp.zext.legal (Ty.bits src) (Ty.ofData dst) = true := by
  cases h with
  | scalar => rfl
  | vector _ _ n => cases n <;> rfl

theorem convertLanes {src dst : DataType} {c r : ScalarType} {x : Value}
    (h : SameShape src c dst r) (hx : s.Has O x (Ty.ofData src)) :
    Emits O ρ (Emit.convertLanes x src dst c r) s fun v s' => s'.Has O v (Ty.ofData dst) := by
  have hflat : src.isFlat = true := by cases h <;> rfl
  have hfloating : src.isFloating = c.isFloating := by cases h <;> rfl
  -- numbers of types that share their representation stay as they are
  have hsame : Ty.ofScalar c = Ty.ofScalar r → Ty.ofData src = Ty.ofData dst := by
    intro heq
    cases h <;> simp [Ty.ofData, heq]
  have hcast : ∀ {op : CastOp}, op.takes (Ty.ofScalar c) (Ty.ofScalar r) = true →
      Emits O ρ (Emit.append (.cast op x (Ty.ofData dst))) s fun v s' =>
        s'.Has O v (Ty.ofData dst) :=
    fun hop => cast (h.legal hop) hx
  have hkeep : Ty.ofScalar c = Ty.ofScalar r →
      Emits O ρ (Pure.pure x) s fun v s' => s'.Has O v (Ty.ofData dst) :=
    fun heq => pure (hsame heq ▸ hx)
  cases r with
  | bool =>
    have hzero := Site.Has.zero s O src
    simp only [Emit.convertLanes]
    split
    next hf =>
      exact bind (fcmp hflat (hfloating.trans hf) hx hzero) fun v s' _ hv => cast h.zext hv
    next hf =>
      refine bind (icmp hflat (hfloating.trans ?_) hx hzero) fun v s' _ hv => cast h.zext hv
      simpa using hf
  | int => cases c <;> first | exact hkeep rfl | exact hcast rfl
  | uint => cases c <;> first | exact hkeep rfl | exact hcast rfl
  | float => cases c <;> first | exact hkeep rfl | exact hcast rfl
  | double => cases c <;> first | exact hkeep rfl | exact hcast rfl

/-- A conversion that exists: an implicit one, or from the first component of a vector. -/
theorem convert {src dst : DataType} {x : Value}
    (h : src.convertible dst = true ∨ src.isVector = true ∧ dst.isScalar = true)
    (hx : s.Has O x (Ty.ofData src)) :
    Emits O ρ (Emit.convert x src dst) s fun v s' => s'.Has O v (Ty.ofData dst) := by
  unfold Emit.convert
  split
  next heq =>
    subst heq
    exact pure hx
  next hne =>
    cases src with
    | void => simp [DataType.convertible, DataType.isVector] at h
    | matrix m =>
      cases dst with
      | matrix n =>
        obtain rfl : m = n := by simpa [DataType.convertible, DataType.isVector] using h
        exact absurd rfl hne
      | _ => simp [DataType.convertible, DataType.isVector] at h
    | scalar c =>
      cases dst with
      | void => simp [DataType.convertible, DataType.isVector] at h
      | scalar r => exact convertLanes (.scalar c r) hx
      | vector r n =>
        exact bind (convertLanes (.scalar c r) hx) fun v s' _ hv => splat rfl rfl hv
      | matrix n =>
        exact bind (convertLanes (.scalar c .float) hx) fun v s' _ hv => splat rfl rfl hv
    | vector c m =>
      cases dst with
      | void => simp [DataType.convertible, DataType.isScalar] at h
      | matrix n => simp [DataType.convertible, DataType.isScalar] at h
      | scalar r =>
        exact bind (lane hx (.index s O 0)) fun v s' _ hv => convertLanes (.scalar c r) hv
      | vector r n =>
        obtain rfl : m = n := by simpa [DataType.convertible, DataType.isScalar] using h
        simp only [if_true]
        exact convertLanes (.vector c r m) hx

end Emits

end Ir

end Shader
