import Shader.Lowering.Construct
import Shader.Proofs.Lowering.Emission

/-!
# Operands, constructors and matrix products

An operand is sound if what it holds can be used and has the type that it says. The value of
a sound operand can be taken, converted and stored; the components of sound operands make a value of
the type that is constructed.
-/

namespace Shader.Lowering

open Ir

/-! ## Operands -/

/-- What an operand holds can be used at the site and is of the type that the operand has. -/
def Operand.Sound (O : Outside) (s : Site) : Operand → Prop
  | nothing _ => True
  | value _ t v => t ≠ .void ∧ s.Has O v (Ty.ofData t)
  | place _ t addr _ _ => t ≠ .void ∧ s.Has O addr (.pointer (Ty.ofData t))
  | lane _ c n addr idx _ _ =>
    s.Has O addr (.pointer (Ty.ofData (.vector c n))) ∧ s.Has O idx .i32

/-- An operand stays sound where the code goes on. -/
theorem Operand.Sound.mono {O : Outside} {ρ : Realm} {s s' : Site} (h : s.Leads O ρ s')
    {a : Operand} (ha : a.Sound O s) : a.Sound O s' := by
  cases a with
  | nothing pos => trivial
  | value pos t v => exact ⟨ha.1, h.has ha.2⟩
  | place pos t addr name isConst => exact ⟨ha.1, h.has ha.2⟩
  | lane pos c n addr idx name isConst => exact ⟨h.has ha.1, h.has ha.2⟩

namespace Lowers

variable {O : Outside} {ρ : Realm} {x : Walk}

/-- Taking the value of an operand fails only if it has none. -/
theorem valueOf {a : Operand} (ha : a.Sound O x.site) :
    Lowers O ρ (Lowering.valueOf a) x fun v x' =>
      a.type ≠ .void ∧ x'.site.Has O v (Ty.ofData a.type) := by
  cases a with
  | nothing pos => exact Lowers.fail
  | value pos t v => exact Lowers.pure ha
  | place pos t addr name isConst =>
    exact (Lowers.emit (Emits.load ha.1 ha.2)).weaken fun v x' _ hv => ⟨ha.1, hv⟩
  | lane pos c n addr idx name isConst =>
    have hload : Emits O ρ (Emit.load (.vector c n) addr >>= fun v => Emit.lane v idx) x.site
        fun v s' => s'.Has O v (Ty.ofScalar c) :=
      Emits.bind (Emits.load (by simp) ha.1) fun v s' hlead hv => Emits.lane hv (hlead.has ha.2)
    exact (Lowers.emit hload).weaken fun v x' _ hv => ⟨by simp [Operand.type], hv⟩

/-- The value of an operand, converted to a type, has this type. -/
theorem valueAs {a : Operand} {t : DataType} (ha : a.Sound O x.site) :
    Lowers O ρ (Lowering.valueAs a t) x fun v x' => t ≠ .void ∧ x'.site.Has O v (Ty.ofData t) := by
  refine Lowers.bind (Lowers.valueOf ha) fun v x' hlead hv => ?_
  split
  next heq =>
    subst heq
    exact Lowers.pure hv
  next =>
    split
    next hconv =>
      have ht : t ≠ .void := by
        rintro rfl
        revert hconv
        cases a.type <;> simp [DataType.convertible]
      exact (Lowers.emit (Emits.convert (.inl hconv) hv.2)).weaken fun w _ _ hw => ⟨ht, hw⟩
    next => exact Lowers.fail

/-- A value can be kept in every variable of its type. -/
theorem storeTo {a : Operand} {v : Value} {target : String × Bool} (ha : a.Sound O x.site)
    (htarget : a.target? = some target) (hv : x.site.Has O v (Ty.ofData a.type)) :
    Lowers O ρ (Lowering.storeTo a v) x fun _ _ => True := by
  cases a with
  | nothing pos => cases htarget
  | value pos t w => cases htarget
  | place pos t addr name isConst =>
    exact Lowers.emit (Emits.store (Ty.ofData_ne_void ha.1) hv ha.2)
  | lane pos c n addr idx name isConst =>
    have hvec : Ty.ofData (.vector c n) ≠ .void := Ty.ofData_ne_void (by simp)
    refine Lowers.emit (Q := fun _ _ => True) ?_
    refine Emits.bind (Emits.load (by simp) ha.1) fun vec s₁ h₁ hvec' => ?_
    refine Emits.bind (Emits.setLane hvec' (h₁.has hv) (h₁.has ha.2)) fun new s₂ h₂ hnew => ?_
    exact Emits.store hvec hnew (h₂.has (h₁.has ha.1))

end Lowers

/-! ## Pieces of vectors and matrices -/

namespace Pieces

variable {O : Outside} {ρ : Realm} {s : Site}

/-- Columns of the right type make a matrix. -/
theorem emits_columnwise {n : Dim} {col : Nat → Emit Value}
    (h : ∀ s' i, s.Leads O ρ s' → i < n.size →
      Emits O ρ (col i) s' fun v s'' => s''.Has O v (Ty.ofData (.vector .float n))) :
    Emits O ρ (columnwise n col) s fun v s' => s'.Has O v (Ty.ofData (.matrix n)) := by
  refine Emits.foldlM (fun s' m i hi hlead hm => ?_) (.zero s O (.matrix n))
  have hlt : i < n.size := List.mem_range.1 hi
  exact Emits.bind (h s' i hlead hlt) fun c s'' hlead' hc => Emits.setColumn (hlead'.has hm) hc hlt

/-- Components of the right type make a vector. -/
theorem emits_pack {c : ScalarType} {n : Dim} {comps : List Value}
    (h : ∀ v ∈ comps, s.Has O v (Ty.ofScalar c)) :
    Emits O ρ (pack c n comps) s fun v s' => s'.Has O v (Ty.ofData (.vector c n)) := by
  refine Emits.foldlM (fun s' v p hp hlead hv => ?_) (.zero s O (.vector c n))
  have hmem : p.1 ∈ comps := (List.mem_zipIdx' hp).2 ▸ List.getElem_mem _
  exact Emits.setLane hv (hlead.has (h p.1 hmem)) (.index s' O p.2)

/-- The components of a vector have its component type, and there are as many as it is long. -/
theorem emits_lanes {n : Dim} {v : Value} {m : Nat} {τ : Ty} (hv : s.Has O v (.vector m τ)) :
    Emits O ρ (lanes n v) s fun vs s' => vs.length = n.size ∧ ∀ w ∈ vs, s'.Has O w τ := by
  refine (Emits.mapM (P := fun w s' => s'.Has O w τ) (fun _ _ _ hlead hw => hlead.has hw) ?_).weaken
    fun vs s' _ hvs => ⟨by simpa using hvs.1, hvs.2⟩
  intro s' i _ hlead
  exact Emits.lane (hlead.has hv) (.index s' O i)

/-- The numbers that a value is made of. -/
theorem emits_scalars {t : DataType} {c : ScalarType} {v : Value} (hc : t.component? = some c)
    (hv : s.Has O v (Ty.ofData t)) :
    Emits O ρ (scalars t v) s fun vs s' =>
      vs.length = t.components ∧ ∀ w ∈ vs, s'.Has O w (Ty.ofScalar c) := by
  cases t with
  | void => cases hc
  | scalar r =>
    obtain rfl := Option.some.inj hc
    exact Emits.pure ⟨rfl, List.forall_mem_singleton.2 hv⟩
  | vector r n =>
    obtain rfl := Option.some.inj hc
    exact emits_lanes hv
  | matrix n =>
    obtain rfl := Option.some.inj hc
    have hcols : Emits O ρ ((List.range n.size).mapM fun i => do lanes n (← Emit.column v i)) s
        fun cols s' => cols.length = (List.range n.size).length ∧
          ∀ col ∈ cols, List.length col = n.size ∧ ∀ w ∈ col, s'.Has O w .float := by
      refine Emits.mapM
        (P := fun (col : List Value) s' => col.length = n.size ∧ ∀ w ∈ col, s'.Has O w .float) ?_ ?_
      · exact fun col s₁ s₂ hlead hcol => ⟨hcol.1, fun w hw => hlead.has (hcol.2 w hw)⟩
      · intro s' i hi hlead
        exact Emits.bind (Emits.column (hlead.has hv) (List.mem_range.1 hi))
          fun col s'' _ hcol => emits_lanes hcol
    refine Emits.bind hcols fun cols s' _ hcols => Emits.pure ⟨?_, fun w hw => ?_⟩
    · have hlen : cols.map List.length = List.replicate n.size n.size :=
        List.eq_replicate_iff.2 ⟨by simpa using hcols.1, fun k hk => by
          obtain ⟨col, hcol, rfl⟩ := List.mem_map.1 hk
          exact (hcols.2 col hcol).1⟩
      rw [List.length_flatten, hlen, List.sum_replicate_nat]
      simp [DataType.components]
    · obtain ⟨col, hcol, hw⟩ := List.mem_flatten.1 hw
      exact (hcols.2 col hcol).2 w hw

theorem emits_diagonal {n : Dim} {v : Value} (hv : s.Has O v .float) :
    Emits O ρ (diagonal n v) s fun w s' => s'.Has O w (Ty.ofData (.matrix n)) :=
  emits_columnwise fun s' i hlead _ =>
    Emits.setLane (.zero s' O (.vector .float n)) (hlead.has hv) (.index s' O i)

/-- Addition and multiplication work on floating-point numbers. -/
theorem emits_floating {op : ArithOp} {t : DataType} {x y : Value} (hop : op.isIntegral = false)
    (ht : t.isFlat = true) (hx : s.Has O x (Ty.ofData t)) (hy : s.Has O y (Ty.ofData t)) :
    Emits O ρ (Emit.binary op t x y) s fun v s' => s'.Has O v (Ty.ofData t) :=
  Emits.binary ht (fun h => by rw [hop] at h; cases h) hx hy

/-- A matrix times a vector is a vector. -/
theorem emits_mulColumns {n : Dim} {m v : Value} (hm : s.Has O m (Ty.ofData (.matrix n)))
    (hv : s.Has O v (Ty.ofData (.vector .float n))) :
    Emits O ρ (mulColumns n m v) s fun w s' => s'.Has O w (Ty.ofData (.vector .float n)) := by
  -- one scaled column
  have hterm : ∀ s' j, s.Leads O ρ s' → j < n.size → Emits O ρ (do
      let c ← Emit.convert (← Emit.lane v (.index j)) .float (.vector .float n)
      Emit.binary .mul (.vector .float n) (← Emit.column m j) c) s'
        fun w s'' => s''.Has O w (Ty.ofData (.vector .float n)) := by
    intro s' j hlead hj
    refine Emits.bind (Emits.lane (hlead.has hv) (.index s' O j)) fun c s₁ h₁ hc => ?_
    refine Emits.bind (Emits.convert (.inl rfl) hc) fun d s₂ h₂ hd => ?_
    have hm₂ := h₂.has (h₁.has (hlead.has hm))
    refine Emits.bind (Emits.column hm₂ hj) fun col s₃ h₃ hcol => ?_
    exact emits_floating rfl rfl hcol (h₃.has hd)
  have hpos : 0 < n.size := by cases n <;> decide
  refine Emits.bind (fun hs => hterm s 0 (.refl hs) hpos hs) fun first s₁ h₁ hfirst => ?_
  refine Emits.foldlM (fun s' acc j hj hlead hacc => ?_) hfirst
  have hlt : j + 1 < n.size := by
    have := List.mem_range.1 hj
    omega
  exact Emits.bind (hterm s' (j + 1) (h₁.trans hlead) hlt) fun w s'' hlead' hw =>
    emits_floating rfl rfl (hlead'.has hacc) hw

theorem emits_sumLanes {n : Dim} {v : Value} (hv : s.Has O v (Ty.ofData (.vector .float n))) :
    Emits O ρ (sumLanes n v) s fun w s' => s'.Has O w (Ty.ofData .float) := by
  refine Emits.bind (Emits.lane hv (.index s O 0)) fun first s₁ h₁ hfirst => ?_
  refine Emits.foldlM (fun s' acc i _ hlead hacc => ?_) hfirst
  refine Emits.bind (Emits.lane (hlead.has (h₁.has hv)) (.index s' O (i + 1))) fun w s₂ h₂ hw => ?_
  exact emits_floating rfl rfl (h₂.has hacc) hw

/-- A vector times a matrix is a vector. -/
theorem emits_mulRows {n : Dim} {v m : Value} (hv : s.Has O v (Ty.ofData (.vector .float n)))
    (hm : s.Has O m (Ty.ofData (.matrix n))) :
    Emits O ρ (mulRows n v m) s fun w s' => s'.Has O w (Ty.ofData (.vector .float n)) := by
  refine Emits.foldlM (fun s' out j hj hlead hout => ?_) (.zero s O (.vector .float n))
  refine Emits.bind (Emits.column (hlead.has hm) (List.mem_range.1 hj)) fun col s₁ h₁ hcol => ?_
  refine Emits.bind (emits_floating rfl rfl (h₁.has (hlead.has hv)) hcol) fun p s₂ h₂ hp => ?_
  refine Emits.bind (emits_sumLanes hp) fun dot s₃ h₃ hdot => ?_
  exact Emits.setLane (h₃.has (h₂.has (h₁.has hout))) hdot (.index s₃ O j)

/-- A matrix times a matrix is a matrix. -/
theorem emits_mulMatrices {n : Dim} {x y : Value} (hx : s.Has O x (Ty.ofData (.matrix n)))
    (hy : s.Has O y (Ty.ofData (.matrix n))) :
    Emits O ρ (mulMatrices n x y) s fun w s' => s'.Has O w (Ty.ofData (.matrix n)) :=
  emits_columnwise fun _ _ hlead hj =>
    Emits.bind (Emits.column (hlead.has hy) hj) fun _ _ hlead' hcol =>
      emits_mulColumns (hlead'.has (hlead.has hx)) hcol

end Pieces

/-! ## Constructors -/

theorem emits_takeComponents {O : Outside} {ρ : Realm} {s : Site} {room : Nat}
    {src dst : ScalarType} {comps : List Value} (h : ∀ v ∈ comps, s.Has O v (Ty.ofScalar src)) :
    Emits O ρ (takeComponents room src dst comps) s fun vs s' =>
      ∀ v ∈ vs, s'.Has O v (Ty.ofScalar dst) := by
  refine (Emits.mapM (P := fun v s' => s'.Has O v (Ty.ofScalar dst))
    (fun _ _ _ hlead hv => hlead.has hv) ?_).weaken fun vs s' _ hvs => hvs.2
  intro s' v hv hlead
  exact Emits.convert (.inl rfl) (hlead.has (h v (List.mem_of_mem_take hv)))

namespace Lowers

variable {O : Outside} {ρ : Realm} {x : Walk}

/-- The components that are gathered have the type that is asked for. -/
theorem components {t : DataType} {c : ScalarType} {args : List Operand} {comps : List Value}
    (hargs : ∀ a ∈ args, a.Sound O x.site)
    (hcomps : ∀ v ∈ comps, x.site.Has O v (Ty.ofScalar c)) :
    Lowers O ρ (Lowering.components t c comps args) x fun vs x' =>
      ∀ v ∈ vs, x'.site.Has O v (Ty.ofScalar c) := by
  induction args generalizing x comps with
  | nil => exact Lowers.pure hcomps
  | cons a args ih =>
    obtain ⟨ha, hargs⟩ := List.forall_mem_cons.1 hargs
    unfold Lowering.components
    refine Lowers.check fun _ => ?_
    refine Lowers.bind (Lowers.valueOf ha) fun v x₁ h₁ hv => ?_
    obtain ⟨r, hr⟩ : ∃ r, a.type.component? = some r := by
      have hvoid := hv.1
      cases htype : a.type <;> simp_all [DataType.component?]
    rw [hr, Option.getD_some]
    have hmore : Emits O ρ (Pieces.scalars a.type v >>= fun all =>
        takeComponents (t.components - comps.length) r c all) x₁.site fun vs s' =>
          ∀ v ∈ vs, s'.Has O v (Ty.ofScalar c) :=
      Emits.bind (Pieces.emits_scalars hr hv.2) fun all s' _ hall => emits_takeComponents hall.2
    refine Lowers.bind (Lowers.emit hmore) fun more x₂ h₂ hmore => ?_
    refine ih (fun b hb => ((hargs b hb).mono h₁.site).mono h₂.site) fun w hw => ?_
    rcases List.mem_append.1 hw with hw | hw
    · exact h₂.site.has (h₁.site.has (hcomps w hw))
    · exact hmore w hw

theorem allComponents {pos : Pos} {t : DataType} {c : ScalarType} {args : List Operand}
    (hargs : ∀ a ∈ args, a.Sound O x.site) :
    Lowers O ρ (Lowering.allComponents pos t c args) x fun vs x' =>
      ∀ v ∈ vs, x'.site.Has O v (Ty.ofScalar c) := by
  refine Lowers.bind (Lowers.components hargs fun _ hv => by cases hv) fun vs x' _ hvs => ?_
  exact Lowers.check fun _ => Lowers.pure hvs

theorem buildScalar {pos : Pos} {c : ScalarType} {args : List Operand}
    (hargs : ∀ a ∈ args, a.Sound O x.site) :
    Lowers O ρ (Lowering.buildScalar pos c args) x fun v x' => x'.site.Has O v (Ty.ofScalar c) := by
  match args, hargs with
  | [], _ => exact Lowers.fail
  | [a], hargs =>
    refine Lowers.bind (Lowers.valueOf (hargs a List.mem_cons_self)) fun v x₁ h₁ hv => ?_
    rcases htype : a.type with _ | r | ⟨r, n⟩ | n <;> rw [htype] at hv
    · exact absurd rfl hv.1
    · exact Lowers.emit (Emits.convert (.inl rfl) hv.2)
    · exact Lowers.emit (Emits.convert (.inr ⟨rfl, rfl⟩) hv.2)
    · -- the first component of a matrix is that of its first column
      have hfirst : Emits O ρ (Emit.column v 0 >>= fun col =>
          Emit.convert col (.vector .float n) (.scalar c)) x₁.site fun w s' =>
            s'.Has O w (Ty.ofScalar c) :=
        Emits.bind (Emits.column hv.2 (by cases n <;> decide)) fun col s' _ hcol =>
          Emits.convert (.inr ⟨rfl, rfl⟩) hcol
      exact Lowers.emit hfirst
  | _ :: b :: _, _ => exact Lowers.fail

theorem buildVector {pos : Pos} {c : ScalarType} {n : Dim} {args : List Operand}
    (hargs : ∀ a ∈ args, a.Sound O x.site) :
    Lowers O ρ (Lowering.buildVector pos c n args) x fun v x' =>
      x'.site.Has O v (Ty.ofData (.vector c n)) := by
  have hpacked : Lowers O ρ (Lowering.allComponents pos (.vector c n) c args >>= fun comps =>
      Lowering.emit (Pieces.pack c n comps)) x fun v x' =>
        x'.site.Has O v (Ty.ofData (.vector c n)) :=
    Lowers.bind (Lowers.allComponents hargs) fun comps x' _ hcomps =>
      Lowers.emit (Pieces.emits_pack hcomps)
  match args, hargs, hpacked with
  | [], _, hpacked => exact hpacked
  | [a], hargs, hpacked =>
    have ha := hargs a List.mem_cons_self
    simp only [Lowering.buildVector]
    split
    next heq => exact (Lowers.valueOf ha).weaken fun v x' _ hv => heq ▸ hv.2
    next =>
      split
      next => exact (Lowers.valueAs ha).weaken fun v x' _ hv => hv.2
      next => exact hpacked
  | _ :: _ :: _, _, hpacked => exact hpacked

theorem buildMatrix {pos : Pos} {n : Dim} {args : List Operand}
    (hargs : ∀ a ∈ args, a.Sound O x.site) :
    Lowers O ρ (Lowering.buildMatrix pos n args) x fun v x' =>
      x'.site.Has O v (Ty.ofData (.matrix n)) := by
  have hpacked : Lowers O ρ (Lowering.allComponents pos (.matrix n) .float args >>= fun comps =>
      Lowering.emit (Pieces.columnwise n fun i =>
        Pieces.pack .float n ((comps.drop (i * n.size)).take n.size))) x fun v x' =>
        x'.site.Has O v (Ty.ofData (.matrix n)) := by
    refine Lowers.bind (Lowers.allComponents hargs) fun comps x' _ hcomps => ?_
    refine Lowers.emit (Q := fun v s' => s'.Has O v (Ty.ofData (.matrix n))) ?_
    refine Pieces.emits_columnwise fun s' i hlead _ => Pieces.emits_pack fun v hv => ?_
    exact hlead.has (hcomps v (List.mem_of_mem_drop (List.mem_of_mem_take hv)))
  match args, hargs, hpacked with
  | [], _, hpacked => exact hpacked
  | [a], hargs, hpacked =>
    have ha := hargs a List.mem_cons_self
    simp only [Lowering.buildMatrix]
    split
    next heq => exact (Lowers.valueOf ha).weaken fun v x' _ hv => heq ▸ hv.2
    next =>
      split
      next =>
        exact Lowers.bind (Lowers.valueAs ha) fun v x' _ hv =>
          Lowers.emit (Pieces.emits_diagonal hv.2)
      next => exact hpacked
  | _ :: _ :: _, _, hpacked => exact hpacked

/-- What a constructor makes has its type, and the type has values. -/
theorem build {pos : Pos} {t : DataType} {args : List Operand}
    (hargs : ∀ a ∈ args, a.Sound O x.site) :
    Lowers O ρ (Lowering.build pos t args) x fun v x' =>
      t ≠ .void ∧ x'.site.Has O v (Ty.ofData t) := by
  simp only [Lowering.build]
  split
  · exact Lowers.bind (P := fun _ _ => False) Lowers.fail fun _ _ _ hf => hf.elim
  · cases t with
    | void => exact Lowers.fail
    | scalar c => exact (Lowers.buildScalar hargs).weaken fun v x' _ hv => ⟨by simp, hv⟩
    | vector c n => exact (Lowers.buildVector hargs).weaken fun v x' _ hv => ⟨by simp, hv⟩
    | matrix n => exact (Lowers.buildMatrix hargs).weaken fun v x' _ hv => ⟨by simp, hv⟩

/-- A first value has the type of its variable. -/
theorem initialValue {t : DataType} {a : Operand} (ha : a.Sound O x.site) :
    Lowers O ρ (Lowering.initialValue t a) x fun v x' =>
      t ≠ .void ∧ x'.site.Has O v (Ty.ofData t) := by
  unfold Lowering.initialValue
  split
  next => exact Lowers.valueAs ha
  next => exact Lowers.build (List.forall_mem_singleton.2 ha)

end Lowers

end Shader.Lowering
