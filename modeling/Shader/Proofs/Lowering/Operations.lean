import Shader.Lowering.Expr
import Shader.Proofs.Lowering.Branching
import Shader.Proofs.Lowering.Construction

/-!
# Operations on operands

The operators of a shader, applied to sound operands, lead on to sound operands. For the operators
that evaluate an operand only sometimes, the walk over that operand is known by what it does at
every site of the function that is being written.
-/

namespace Shader

namespace DataType

/-- A common type has floating-point numbers only if one of the two types has. -/
theorem isFloating_promote? {l r t : DataType} (h : l.promote? r = some t)
    (ht : t.isFloating = true) : l.isFloating = true ∨ r.isFloating = true := by
  have hwide : ∀ a b : ScalarType, (a.widest b).isFloating = true →
      a.isFloating = true ∨ b.isFloating = true := by
    intro a b
    cases a <;> cases b <;> decide
  rcases l with _ | a | ⟨a, m⟩ | m <;> rcases r with _ | b | ⟨b, n⟩ | n <;>
    simp only [promote?, reduceCtorEq, Option.some.injEq, Option.ite_none_right_eq_some] at h
  case scalar.scalar => subst h; exact hwide a b ht
  case scalar.vector => subst h; exact hwide a b ht
  case vector.scalar => subst h; exact hwide a b ht
  case vector.vector => obtain ⟨-, rfl⟩ := h; exact hwide a b ht
  all_goals first | exact .inl rfl | exact .inr rfl

end DataType

namespace Lowering

open Ir

namespace Lowers

variable {O : Outside} {ρ : Realm} {x : Walk}

/-! ## Arithmetic -/

theorem promotedArith {pos : Pos} {op : ArithOp} {l r : Operand} (hl : l.Sound O x.site)
    (hr : r.Sound O x.site)
    (hop : op.isIntegral = true → l.type.isFloating = false ∧ r.type.isFloating = false) :
    Lowers O ρ (Lowering.promotedArith pos op l r) x fun a x' => a.Sound O x'.site := by
  unfold Lowering.promotedArith
  rcases hpromote : l.type.promote? r.type with _ | t
  · exact Lowers.fail
  · -- an operator on integers is not applied to floating-point numbers
    have hint : op.isIntegral = true → t.isFloating = false := by
      intro hi
      rcases ht : t.isFloating with _ | _
      · rfl
      · obtain ⟨h₁, h₂⟩ := hop hi
        rcases DataType.isFloating_promote? hpromote ht with h | h
        · rw [h₁] at h; cases h
        · rw [h₂] at h; cases h
    dsimp only
    split
    next =>
      refine Lowers.bind (Lowers.valueAs hl) fun lv x₁ h₁ hlv => ?_
      refine Lowers.bind (Lowers.valueAs (hr.mono h₁.site)) fun rv x₂ h₂ hrv => ?_
      have hlv₂ := h₂.site.has hlv.2
      cases t with
      | void => exact absurd rfl hlv.1
      | scalar c =>
        refine Lowers.bind (Lowers.emit (Emits.binary rfl hint hlv₂ hrv.2)) fun v x₃ _ hv => ?_
        exact Lowers.pure ⟨by simp, hv⟩
      | vector c n =>
        refine Lowers.bind (Lowers.emit (Emits.binary rfl hint hlv₂ hrv.2)) fun v x₃ _ hv => ?_
        exact Lowers.pure ⟨by simp, hv⟩
      | matrix n =>
        have hcols : Emits O ρ (Pieces.columnwise n fun i => do
            let lc ← Emit.column lv i
            Emit.binary op (.vector .float n) lc (← Emit.column rv i)) x₂.site
              fun v s' => s'.Has O v (Ty.ofData (.matrix n)) := by
          refine Pieces.emits_columnwise fun s' i hlead hi => ?_
          refine Emits.bind (Emits.column (hlead.has hlv₂) hi) fun lc s₁ h₁ hlc => ?_
          refine Emits.bind (Emits.column (h₁.has (hlead.has hrv.2)) hi) fun rc s₂ h₂ hrc => ?_
          exact Emits.binary rfl hint (h₂.has hlc) hrc
        exact Lowers.bind (Lowers.emit hcols) fun v x₃ _ hv => Lowers.pure ⟨by simp, hv⟩
    next => exact Lowers.fail

theorem arith {pos : Pos} {op : ArithOp} {l r : Operand} (hl : l.Sound O x.site)
    (hr : r.Sound O x.site) :
    Lowers O ρ (Lowering.arith pos op l r) x fun a x' => a.Sound O x'.site := by
  simp only [Lowering.arith]
  refine Lowers.check fun hcheck => ?_
  have hop : op.isIntegral = true → l.type.isFloating = false ∧ r.type.isFloating = false := by
    intro hi
    simp only [hi, Bool.true_and, Bool.or_eq_true, not_or, Bool.not_eq_true] at hcheck
    exact hcheck.2
  split
  next m n hlt hrt =>
    split
    next heq =>
      subst heq
      refine Lowers.bind (Lowers.valueOf hl) fun lv x₁ h₁ hlv => ?_
      refine Lowers.bind (Lowers.valueOf (hr.mono h₁.site)) fun rv x₂ h₂ hrv => ?_
      rw [hlt] at hlv
      rw [hrt] at hrv
      refine Lowers.bind (Lowers.emit (Pieces.emits_mulMatrices (h₂.site.has hlv.2) hrv.2))
        fun v x₃ _ hv => ?_
      exact Lowers.pure ⟨by simp, hv⟩
    next => exact Lowers.promotedArith hl hr hop
  next m c n hlt hrt =>
    split
    next heq =>
      subst heq
      refine Lowers.bind (Lowers.valueOf hl) fun lv x₁ h₁ hlv => ?_
      refine Lowers.bind (Lowers.valueAs (hr.mono h₁.site)) fun rv x₂ h₂ hrv => ?_
      rw [hlt] at hlv
      refine Lowers.bind (Lowers.emit (Pieces.emits_mulColumns (h₂.site.has hlv.2) hrv.2))
        fun v x₃ _ hv => ?_
      exact Lowers.pure ⟨by simp, hv⟩
    next => exact Lowers.promotedArith hl hr hop
  next c m n hlt hrt =>
    split
    next heq =>
      subst heq
      refine Lowers.bind (Lowers.valueAs hl) fun lv x₁ h₁ hlv => ?_
      refine Lowers.bind (Lowers.valueOf (hr.mono h₁.site)) fun rv x₂ h₂ hrv => ?_
      rw [hrt] at hrv
      refine Lowers.bind (Lowers.emit (Pieces.emits_mulRows (h₂.site.has hlv.2) hrv.2))
        fun v x₃ _ hv => ?_
      exact Lowers.pure ⟨by simp, hv⟩
    next => exact Lowers.promotedArith hl hr hop
  next => exact Lowers.promotedArith hl hr hop

theorem arithExpr {pos : Pos} {op : ArithOp} {l r : Operand} (hl : l.Sound O x.site)
    (hr : r.Sound O x.site) :
    Lowers O ρ (Lowering.arithExpr pos op l r) x fun a x' => a.Sound O x'.site := by
  refine Lowers.bind (Lowers.arith hl hr) fun z x₁ _ hz => ?_
  refine Lowers.bind (Lowers.insteadOf (Lowers.valueAs hz)) fun v x₂ _ hv => ?_
  exact Lowers.pure hv

/-! ## Comparison and truth -/

theorem comparison {pos : Pos} {op : RelOp} {l r : Operand} (hl : l.Sound O x.site)
    (hr : r.Sound O x.site) :
    Lowers O ρ (Lowering.comparison pos op l r) x fun a x' => a.Sound O x'.site := by
  unfold Lowering.comparison
  split
  next => exact Lowers.fail
  next => exact Lowers.fail
  next t hmatrix hpromote =>
    refine Lowers.check fun hcheck => ?_
    refine Lowers.bind (Lowers.valueAs hl) fun lv x₁ h₁ hlv => ?_
    refine Lowers.bind (Lowers.valueAs (hr.mono h₁.site)) fun rv x₂ h₂ hrv => ?_
    have hflat : t.isFlat = true := by
      cases t with
      | void => exact absurd rfl hlv.1
      | matrix n => exact (hmatrix n rfl).elim
      | _ => rfl
    have hordered : t.isVector = true → op.isOrdered = false := by
      intro hvec
      simp only [hvec, Bool.true_and, Bool.or_eq_true, not_or, Bool.not_eq_true] at hcheck
      exact hcheck.1.1
    have hbool : Emits O ρ (Emit.compare op t lv rv >>= Emit.fromBool) x₂.site
        fun v s' => s'.Has O v .i32 :=
      Emits.bind (Emits.compare hflat hordered (h₂.site.has hlv.2) hrv.2) fun v s' _ hv =>
        Emits.fromBool hv
    exact Lowers.bind (Lowers.emit hbool) fun v x₃ _ hv => Lowers.pure ⟨by simp, hv⟩

theorem truthOf {cause : DataType → Cause} {a : Operand} (ha : a.Sound O x.site) :
    Lowers O ρ (Lowering.truthOf cause a) x fun v x' => x'.site.Has O v .i1 := by
  unfold Lowering.truthOf
  refine Lowers.check fun hscalar => ?_
  refine Lowers.bind (Lowers.valueOf ha) fun v x' _ hv => Lowers.emit (Emits.truth ?_ hv.2)
  revert hscalar
  cases a.type <;> simp [DataType.isScalar, DataType.isFlat]

end Lowers

/-! ## Walks that are taken only sometimes -/

/-- The walk leads on from wherever in the function it starts, and something is known of how it
starts, of its result and of how it ends. -/
def Leading {α : Type} (O : Outside) (x : Walk) (act : Lower α)
    (Q : Walk → α → Walk → Prop) : Prop :=
  ∀ ρ x', Writes O .all x.site x'.site → x'.scopes = x.scopes → Lowers O ρ act x' (Q x')

theorem Leading.mono {α : Type} {O : Outside} {ρ : Realm} {x x' : Walk} {act : Lower α}
    {Q : Walk → α → Walk → Prop} (h : Leading O x act Q) (hlead : x.Leads O ρ x') :
    Leading O x' act Q :=
  fun ρ' x'' hw hscopes =>
    h ρ' x'' ((Writes.all hlead.site.steps).trans hw) (hscopes.trans hlead.scopes)

theorem Leading.bind {α β : Type} {O : Outside} {x : Walk} {act : Lower α} {f : α → Lower β}
    {P : Walk → α → Walk → Prop} {Q : Walk → β → Walk → Prop} (h : Leading O x act P)
    (hf : ∀ ρ x' a x'', x'.Leads O ρ x'' → P x' a x'' → Lowers O ρ (f a) x'' (Q x')) :
    Leading O x (act >>= f) Q :=
  fun ρ x' hw hscopes => Lowers.bind (h ρ x' hw hscopes) fun a x'' hlead ha =>
    hf ρ x' a x'' hlead ha

/-- Code that goes to a walk over a bit or behind it. Where both ways meet, the bit that decided or
that of the walk becomes an integer. -/
inductive Detour (R : Walk → Value → Walk → Prop) (term : Label → Label → Term) (lc : Value)
    (x : Walk) (v : Value) (x' : Walk) : Prop
  /-- the states on the way -/
  | mk {x₁ x₂ x₃ : Walk} {d : Draft} {more done l m : Label} {rc u : Value}
      (onward₁ : x.Onward x₁) (onward₂ : x₁.Onward x₂) (onward₃ : x₂.Onward x₃)
      (source : x.site.point = some l)
      (branch : x.site.draft.Closes (term more done) x₁.site.draft)
      (start : x₁.site.draft.Starts more) (walk : R x₁ rc x₂)
      (last : x₂.site.point = some m) (apart : l ≠ m)
      (merge : x₂.site.draft.Closes (.br done) x₃.site.draft)
      (landing : x₃.site.draft.Starts done)
      (choice : x₃.site.draft.Puts (.phi .i1 [(lc, l), (rc, m)]) u d)
      (result : d.Puts (.cast .zext u .i32) v x'.site.draft)
      (le₄ : x₃.site.func.Le d.func) (le₅ : d.func.Le x'.site.func)

/-- Code that goes to one of two walks. Where both meet, there is the value of the one that was
taken, if both have one. -/
inductive Fork (R : Walk → Operand × Option Value → Walk → Prop)
    (R' : Operand → Walk → Option Value → Walk → Prop) (pos : Pos) (c : Value)
    (x : Walk) (a : Operand) (x' : Walk) : Prop
  /-- the states on the way -/
  | mk {x₁ x₂ x₃ x₄ x₅ : Walk} {whenTrue whenFalse done l m : Label} {first : Operand}
      {v v' : Option Value} (onward₁ : x.Onward x₁) (onward₂ : x₁.Onward x₂)
      (onward₃ : x₂.Onward x₃) (onward₄ : x₃.Onward x₄) (onward₅ : x₄.Onward x₅)
      (branch : x.site.draft.Closes (.condBr c whenTrue whenFalse) x₁.site.draft)
      (start : x₁.site.draft.Starts whenTrue) (walk : R x₁ (first, v) x₂)
      (end₁ : x₂.site.point = some l) (merge : x₂.site.draft.Closes (.br done) x₃.site.draft)
      (start' : x₃.site.draft.Starts whenFalse) (walk' : R' first x₃ v' x₄)
      (end₂ : x₄.site.point = some m) (merge' : x₄.site.draft.Closes (.br done) x₅.site.draft)
      (apart : l ≠ m) (landing : x₅.site.draft.Starts done)
      (result : ∀ w w', v = some w → v' = some w' → ∃ u, a = .value pos first.type u ∧
        x₅.site.draft.Puts (.phi (Ty.ofData first.type) [(w, l), (w', m)]) u x'.site.draft)
      (le₆ : x₅.site.func.Le x'.site.func)

section

variable {O : Outside} {ρ : Realm} {x : Walk}

/-- The second operand of a logical operator that may skip it: the operator branches to the walk
over the operand or behind it, where the two ways meet. -/
theorem lowers_shortCircuit {pos : Pos} {lc : Value} {rhs : Lower Operand}
    {cause : DataType → Cause} {hint hint' : String} {Q : Walk → Value → Walk → Prop}
    (term : Label → Label → Term) (hlc : x.site.Has O lc .i1)
    (hrhs : Leading O x (rhs >>= truthOf cause) fun y rc y' => y'.site.Has O rc .i1 ∧ Q y rc y')
    (hterm : ∀ more done, term more done = .condBr lc more done ∨
      term more done = .condBr lc done more) :
    Lowers O ρ (do
      let source ← emit Emit.openPoint
      let more ← emit (Emit.newBlock hint)
      let done ← emit (Emit.newBlock hint')
      emit (Emit.terminate (term more done))
      emit (Emit.setPoint (some more))
      let rc ← truthOf cause (← rhs)
      let last ← emit Emit.openPoint
      emit (Emit.terminate (.br done))
      emit (Emit.setPoint (some done))
      return Operand.value pos .int (← emit do
        Emit.fromBool (← Emit.phi [(lc, source), (rc, last)]))) x
      fun a x' => ∃ v, a = .value pos .int v ∧ x'.site.Has O v .i32 ∧ Detour Q term lc x v x' := by
  intro hx
  obtain ⟨l, b, hl, hb, -⟩ := hx.isOpen
  refine Walks.openPoint_bind hx.toSane hl ?_
  refine Walks.newBlock_bind (.start hx) fun more s₁ hahead₁ => ?_
  refine Walks.newBlock_bind (x := x.withSite s₁) hahead₁ fun done s₂ hahead => ?_
  have hmd : more ≠ done := by simpa [eq_comm] using hahead.nodup
  have hmore := hahead.pending more (by simp)
  have hdone := hahead.pending done (by simp)
  have hne : ∀ k ∈ [done, more], k ≠ l := fun k hk => hahead.ne_point hx hk hl
  have hfirst : ∀ k ∈ [done, more], ρ.first ≤ k.index := fun k hk => hahead.first hx hk
  simp only [List.forall_mem_cons] at hne hfirst
  obtain ⟨hdl, hml, -⟩ := hne
  obtain ⟨hfd, hfm, -⟩ := hfirst
  have hl₂ : s₂.point = some l := hahead.point.trans hl
  -- to the walk over the second operand
  have hmem : ∀ k ∈ (term more done).successors, k ∈ [done, more] := by
    rcases hterm more done with h | h <;> simp [h, Term.successors, or_comm]
  have hway : (term more done).successors.filter (fun m => m = done) = [done] := by
    rcases hterm more done with h | h <;> simp [h, Term.successors, hmd]
  refine Walks.branch_bind hahead.ready hl₂ ?_ ?_ (fun k hk => hahead.target hx (hmem k hk)) hmore
    hml hfm fun s₃ hbranch => ?_
  · rcases hterm more done with h | h <;> rw [h] <;> exact hlc.type
  · have hops : (term more done).operands = [lc] := by
      rcases hterm more done with h | h <;> rw [h] <;> rfl
    rw [hops]
    exact (hahead.has hlc).one
  replace hmore := hbranch.pending hmore hml
  replace hdone := hbranch.meets hdone hdl hway
  have hopen₃ := hbranch.openBeside (hahead.openBeside l hl) [done, more] (by simp)
  have hw₀₃ : Writes O ρ x.site s₃ := hahead.steps.trans hbranch.steps
  -- and from its end to the block where both ways meet
  refine Walks.unassoc (Walks.arm_bind (x := x.withSite s₃) hbranch.readyNext hbranch.point hmore
    hdone hdone hmd.symm hmd.symm hfd hfd
    (hrhs s₃.realm (x.withSite s₃) (Writes.all hw₀₃) rfl)
    fun rc y m s ⟨hrc, hQ⟩ harm => ?_)
  have hmeets := harm.meets hdone hmd.symm (by simp [Term.successors])
  have hclosed := (harm.openBeside hopen₃ [done] (by simp)).closed harm.point (by simp)
  have hw : Writes O ρ x.site s := hw₀₃.trans harm.steps
  have hbit : Emits O ρ (Emit.phi [(lc, l), (rc, m)] >>= Emit.fromBool) s
      fun v s' => s'.Has O v .i32 ∧ ∃ u d, s.draft.Puts (.phi .i1 [(lc, l), (rc, m)]) u d ∧
        d.Puts (.cast .zext u .i32) v s'.draft ∧ s.func.Le d.func ∧ d.func.Le s'.func := by
    have hphi := Emits.phi_pair harm.point hmeets hfd (by simp) hlc.type hrc.type
      (Steps.canUse hw hx.tidy (hlc.canUse hl))
      (Steps.canUse harm.writes harm.saneLast.tidy (hrc.canUse harm.last))
    exact Emits.bind hphi fun u s' hlead' hu =>
      (Emits.cast_puts rfl hu.1).weaken fun v s'' hlead'' hv =>
        ⟨hv.1, u, s'.draft, hu.2, hv.2, hlead'.le, hlead''.le⟩
  refine Walks.bind (Lowers.emit (x := y.withSite s) hbit harm.readyNext)
    fun v z _ ⟨hlead, hv, u, d, hphi, hzext, hle, hle'⟩ =>
      Walks.pure ⟨⟨⟨⟨hw.trans hlead.site.steps, hlead.site.ready, ?_⟩, ?_⟩, ?_⟩, v, rfl, hv, ?_⟩
  · exact fun r hr => hlead.site.offered r (hmeets.offered harm.point hr)
  · exact fun k hk => hclosed k (hlead.site.closed k hk)
  · exact hlead.scopes.trans harm.leads.scopes
  · have honward : x.Onward (x.withSite s₃) := ⟨Steps.le hw₀₃, rfl⟩
    have hlt : l.index < s₃.func.labels :=
      Nat.lt_of_lt_of_le (hx.tidy.lt_labels hb) (Steps.le hw₀₃).labels
    exact .mk honward harm.leads.onward harm.onward hl (hahead.closes hx hbranch.closes)
      (hmore.starts hbranch.point) hQ harm.last (harm.apart hlt hml.symm) harm.closes
      (hmeets.starts harm.point) hphi hzext hle hle'

/-- The value of an alternative, if it has one. -/
theorem lowers_alternative {a : Operand} (ha : a.Sound O x.site) :
    Lowers O ρ (alternative? a) x fun v x' =>
      ∀ w, v = some w → a.type ≠ .void ∧ x'.site.Has O w (Ty.ofData a.type) := by
  unfold alternative?
  split
  next =>
    refine Lowers.map (Lowers.valueOf ha) fun v x' _ hv w hw => ?_
    obtain rfl := Option.some.inj hw
    exact hv
  next => exact Lowers.pure fun w hw => by cases hw

theorem lowers_otherwise {pos : Pos} {first second : Operand} (h : second.Sound O x.site) :
    Lowers O ρ (otherwise? pos first second) x fun v x' =>
      ∀ w, v = some w → x'.site.Has O w (Ty.ofData first.type) := by
  simp only [otherwise?]
  split
  next =>
    refine Lowers.map (Lowers.insteadOf (Lowers.valueAs h)) fun v x' _ hv w hw => ?_
    obtain rfl := Option.some.inj hw
    exact hv.2
  next =>
    split
    next => exact Lowers.fail
    next => exact Lowers.pure fun w hw => by cases hw

/-- A choice: each alternative is written in a block of its own, and both lead to the block behind
them. -/
theorem lowers_choice {pos : Pos} {c : Value} {yes no : Lower Operand}
    {Q : Walk → Operand × Option Value → Walk → Prop}
    {R : Operand → Walk → Option Value → Walk → Prop} (hc : x.site.Has O c .i1)
    (hyes : Leading O x (do
      let a ← yes
      let v ← alternative? a
      return (a, v)) fun y p y' => (∀ w, p.2 = some w → p.1.type ≠ .void ∧
        y'.site.Has O w (Ty.ofData p.1.type)) ∧ Q y p y')
    (hno : ∀ a, Leading O x (no >>= otherwise? pos a) fun y v y' =>
      (∀ w, v = some w → y'.site.Has O w (Ty.ofData a.type)) ∧ R a y v y') :
    Lowers O ρ (choice pos c yes no) x fun a x' =>
      a.Sound O x'.site ∧ Fork Q R pos c x a x' := by
  intro hx
  obtain ⟨l, hl⟩ := hx.there
  unfold choice
  refine Walks.newBlock_bind (.start hx) fun whenTrue s₁ hahead₁ => ?_
  refine Walks.newBlock_bind (x := x.withSite s₁) hahead₁ fun whenFalse s₂ hahead₂ => ?_
  refine Walks.newBlock_bind (x := x.withSite s₂) hahead₂ fun done s₃ hahead => ?_
  obtain ⟨⟨hfd, htd⟩, htf⟩ : (whenFalse ≠ done ∧ whenTrue ≠ done) ∧ whenTrue ≠ whenFalse := by
    simpa [eq_comm] using hahead.nodup
  have htrue := hahead.pending whenTrue (by simp)
  have hfalse := hahead.pending whenFalse (by simp)
  have hdone := hahead.pending done (by simp)
  have hne : ∀ k ∈ [done, whenFalse, whenTrue], k ≠ l := fun k hk => hahead.ne_point hx hk hl
  have hfirst : ∀ k ∈ [done, whenFalse, whenTrue], ρ.first ≤ k.index :=
    fun k hk => hahead.first hx hk
  simp only [List.forall_mem_cons] at hne hfirst
  obtain ⟨hdl, hfl, htl, -⟩ := hne
  obtain ⟨hd, hf, ht, -⟩ := hfirst
  have hl₃ : s₃.point = some l := hahead.point.trans hl
  -- the first alternative
  have hmem : ∀ k ∈ (Term.condBr c whenTrue whenFalse).successors,
      k ∈ [done, whenFalse, whenTrue] := by simp [Term.successors]
  refine Walks.branch_bind hahead.ready hl₃ hc.type (hahead.has hc).one
    (fun k hk => hahead.target hx (hmem k hk)) htrue htl ht fun s₄ hbranch => ?_
  replace htrue := hbranch.pending htrue htl
  replace hfalse := hbranch.pending hfalse hfl
  replace hdone := hbranch.waits hdone hdl (by simp [Term.successors, htd, hfd])
  have hopen₄ :=
    hbranch.openBeside (hahead.openBeside l hl) [done, whenFalse, whenTrue] (by simp)
  have hw₄ : Writes O ρ x.site s₄ := hahead.steps.trans hbranch.steps
  refine Walks.pair (Walks.arm_bind (x := x.withSite s₄) hbranch.readyNext hbranch.point htrue
    hdone hfalse htd.symm htf.symm hd hf
    (hyes s₄.realm (x.withSite s₄) (Writes.all hw₄) rfl) fun ⟨a, av⟩ y l₁ s ⟨hav, hQ⟩ harm => ?_)
  have hopen := harm.openBeside hopen₄ [done, whenFalse] (by simp)
  have hw : Writes O ρ x.site s := hw₄.trans harm.steps
  -- the second alternative
  have hfalse' := harm.waits hfalse htf.symm (by simp [Term.successors, hfd.symm])
  have hdone' := harm.meets hdone htd.symm (by simp [Term.successors])
  refine Walks.unassoc (Walks.arm_bind harm.readyNext harm.point hfalse' hdone' hdone' hfd.symm
    hfd.symm hd hd
    (hno a s.realm (y.withSite s) (Writes.all hw) harm.leads.scopes)
    fun av' z l₂ s' ⟨hav', hR⟩ harm' => ?_)
  -- where both meet
  have hmeets := harm'.meets hdone' hfd.symm (by simp [Term.successors])
  have hclosed := (harm'.openBeside hopen [done] (by simp)).closed harm'.point (by simp)
  have hlead : x.Leads O ρ (z.withSite s') :=
    ⟨⟨⟨hw.trans harm'.steps, harm'.readyNext, fun r hr => hmeets.offered harm'.point hr⟩, hclosed⟩,
      harm'.leads.scopes.trans harm.leads.scopes⟩
  -- the alternatives end at different blocks
  have hapart : l₁ ≠ l₂ := by
    obtain ⟨⟨b₁, hb₁, -⟩, -⟩ := harm.saneLast.point l₁ harm.last
    have hlt₁ := harm.saneLast.tidy.lt_labels hb₁
    refine harm'.apart (Nat.lt_of_lt_of_le hlt₁ (Steps.le harm.writes).labels) ?_
    exact (harm.apart (hbranch.sane.tidy.lt_labels hfalse.block) htf.symm).symm
  have hcloses : x.site.draft.Closes (.condBr c whenTrue whenFalse) s₄.draft :=
    hahead.closes hx hbranch.closes
  have honward : x.Onward (x.withSite s₄) := ⟨Steps.le hw₄, rfl⟩
  have hfork : ∀ {r : Operand} {x' : Walk}, s'.func.Le x'.site.func →
      (∀ w w', av = some w → av' = some w' → ∃ u, r = .value pos a.type u ∧
        s'.draft.Puts (.phi (Ty.ofData a.type) [(w, l₁), (w', l₂)]) u x'.site.draft) →
      Fork Q R pos c x r x' := fun hle hresult =>
    .mk honward harm.leads.onward harm.onward harm'.leads.onward harm'.onward hcloses
      (htrue.starts hbranch.point) hQ harm.last harm.closes (hfalse'.starts harm.point) hR
      harm'.last harm'.closes hapart (hmeets.starts harm'.point) hresult hle
  rcases av with _ | v
  · exact Walks.pure ⟨hlead, trivial, hfork (.refl _) fun _ _ h => by cases h⟩
  · rcases av' with _ | v'
    · exact Walks.pure ⟨hlead, trivial, hfork (.refl _) fun _ _ _ h => by cases h⟩
    · obtain ⟨hvoid, hv⟩ := hav v rfl
      have hv' := hav' v' rfl
      have hphi := Emits.phi_pair harm'.point hmeets hd (Ty.ofData_ne_void hvoid) hv.type hv'.type
        (Steps.canUse (harm.writes.trans harm'.steps) harm.saneLast.tidy (hv.canUse harm.last))
        (Steps.canUse harm'.writes harm'.saneLast.tidy (hv'.canUse harm'.last))
      refine Walks.bind (Lowers.emit (x := z.withSite s') hphi harm'.readyNext)
        fun w x' _ ⟨hlead', hw, hputs⟩ => Walks.pure ⟨hlead.trans hlead', ⟨hvoid, hw⟩, ?_⟩
      refine hfork hlead'.site.le fun u u' hu hu' => ?_
      obtain rfl := Option.some.inj hu
      obtain rfl := Option.some.inj hu'
      exact ⟨w, rfl, hputs⟩

/-- A choice between sound operands. -/
theorem lowers_alternatives {pos : Pos} {c : Value} {yes no : Lower Operand}
    (hc : x.site.Has O c .i1) (hyes : Leading O x yes fun _ a x' => a.Sound O x'.site)
    (hno : Leading O x no fun _ a x' => a.Sound O x'.site) :
    Lowers O ρ (choice pos c yes no) x fun a x' => a.Sound O x'.site := by
  refine (lowers_choice (Q := fun _ _ _ => True) (R := fun _ _ _ _ => True) hc ?_ ?_).weaken
    fun _ _ _ h => h.1
  · refine hyes.bind fun ρ' _ a x' _ ha => ?_
    exact Lowers.bind (lowers_alternative ha) fun v x'' _ hv => Lowers.pure ⟨hv, trivial⟩
  · refine fun a => hno.bind fun ρ' _ b x' _ hb => ?_
    exact (lowers_otherwise hb).weaken fun v x'' _ hv => ⟨hv, trivial⟩

theorem lowers_logical {pos : Pos} {op : LogicOp} {a : Operand} {rhs : Lower Operand}
    (ha : a.Sound O x.site) (hrhs : Leading O x rhs fun _ a x' => a.Sound O x'.site) :
    Lowers O ρ (logical pos op a rhs) x fun a x' => a.Sound O x'.site := by
  refine Lowers.bind (Lowers.truthOf ha) fun lc x₁ h₁ hlc => ?_
  have hrhs₁ := hrhs.mono h₁
  have hbit : Leading O x₁ (rhs >>= truthOf (.logicType op)) fun _ rc y' =>
      y'.site.Has O rc .i1 ∧ True :=
    hrhs₁.bind fun _ _ _ _ _ hb => (Lowers.truthOf hb).weaken fun _ _ _ hrc => ⟨hrc, trivial⟩
  have hsound : ∀ {a : Operand} {x' : Walk} {P : Value → Prop},
      (∃ v, a = .value pos .int v ∧ x'.site.Has O v .i32 ∧ P v) → a.Sound O x'.site := by
    rintro _ x' P ⟨v, rfl, hv, -⟩
    exact ⟨by simp, hv⟩
  cases op with
  | or =>
    simp only [reduceCtorEq, if_false]
    exact (lowers_shortCircuit (Q := fun _ _ _ => True) (fun more done => .condBr lc done more) hlc
      hbit (fun _ _ => .inr rfl)).weaken fun _ _ _ h => hsound h
  | and =>
    simp only [if_true]
    exact (lowers_shortCircuit (Q := fun _ _ _ => True) (fun more done => .condBr lc more done) hlc
      hbit (fun _ _ => .inl rfl)).weaken fun _ _ _ h => hsound h
  | xor =>
    refine Lowers.bind (hrhs₁ ρ x₁ .refl rfl) fun b x₂ h₂ hb => ?_
    refine Lowers.bind (Lowers.truthOf hb) fun rc x₃ h₃ hrc => ?_
    have hbit : Emits O ρ (Emit.binary .xor .bool lc rc >>= Emit.fromBool) x₃.site
        fun v s' => s'.Has O v .i32 :=
      Emits.bind (Emits.bitwise rfl (h₃.site.has (h₂.site.has hlc)) hrc) fun v s' _ hv =>
        Emits.fromBool hv
    exact Lowers.bind (Lowers.emit hbit) fun v x₄ _ hv => Lowers.pure ⟨by simp, hv⟩

/-! ## Operators on one operand -/

theorem lowers_unary {pos : Pos} {op : UnaryOp} {a : Operand} (ha : a.Sound O x.site) :
    Lowers O ρ (unary pos op a) x fun a x' => a.Sound O x'.site := by
  have hkeep : Lowers O ρ (do return Operand.value pos a.type (← valueOf a)) x
      fun a x' => Operand.Sound O x'.site a :=
    Lowers.bind (Lowers.valueOf ha) fun v x₁ _ hv => Lowers.pure hv
  simp only [unary]
  split
  next => exact Lowers.fail
  next hnum =>
    cases op with
    | step s => exact hkeep
    | plus => exact hkeep
    | not =>
      dsimp only
      split
      next => exact Lowers.fail
      next hscalar =>
        refine Lowers.bind (Lowers.valueOf ha) fun v x₁ h₁ hv => ?_
        have hflat : a.type.isFlat = true ∧ a.type.isVector = false := by
          revert hscalar
          cases a.type <;> simp [DataType.isScalar, DataType.isFlat, DataType.isVector]
        -- a flat type that is a scalar is no vector, so the comparison gives a single bit
        have hbit : Emits O ρ (Emit.compare .eq a.type v (.zero a.type) >>= Emit.fromBool) x₁.site
            fun v s' => s'.Has O v .i32 :=
          Emits.bind (Emits.compare hflat.1 (fun h => by rw [hflat.2] at h; cases h) hv.2
            (.zero _ O _)) fun v s' _ hv => Emits.fromBool hv
        exact Lowers.bind (Lowers.emit hbit) fun v x₂ _ hv => Lowers.pure ⟨by simp, hv⟩
    | bitNot =>
      dsimp only
      split
      next => exact Lowers.fail
      next hint =>
        refine Lowers.bind (Lowers.valueOf ha) fun v x₁ h₁ hv => ?_
        have hfloat : a.type.isFloating = false := by
          simp only [Bool.or_eq_true, not_or, Bool.not_eq_true] at hint
          exact hint.1
        have hflat : a.type.isFlat = true := by
          have hvoid := hv.1
          revert hfloat hvoid
          cases a.type <;> simp [DataType.isFlat, DataType.isFloating, DataType.component?,
            ScalarType.isFloating]
        have hxor : Emits O ρ (Emit.const a.type unary.minusOne >>= fun c =>
            Emit.binary .xor a.type v c) x₁.site fun v s' => s'.Has O v (Ty.ofData a.type) :=
          Emits.bind (Emits.const hv.1) fun c s' hlead hc =>
            Emits.binary hflat (fun _ => hfloat) (hlead.has hv.2) hc
        exact Lowers.bind (Lowers.emit hxor) fun v x₂ _ hw => Lowers.pure ⟨hv.1, hw⟩
    | neg =>
      refine Lowers.bind (Lowers.valueOf ha) fun v x₁ h₁ hv => ?_
      rcases htype : a.type with _ | c | ⟨c, n⟩ | n <;> rw [htype] at hv
      · exact absurd rfl hv.1
      · exact Lowers.bind (Lowers.emit (Emits.neg rfl hv.2)) fun w x₂ _ hw =>
          Lowers.pure ⟨by simp, hw⟩
      · exact Lowers.bind (Lowers.emit (Emits.neg rfl hv.2)) fun w x₂ _ hw =>
          Lowers.pure ⟨by simp, hw⟩
      -- a matrix is negated column by column
      · have hcols : Emits O ρ (Pieces.columnwise n fun i => do
            Emit.neg (.vector .float n) (← Emit.column v i)) x₁.site
              fun w s' => s'.Has O w (Ty.ofData (.matrix n)) :=
          Pieces.emits_columnwise fun s' i hlead hi =>
            Emits.bind (Emits.column (hlead.has hv.2) hi) fun col s'' _ hcol => Emits.neg rfl hcol
        exact Lowers.bind (Lowers.emit hcols) fun w x₂ _ hw => Lowers.pure ⟨by simp, hw⟩

theorem lowers_step {pos : Pos} {s : Step} {post : Bool} {text : String} {a : Operand}
    (ha : a.Sound O x.site) :
    Lowers O ρ (step pos s post text a) x fun a x' => a.Sound O x'.site := by
  unfold step
  rcases htarget : a.target? with _ | ⟨name, isConst⟩
  · exact Lowers.fail
  · refine Lowers.check fun _ => Lowers.check fun hint => ?_
    have hscalar : a.type.isFlat = true ∧ a.type.isFloating = false := by
      revert hint
      rcases a.type with _ | c | ⟨c, n⟩ | n <;> (try cases c) <;>
        simp [DataType.isScalar, DataType.isInteger, DataType.component?, ScalarType.isInteger,
          DataType.isFlat, DataType.isFloating, ScalarType.isFloating]
    refine Lowers.bind (Lowers.valueOf ha) fun old x₁ h₁ hold => ?_
    have hnew : Emits O ρ (Emit.const a.type step.one >>= fun c => Emit.binary s.op a.type old c)
        x₁.site fun v s' => s'.Has O v (Ty.ofData a.type) :=
      Emits.bind (Emits.const hold.1) fun c s' hlead hc =>
        Emits.binary hscalar.1 (fun _ => hscalar.2) (hlead.has hold.2) hc
    refine Lowers.bind (Lowers.emit hnew) fun new x₂ h₂ hnew => ?_
    refine Lowers.bind (Lowers.storeTo ((ha.mono h₁.site).mono h₂.site) htarget hnew)
      fun _ x₃ h₃ _ => Lowers.pure ⟨hold.1, ?_⟩
    cases post
    · exact h₃.site.has hnew
    · exact h₃.site.has (h₂.site.has hold.2)

/-! ## Assignment -/

theorem lowers_assigned {pos : Pos} {op : Option ArithOp} {text : String} {a b : Operand}
    (ha : a.Sound O x.site) (hb : b.Sound O x.site) :
    Lowers O ρ (assigned pos op text a b) x fun v x' =>
      a.type ≠ .void ∧ x'.site.Has O v (Ty.ofData a.type) := by
  cases op with
  | none => exact Lowers.insteadOf (Lowers.valueAs hb)
  | some op =>
    exact Lowers.bind (Lowers.arith ha hb) fun z x₁ _ hz => Lowers.insteadOf (Lowers.valueAs hz)

theorem lowers_assign {pos : Pos} {op : Option ArithOp} {text : String} {a : Operand}
    {rhs : Lower Operand} (ha : a.Sound O x.site)
    (hrhs : Leading O x rhs fun _ a x' => a.Sound O x'.site) :
    Lowers O ρ (assign pos op text a rhs) x fun a x' => a.Sound O x'.site := by
  unfold assign
  rcases htarget : a.target? with _ | ⟨name, isConst⟩
  · exact Lowers.fail
  · refine Lowers.check fun _ => ?_
    refine Lowers.bind (hrhs ρ x .refl rfl) fun b x₁ h₁ hb => ?_
    refine Lowers.bind (lowers_assigned (ha.mono h₁.site) hb) fun v x₂ h₂ hv => ?_
    refine Lowers.bind (Lowers.storeTo ((ha.mono h₁.site).mono h₂.site) htarget hv.2)
      fun _ x₃ h₃ _ => Lowers.pure ⟨hv.1, h₃.site.has hv.2⟩

/-! ## Components -/

theorem lowers_indexValue {pos : Pos} {a : Operand} (ha : a.Sound O x.site) :
    Lowers O ρ (indexValue pos a) x fun v x' => x'.site.Has O v .i32 := by
  unfold indexValue
  refine Lowers.check fun hint => (Lowers.valueOf ha).weaken fun v x' _ hv => ?_
  have hword : Ty.ofData a.type = .i32 := by
    revert hint
    rcases a.type with _ | c | ⟨c, n⟩ | n <;> (try cases c) <;>
      simp [DataType.isScalar, DataType.isInteger, DataType.component?, ScalarType.isInteger,
        Ty.ofData, Ty.ofScalar]
  exact hword ▸ hv.2

theorem lowers_select {pos selPos : Pos} {sel : Swizzle} {a : Operand} (ha : a.Sound O x.site) :
    Lowers O ρ (select pos selPos sel a) x fun a x' => a.Sound O x'.site := by
  have hvalue : ∀ {c : ScalarType} {n : Dim}, a.type = .vector c n →
      Lowers O ρ (do
        let v ← valueOf a
        return Operand.value pos (.scalar c) (← emit (Emit.lane v (.index sel.index)))) x
        fun a x' => Operand.Sound O x'.site a := by
    intro c n htype
    refine Lowers.bind (Lowers.valueOf ha) fun v x₁ _ hv => ?_
    rw [htype] at hv
    exact Lowers.bind (Lowers.emit (Emits.lane hv.2 (.index _ O _))) fun w x₂ _ hw =>
      Lowers.pure ⟨by simp, hw⟩
  unfold select
  split
  next c n htype =>
    split
    next => exact Lowers.fail
    next =>
      cases a with
      | place p t addr name isConst =>
        obtain rfl : t = .vector c n := htype
        exact Lowers.pure ⟨ha.2, .index _ O _⟩
      | nothing p => exact hvalue htype
      | value p t v => exact hvalue htype
      | lane p d m addr idx name isConst => cases htype
  next => exact Lowers.fail

end

end Lowering

end Shader
