import Shader.Proofs.Execution.Machine
import Shader.Proofs.Ir.Typing
import Shader.Proofs.Lowering.Success

/-!
# Code without branches in execution

Most code is written at the point of a draft, one instruction behind the other, and control goes
straight through it. `Executes` carries out what has been written between two drafts, and
`Emit.Computes` says of an operation that writes code what is known of its result when the code has
been carried out: a triple of partial correctness, in which whatever was known before stays known.
-/

namespace Shader.Ir

section

variable {R : Type} {N : Arithmetic R} {d d' d'' : Draft} {v v' v'' : View R}

/-- What can be seen behind an instruction. -/
def View.behind (v : View R) (r : Nat) (w : Option (Datum R)) (memory : Memory R) : View R :=
  { v with regs := v.regs.keep r w, memory }

/-- What has been written at the point between two drafts, carried out. -/
inductive Executes (N : Arithmetic R) : Draft → View R → Draft → View R → Prop
  /-- nothing has been written -/
  | done (d : Draft) (v : View R) : Executes N d v d v
  /-- an instruction, and what comes behind it -/
  | next {d d' : Draft} {v v' : View R} {l : Label} {inst : Inst} {w : Option (Datum R)}
      {memory : Memory R} (point : d.point = some l) (body : inst.isAlloca = false)
      (effect : inst.effect N v = some (w, memory))
      (rest : Executes N { d with func := d.func.put l inst } (v.behind d.func.regs w memory)
        d' v') :
      Executes N d v d' v'

namespace Executes

theorem trans (h : Executes N d v d' v') (h' : Executes N d' v' d'' v'') :
    Executes N d v d'' v'' := by
  induction h with
  | done => exact h'
  | next point body effect _ ih => exact .next point body effect (ih h')

theorem single {l : Label} {inst : Inst} {w : Option (Datum R)} {memory : Memory R}
    (point : d.point = some l) (body : inst.isAlloca = false)
    (effect : inst.effect N v = some (w, memory)) :
    Executes N d v { d with func := d.func.put l inst } (v.behind d.func.regs w memory) :=
  .next point body effect (.done _ _)

theorem args (h : Executes N d v d' v') : v'.args = v.args := by
  induction h with
  | done => rfl
  | next _ _ _ _ ih => exact ih

theorem le_regs (h : Executes N d v d' v') : d.func.regs ≤ d'.func.regs := by
  induction h with
  | done => exact Nat.le_refl _
  | next _ _ _ _ ih => exact Nat.le_trans (Nat.le_succ _) ih

/-- An instruction does not change the results of those before it. -/
theorem regs (h : Executes N d v d' v') {r : Nat} (hr : r < d.func.regs) :
    v'.regs r = v.regs r := by
  induction h with
  | done => rfl
  | @next d _ v _ _ _ w _ _ _ _ _ ih =>
    refine (ih (Nat.lt_succ_of_lt hr)).trans ?_
    cases w with
    | none => rfl
    | some w => exact Function.update_of_ne (Nat.ne_of_lt hr) _ _

end Executes

/-- What a value is, where it has been computed before. -/
structure Known (N : Arithmetic R) (d : Draft) (v : View R) (x : Value) (w : Datum R) : Prop where
  /-- the value -/
  value : v.value N x = some w
  /-- it is no result of an instruction that is still to be written -/
  old : ∀ r, x.reg? = some r → r < d.func.regs

/-- Code has been carried out that leaves memory alone. -/
structure Evolves (N : Arithmetic R) (d : Draft) (v : View R) (d' : Draft) (v' : View R) :
    Prop where
  /-- what has been written -/
  code : Executes N d v d' v'
  /-- the memory stays -/
  memory : v'.memory = v.memory

theorem Evolves.refl (d : Draft) (v : View R) : Evolves N d v d v := ⟨.done d v, rfl⟩

theorem Evolves.trans (h : Evolves N d v d' v') (h' : Evolves N d' v' d'' v'') :
    Evolves N d v d'' v'' := ⟨h.code.trans h'.code, h'.memory.trans h.memory⟩

/-- What is known stays known. -/
theorem Executes.known (h : Executes N d v d' v') {x : Value} {w : Datum R}
    (hx : Known N d v x w) : Known N d' v' x w where
  value := by
    rw [← hx.value]
    cases x with
    | const c => rfl
    | global id content => rfl
    | param id i name type => exact congrArg (·[i]?) h.args
    | result id r name type => exact h.regs (hx.old r rfl)
  old := fun r hr => Nat.lt_of_lt_of_le (hx.old r hr) h.le_regs

theorem Evolves.known (h : Evolves N d v d' v') {x : Value} {w : Datum R}
    (hx : Known N d v x w) : Known N d' v' x w := h.code.known hx

/-- The values of a list are known. -/
abbrev KnownAll (N : Arithmetic R) (d : Draft) (v : View R) : List Value → List (Datum R) → Prop :=
  List.Forall₂ (Known N d v)

theorem Evolves.knownAll (h : Evolves N d v d' v') {xs : List Value} {ws : List (Datum R)}
    (hx : KnownAll N d v xs ws) : KnownAll N d' v' xs ws := hx.imp fun _ _ => h.known

theorem Known.const {c : Const} {w : Datum R} (h : c.datum N = some w) :
    Known N d v (.const c) w := ⟨h, fun _ hr => by cases hr⟩

theorem Known.address {x : Value} {a : Address} (h : Known N d v x (.address a)) :
    v.address N x = some a := by simp [View.address, h.value]

theorem Known.index {x : Value} {w : Datum R} {i : Nat} (h : Known N d v x w)
    (hi : w.index? = some i) : v.index N x = some i := by simp [View.index, h.value, hi]

/-- The number of a component of a vector or a matrix. -/
theorem View.index_index {i : Nat} (hi : i < 4) : v.index N (.index i) = some i := by
  have hword : (BitVec.ofInt 32 (i : Int)).toNat = i := by
    rw [BitVec.ofInt_natCast, BitVec.toNat_ofNat]
    exact Nat.mod_eq_of_lt (by omega)
  exact congrArg some hword

end

/-! ## Operations that write code -/

namespace Emit

variable {R : Type} {N : Arithmetic R} {d : Draft} {v : View R} {α β : Type}

/-- The code that an operation writes leaves memory alone, and something is known of its result once
it has been carried out. -/
def Computes (N : Arithmetic R) (act : Emit α) (d : Draft) (v : View R)
    (Q : α → Draft → View R → Prop) : Prop :=
  ∀ a d', act d = .ok (a, d') → ∃ v', Evolves N d v d' v' ∧ Q a d' v'

namespace Computes

variable {act : Emit α} {f : α → Emit β} {P P' : α → Draft → View R → Prop}
  {Q : β → Draft → View R → Prop}

theorem weaken (h : Computes N act d v P)
    (hP : ∀ a d' v', Evolves N d v d' v' → P a d' v' → P' a d' v') : Computes N act d v P' := by
  intro a d' hrun
  obtain ⟨v', hev, hv'⟩ := h a d' hrun
  exact ⟨v', hev, hP a d' v' hev hv'⟩

theorem pure {a : α} (h : P a d v) : Computes N (Pure.pure a) d v P := by
  intro _ _ hrun
  cases hrun
  exact ⟨v, .refl d v, h⟩

theorem throw {e : Fault} : Computes N (MonadExcept.throw e) d v P := by
  intro _ _ hrun
  cases hrun

theorem bind (h : Computes N act d v P)
    (hf : ∀ a d' v', Evolves N d v d' v' → P a d' v' → Computes N (f a) d' v' Q) :
    Computes N (act >>= f) d v Q := by
  intro b d'' hrun
  obtain ⟨a, d', hact, hrest⟩ := bind_cases hrun
  obtain ⟨v', hev, hv'⟩ := h a d' hact
  obtain ⟨v'', hev', hv''⟩ := hf a d' v' hev hv' b d'' hrest
  exact ⟨v'', hev.trans hev', hv''⟩

/-- An instruction that only computes. -/
theorem append {inst : Inst} {w : Datum R} (hbody : inst.isAlloca = false)
    (heffect : inst.effect N v = some (some w, v.memory)) :
    Computes N (Emit.append inst) d v fun x d' v' => Known N d' v' x w := by
  intro x d' hrun
  obtain ⟨l, τ, hl, -, rfl, rfl⟩ := append_cases hrun
  refine ⟨_, ⟨.single hl hbody heffect, rfl⟩, ⟨Function.update_self _ _ _, fun r hr => ?_⟩⟩
  obtain rfl := Option.some.inj hr
  exact Nat.lt_succ_self _

/-- The rounds of a loop over the numbers below a bound. -/
theorem foldlM_range {γ : Type} {f : γ → Nat → Emit γ} {I : Nat → γ → Draft → View R → Prop}
    {n : Nat} {c : γ} (hc : I 0 c d v)
    (hf : ∀ i < n, ∀ c d' v', Evolves N d v d' v' → I i c d' v' →
      Computes N (f c i) d' v' (I (i + 1))) :
    Computes N ((List.range n).foldlM f c) d v (I n) := by
  induction n with
  | zero => exact pure hc
  | succ n ih =>
    rw [List.range_succ, List.foldlM_append]
    refine bind (ih fun i hi => hf i (Nat.lt_succ_of_lt hi)) fun c' d' v' hev hI => ?_
    rw [List.foldlM_cons]
    refine bind (hf n (Nat.lt_succ_self n) c' d' v' hev hI) fun c'' d'' v'' _ hI' => ?_
    rw [List.foldlM_nil]
    exact pure hI'

/-- The rounds of a loop over a list. -/
theorem foldlM {γ δ : Type} {f : γ → δ → Emit γ} {I : Nat → γ → Draft → View R → Prop}
    {l : List δ} {c : γ} (hc : I 0 c d v)
    (hf : ∀ i x, l[i]? = some x → ∀ c d' v', Evolves N d v d' v' → I i c d' v' →
      Computes N (f c x) d' v' (I (i + 1))) :
    Computes N (l.foldlM f c) d v (I l.length) := by
  induction l generalizing I c d v with
  | nil => exact pure hc
  | cons x l ih =>
    rw [List.foldlM_cons]
    refine bind (hf 0 x rfl c d v (.refl d v) hc) fun c' d' v' hev hI => ?_
    exact ih (I := fun i => I (i + 1)) hI fun i y hy c'' d'' v'' hev' hI' =>
      hf (i + 1) y hy c'' d'' v'' (hev.trans hev') hI'

/-- The results for the numbers below a bound, of which something is known that stays known. -/
theorem mapM_range {f : Nat → Emit β} {P : Nat → β → Draft → View R → Prop} {n : Nat}
    (hmono : ∀ i b d₁ v₁ d₂ v₂, Evolves N d₁ v₁ d₂ v₂ → P i b d₁ v₁ → P i b d₂ v₂)
    (hf : ∀ i < n, ∀ d' v', Evolves N d v d' v' → Computes N (f i) d' v' (P i)) :
    Computes N ((List.range n).mapM f) d v fun bs d' v' =>
      List.Forall₂ (fun i b => P i b d' v') (List.range n) bs := by
  have hlist : ∀ l : List Nat, (∀ i ∈ l, i < n) → ∀ d' v', Evolves N d v d' v' →
      Computes N (l.mapM f) d' v' fun bs d'' v'' =>
        List.Forall₂ (fun i b => P i b d'' v'') l bs := by
    intro l
    induction l with
    | nil => exact fun _ d' v' _ => pure .nil
    | cons i l ih =>
      intro hl d' v' hev
      obtain ⟨hi, hl⟩ := List.forall_mem_cons.1 hl
      rw [List.mapM_cons]
      refine bind (hf i hi d' v' hev) fun b d₁ v₁ hev₁ hb => ?_
      refine bind (ih hl d₁ v₁ (hev.trans hev₁)) fun bs d₂ v₂ hev₂ hbs => ?_
      exact pure (.cons (hmono i b d₁ v₁ d₂ v₂ hev₂ hb) hbs)
  exact hlist _ (fun i hi => List.mem_range.1 hi) d v (.refl d v)

end Computes

/-! ## Instructions -/

section

variable {x y elem idx : Value} {w w' e : Datum R} {i : Nat}

theorem computes_of_computed {inst : Inst} {w : Datum R} (hbody : inst.isAlloca = false)
    (hstore : ∀ x addr, inst ≠ .store x addr) (hw : inst.computed N v = some w) :
    Computes N (append inst) d v fun x d' v' => Known N d' v' x w := by
  refine .append hbody ?_
  cases inst with
  | alloca τ => cases hbody
  | store x addr => exact absurd rfl (hstore x addr)
  | _ => simp [Inst.effect, hw]

theorem computes_load {t : DataType} {a : Address} (hx : Known N d v x (.address a))
    (hw : v.memory.read a = some w) :
    Computes N (load t x) d v fun y d' v' => Known N d' v' y w :=
  computes_of_computed rfl (by simp) (by simp [Inst.computed, hx.address, hw])

theorem computes_lane (hx : Known N d v x w) (hi : v.index N idx = some i)
    (hw : w.lane? i = some w') : Computes N (lane x idx) d v fun y d' v' => Known N d' v' y w' :=
  computes_of_computed rfl (by simp) (by simp [Inst.computed, hx.value, hi, hw])

theorem computes_setLane (hx : Known N d v x w) (he : Known N d v elem e)
    (hi : v.index N idx = some i) (hw : w.setLane? e i = some w') :
    Computes N (setLane x elem idx) d v fun y d' v' => Known N d' v' y w' :=
  computes_of_computed rfl (by simp) (by simp [Inst.computed, hx.value, he.value, hi, hw])

theorem computes_column (hx : Known N d v x w) (hw : w.column? i = some w') :
    Computes N (column x i) d v fun y d' v' => Known N d' v' y w' :=
  computes_of_computed rfl (by simp) (by simp [Inst.computed, hx.value, hw])

theorem computes_setColumn (hx : Known N d v x w) (he : Known N d v elem e)
    (hw : w.setColumn? e i = some w') :
    Computes N (setColumn x elem i) d v fun y d' v' => Known N d' v' y w' :=
  computes_of_computed rfl (by simp) (by simp [Inst.computed, hx.value, he.value, hw])

theorem computes_opcode {op : Opcode} (hx : Known N d v x w) (hy : Known N d v y e)
    (hw : w.zip? (op.apply N) e = some w') :
    Computes N (append (.binary op x y)) d v fun z d' v' => Known N d' v' z w' :=
  computes_of_computed rfl (by simp) (by simp [Inst.computed, hx.value, hy.value, hw])

theorem computes_fneg (hx : Known N d v x w) (hw : w.map? (Number.negated N) = some w') :
    Computes N (append (.fneg x)) d v fun z d' v' => Known N d' v' z w' :=
  computes_of_computed rfl (by simp) (by simp [Inst.computed, hx.value, hw])

theorem computes_icmp {p : IntPred} (hx : Known N d v x w) (hy : Known N d v y e)
    (hw : w.zip? p.test e = some w') :
    Computes N (append (.icmp p x y)) d v fun z d' v' => Known N d' v' z w' :=
  computes_of_computed rfl (by simp) (by simp [Inst.computed, hx.value, hy.value, hw])

theorem computes_fcmp {p : FloatPred} (hx : Known N d v x w) (hy : Known N d v y e)
    (hw : w.zip? (p.test N) e = some w') :
    Computes N (append (.fcmp p x y)) d v fun z d' v' => Known N d' v' z w' :=
  computes_of_computed rfl (by simp) (by simp [Inst.computed, hx.value, hy.value, hw])

theorem computes_cast {op : CastOp} {τ : Ty} (hx : Known N d v x w)
    (hw : w.map? (op.apply N τ.precision) = some w') :
    Computes N (append (.cast op x τ)) d v fun z d' v' => Known N d' v' z w' :=
  computes_of_computed rfl (by simp) (by simp [Inst.computed, hx.value, hw])

end

end Emit

end Shader.Ir
