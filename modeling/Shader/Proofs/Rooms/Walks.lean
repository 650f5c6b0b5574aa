import Shader.Proofs.Lowering.Frames
import Shader.Proofs.Rooms.Traced

/-!
# Walks over expressions keep to the rooms of variables

A walk that succeeds keeps to the variables that have been declared, if what the operands of the
expression stand for has room. `Traces D k P act Q` says so of a walk that relies on `P` and yields
`Q`; both are about the function that is written, and last while it grows. A demand is met when the
values that operators yield are such as it asks for (`Fitness`).
-/

namespace Shader.Lowering

open Ir

variable {E : Setting} {D : Demand E} {k : Ledger} {α β : Type}

/-- What holds of a function holds while its code grows. -/
class Lasts (P : Func → Prop) : Prop where
  /-- it still holds later on -/
  mono : ∀ {f f'}, f.Grows f' → P f → P f'

instance {P P' : Func → Prop} [Lasts P] [Lasts P'] : Lasts fun f => P f ∧ P' f :=
  ⟨fun hf h => ⟨Lasts.mono hf h.1, Lasts.mono hf h.2⟩⟩

instance {p : Prop} : Lasts fun _ => p := ⟨fun _ h => h⟩

instance {p : Prop} {P : Func → Prop} [Lasts P] : Lasts fun f => p → P f :=
  ⟨fun hf h hp => Lasts.mono hf (h hp)⟩

instance {l : Label} : Lasts fun f => l ∈ f.ownLabels := ⟨fun hf h => hf.labels h⟩

instance {t : DataType} {v : Value} : Lasts fun f => D.fit k f t v :=
  ⟨fun hf h => D.fit_mono (.refl k) hf h⟩

instance {x : Operand} : Lasts fun f => x.Traced D k f := ⟨fun hf h => h.mono (.refl k) hf⟩

instance {c : Bool} {t : DataType} {v : Value} : Lasts fun f => Room E k f c t v :=
  ⟨fun hf h => h.mono (.refl k) hf⟩

instance {ps : List Passing} {vs : List Value} :
    Lasts fun f => List.Forall₂ (Passing.Takes D k f) ps vs :=
  ⟨fun hf h => h.imp fun _ _ htakes => htakes.mono (.refl k) hf⟩

instance {p : Passing} {v : Value} : Lasts fun f => p.Takes D k f v :=
  ⟨fun hf h => h.mono (.refl k) hf⟩

instance {xs : List Operand} : Lasts fun f => ∀ x ∈ xs, x.Traced D k f :=
  ⟨fun hf h x hx => (h x hx).mono (.refl k) hf⟩

instance {t : DataType} {v : Option Value} : Lasts fun f => ∀ w ∈ v, D.fit k f t w :=
  ⟨fun hf h w hw => D.fit_mono (.refl k) hf (h w hw)⟩

/-- A walk that succeeds keeps to the variables that have been declared. The notes that have been
made before it are among those that have been made behind it. -/
def Traces (D : Demand E) (k : Ledger) (P : Func → Prop) (act : Lower α) (Q : α → Func → Prop) :
    Prop :=
  ∀ b a b', act.run b = .ok (.ok a, b') → (D.seen b'.bound → D.seen b.bound) ∧
    (D.seen b'.bound → BodyTraced D k b → P b.draft.func →
      BodyTraced D k b' ∧ b.draft.Grows b'.draft ∧ Q a b'.draft.func)

/-! ## Composition -/

section

variable {P P' : Func → Prop} {act : Lower α} {Q Q' : α → Func → Prop}

namespace Traces

theorem weaken (h : Traces D k P act Q) (hP : ∀ f, P' f → P f) (hQ : ∀ a f, Q a f → Q' a f) :
    Traces D k P' act Q' := by
  intro b a b' hrun
  obtain ⟨hseen, htraces⟩ := h b a b' hrun
  refine ⟨hseen, fun hseen' hb hp => ?_⟩
  obtain ⟨hb', hgrows, hq⟩ := htraces hseen' hb (hP _ hp)
  exact ⟨hb', hgrows, hQ _ _ hq⟩

theorem pure {a : α} (h : ∀ f, P f → Q a f) : Traces D k P (Pure.pure a) Q := by
  rintro b _ _ ⟨⟩
  exact ⟨id, fun _ hb hp => ⟨hb, .refl _, h _ hp⟩⟩

theorem fail {pos : Pos} {cause : Cause} : Traces D k P (Lowering.fail pos cause) Q := by
  rintro b a b' ⟨⟩

/-- What holds before the first walk holds before the second. -/
theorem bind [Lasts P] {f : α → Lower β} {R : β → Func → Prop} (h : Traces D k P act Q)
    (hf : ∀ a, Traces D k (fun g => P g ∧ Q a g) (f a) R) : Traces D k P (act >>= f) R := by
  intro b c b'' hrun
  obtain ⟨a, b₁, hact, hrest⟩ := bind_succeeds hrun
  obtain ⟨hseen₁, htraces₁⟩ := h b a b₁ hact
  obtain ⟨hseen₂, htraces₂⟩ := hf a b₁ c b'' hrest
  refine ⟨fun hseen => hseen₁ (hseen₂ hseen), fun hseen hb hp => ?_⟩
  obtain ⟨hb₁, hgrows₁, hq⟩ := htraces₁ (hseen₂ hseen) hb hp
  obtain ⟨hb₂, hgrows₂, hr⟩ := htraces₂ hseen hb₁ ⟨Lasts.mono hgrows₁.func hp, hq⟩
  exact ⟨hb₂, hgrows₁.trans hgrows₂, hr⟩

theorem map {f : α → β} {R : β → Func → Prop} (h : Traces D k P act Q)
    (hf : ∀ a g, Q a g → R (f a) g) : Traces D k P (f <$> act) R := by
  intro b c b' hrun
  obtain ⟨a, b₁, hact, hpure⟩ := bind_succeeds hrun
  cases hpure
  exact h.weaken (fun _ hp => hp) hf b _ b' hact

/-- What is known of the results of a walk, whatever it keeps to. -/
theorem also {R : α → Prop} (h : Traces D k P act Q)
    (hR : ∀ b a b', act.run b = .ok (.ok a, b') → D.seen b'.bound → R a) :
    Traces D k P act fun a f => R a ∧ Q a f := by
  intro b a b' hrun
  obtain ⟨hseen, htraces⟩ := h b a b' hrun
  refine ⟨hseen, fun hseen' hb hp => ?_⟩
  obtain ⟨hb', hgrows, hq⟩ := htraces hseen' hb hp
  exact ⟨hb', hgrows, hR b a b' hrun hseen', hq⟩

theorem insteadOf {pos : Pos} {cause : Cause} (h : Traces D k P act Q) :
    Traces D k P (Lowering.insteadOf act pos cause) Q := by
  intro b a b' hrun
  obtain ⟨_, _, herror⟩ | ⟨_, hact, heq⟩ := insteadOf_cases hrun
  · cases herror
  · cases heq
    exact h b a b' hact

theorem check {p : Prop} {_ : Decidable p} {pos : Pos} {cause : Cause} {rest : Unit → Lower α}
    (h : ¬ p → Traces D k P (rest ()) Q) :
    Traces D k P (if p then Lowering.fail pos cause >>= rest else rest ()) Q := by
  split
  · rintro b a b' ⟨⟩
  next hp => exact h hp

theorem bindName {n : Name} {t : DataType} : Traces D k P (Lowering.bindName n t) fun _ => P := by
  rintro b _ _ ⟨⟩
  exact ⟨D.seen_tail, fun _ hb hp => ⟨⟨hb.toTraced, hb.scopes⟩, .refl _, hp⟩⟩

/-- Writing changes the code alone. -/
theorem emit {act : Emit α} (h : ∀ d a d', Traced D k d → P d.func → act d = .ok (a, d') →
      Traced D k d' ∧ d.Grows d' ∧ Q a d'.func) :
    Traces D k P (Lowering.emit act) Q := by
  intro b a b' hrun
  obtain ⟨a', d, hact, heq, rfl⟩ := emit_cases hrun
  cases heq
  refine ⟨id, fun _ hb hp => ?_⟩
  obtain ⟨hd, hgrows, hq⟩ := h b.draft a d hb.toTraced hp hact
  exact ⟨⟨hd, hb.scopes.mono fun _ hroom => hroom.mono (.refl k) hgrows.func⟩, hgrows, hq⟩

end Traces

end

/-! ## What is computed -/

/-- What only computes values keeps to the variables. -/
theorem evaluating_traces (D : Demand E) (k : Ledger) (P : Func → Prop) [Lasts P] :
    Evaluating fun {α} (act : Lower α) => Traces D k P act fun _ _ => True where
  pure := .pure fun _ _ => trivial
  fail := .fail
  emit h := .emit fun _ _ _ hd _ hrun =>
    have ⟨hd', hgrows⟩ := hd.evaluates h hrun
    ⟨hd', hgrows, trivial⟩
  bind h hf := .bind h fun a => (hf a).weaken (fun _ h => h.1) fun _ _ h => h
  insteadOf := .insteadOf

/-- The values that operators yield are as they are asked for. -/
structure Fitness (D : Demand E) : Prop where
  /-- only truth values are asked to be something -/
  plain : ∀ {k f t v}, t.isBoolean = false → D.fit k f t v
  /-- zeros -/
  zero : ∀ {k f t}, D.fit k f t (.zero t)
  /-- truth values that are written out -/
  bool : ∀ {k f} (c : Bool), D.fit k f .bool (.int (if c then 1 else 0))
  /-- arguments -/
  param : ∀ {k f i p}, E.params[i]? = some p → p.storage ≠ .output →
    D.fit k f p.type (.param E.id i p.name.text (formal p).type)
  /-- results of calls -/
  call : ∀ {k f name sig line args τ}, E.sigs name = some sig → line ∈ f.code →
    line.inst = .call ⟨sig.name, 0⟩ (Ty.ofData sig.result) args →
    D.fit k f sig.result (.result E.id line.reg "" τ)
  /-- one of several values -/
  phi : ∀ {k d d' t incoming v}, Traced D k d → (∀ i ∈ incoming, D.fit k d.func t i.1) →
    Emit.phi incoming d = .ok (v, d') → D.fit k d'.func t v
  /-- a vector variable with another component -/
  setLane : ∀ {k d d₁ d' c s n addr v vec idx w}, Traced D k d →
    Room E k d.func c (.vector s n) addr → D.fit k d.func (.scalar s) v →
    Emit.load (.vector s n) addr d = .ok (vec, d₁) → Emit.setLane vec v idx d₁ = .ok (w, d') →
    D.fit k d'.func (.vector s n) w
  /-- values of operands -/
  valueOf : ∀ {k b b' x v}, BodyTraced D k b → x.Traced D k b.draft.func →
    (valueOf x).run b = .ok (.ok v, b') → D.fit k b'.draft.func x.type v
  /-- converted values -/
  valueAs : ∀ {k b b' x t v}, BodyTraced D k b → x.Traced D k b.draft.func →
    (valueAs x t).run b = .ok (.ok v, b') → D.fit k b'.draft.func t v
  /-- constructed values -/
  build : ∀ {k b b' pos t xs v}, BodyTraced D k b → (∀ x ∈ xs, x.Traced D k b.draft.func) →
    (build pos t xs).run b = .ok (.ok v, b') → D.fit k b'.draft.func t v
  /-- results of arithmetic -/
  arith : ∀ {k b b' pos op x y z}, BodyTraced D k b → x.Traced D k b.draft.func →
    y.Traced D k b.draft.func → (arith pos op x y).run b = .ok (.ok z, b') →
    z.Traced D k b'.draft.func
  /-- results of operators with one operand -/
  unary : ∀ {k b b' pos op x y}, BodyTraced D k b → x.Traced D k b.draft.func →
    D.allows op x.type → (unary pos op x).run b = .ok (.ok y, b') → y.Traced D k b'.draft.func
  /-- components -/
  select : ∀ {k b b' pos selPos sel x y}, BodyTraced D k b → x.Traced D k b.draft.func →
    (select pos selPos sel x).run b = .ok (.ok y, b') → y.Traced D k b'.draft.func

section

variable {P : Func → Prop}

/-- What only computes values yields what is known of its results. -/
theorem Traces.evaluates {act : Lower α} {Q : α → Func → Prop}
    (h : Traces D k (fun _ => True) act fun _ _ => True)
    (hfit : ∀ b a b', BodyTraced D k b → P b.draft.func → act.run b = .ok (.ok a, b') →
      Q a b'.draft.func) : Traces D k P act Q := by
  intro b a b' hrun
  obtain ⟨hseen, htraces⟩ := h b a b' hrun
  refine ⟨hseen, fun hseen' hb hp => ?_⟩
  obtain ⟨hb', hgrows, -⟩ := htraces hseen' hb trivial
  exact ⟨hb', hgrows, hfit b a b' hb hp hrun⟩

theorem Traces.compute {act : Emit α} (h : Evaluates act) :
    Traces D k P (Lowering.emit act) fun _ _ => True :=
  ((evaluating_traces D k _).emit h).weaken (fun _ _ => trivial) fun _ _ h => h

/-! ## Operands -/

theorem isBoolean_of_isInteger : ∀ {t : DataType}, t.isInteger = true → t.isBoolean = false
  | .void, _ => rfl
  | .scalar s, h => by cases s <;> first | rfl | cases h
  | .vector s _, h => by cases s <;> first | rfl | cases h
  | .matrix _, _ => rfl

section

variable {x y : Operand} {t : DataType} {pos : Pos} (hD : Fitness D)

include hD

theorem traces_storeTo {name : String} {v : Value} (htarget : x.target? = some (name, false))
    (hx : ∀ f, P f → x.Traced D k f) (hv : ∀ f, P f → D.fit k f x.type v) :
    Traces D k P (storeTo x v) fun _ _ => True := by
  cases x with
  | nothing => cases htarget
  | value => cases htarget
  | place pos t addr name' isConst =>
    obtain ⟨-, rfl⟩ := Prod.mk.inj (Option.some.inj htarget)
    refine .emit fun d _ d' hd hp hrun => ?_
    obtain ⟨hd', hgrows⟩ := hd.store (hx _ hp) (hv _ hp) hrun
    exact ⟨hd', hgrows, trivial⟩
  | lane pos s n addr idx name' isConst =>
    obtain ⟨-, rfl⟩ := Prod.mk.inj (Option.some.inj htarget)
    refine .emit fun d _ d' hd hp hrun => ?_
    obtain ⟨vec, d₁, hload, hrun⟩ := Emit.bind_cases hrun
    obtain ⟨w, d₂, hset, hstore⟩ := Emit.bind_cases hrun
    have hfit := hD.setLane hd (hx _ hp) (hv _ hp) hload hset
    obtain ⟨hd₁, hgrows₁⟩ := hd.evaluates (.append rfl) hload
    obtain ⟨hd₂, hgrows₂⟩ := hd₁.evaluates (.append rfl) hset
    have hgrown := hgrows₁.trans hgrows₂
    obtain ⟨hd', hgrows⟩ := hd₂.store ((hx _ hp).mono (.refl k) hgrown.func) hfit hstore
    exact ⟨hd', hgrown.trans hgrows, trivial⟩

theorem traces_valueOf (hx : ∀ f, P f → x.Traced D k f) :
    Traces D k P (valueOf x) fun v f => D.fit k f x.type v :=
  .evaluates (stepwise_valueOf (evaluating_traces D k _)) fun _ _ _ hb hp hrun =>
    hD.valueOf hb (hx _ hp) hrun

theorem traces_valueAs (hx : ∀ f, P f → x.Traced D k f) :
    Traces D k P (valueAs x t) fun v f => D.fit k f t v :=
  .evaluates (stepwise_valueAs (evaluating_traces D k _)) fun _ _ _ hb hp hrun =>
    hD.valueAs hb (hx _ hp) hrun

theorem traces_initialValue (hx : ∀ f, P f → x.Traced D k f) :
    Traces D k P (initialValue t x) fun v f => D.fit k f t v := by
  unfold initialValue
  split
  · exact traces_valueAs hD hx
  · refine .evaluates (stepwise_build (evaluating_traces D k _)) fun b _ _ hb hp hrun => ?_
    exact hD.build hb (List.forall_mem_singleton.2 (hx _ hp)) hrun

theorem traces_build {xs : List Operand} (hxs : ∀ f, P f → ∀ x ∈ xs, x.Traced D k f) :
    Traces D k P (build pos t xs) fun v f => D.fit k f t v :=
  .evaluates (stepwise_build (evaluating_traces D k _)) fun _ _ _ hb hp hrun =>
    hD.build hb (hxs _ hp) hrun

theorem traces_arith {op : ArithOp} (hx : ∀ f, P f → x.Traced D k f)
    (hy : ∀ f, P f → y.Traced D k f) :
    Traces D k P (arith pos op x y) fun z f => z.Traced D k f :=
  .evaluates (stepwise_arith (evaluating_traces D k _)) fun _ _ _ hb hp hrun =>
    hD.arith hb (hx _ hp) (hy _ hp) hrun

theorem traces_unary {op : UnaryOp} (hx : ∀ f, P f → D.allows op x.type ∧ x.Traced D k f) :
    Traces D k P (unary pos op x) fun y f => y.Traced D k f :=
  .evaluates (stepwise_unary (evaluating_traces D k _)) fun _ _ _ hb hp hrun =>
    hD.unary hb (hx _ hp).2 (hx _ hp).1 hrun

theorem traces_select {selPos : Pos} {sel : Swizzle} (hx : ∀ f, P f → x.Traced D k f) :
    Traces D k P (select pos selPos sel x) fun y f => y.Traced D k f :=
  .evaluates (stepwise_select (evaluating_traces D k _)) fun _ _ _ hb hp hrun =>
    hD.select hb (hx _ hp) hrun

theorem traces_argument {func text : String} {p : Passing} (hx : ∀ f, P f → x.Traced D k f) :
    Traces D k P (argument func p pos text x) fun v f => p.Takes D k f v := by
  unfold argument
  split
  next hout =>
    dsimp only
    split
    · split
      next hplace =>
        obtain ⟨rfl, hconst⟩ := (by simpa using hplace : _ = p.type ∧ _ = false)
        refine .pure fun f hp => ?_
        rw [Passing.Takes, if_pos hout]
        exact hconst ▸ hx f hp
      · exact .fail
    · exact .fail
  next hin =>
    refine (Traces.insteadOf (traces_valueAs hD hx)).weaken (fun _ h => h) fun v f hfit => ?_
    rw [Passing.Takes, if_neg hin]
    exact hfit

/-! ## Operators -/

variable [Lasts P]

theorem traces_arithExpr {op : ArithOp} (hx : ∀ f, P f → x.Traced D k f)
    (hy : ∀ f, P f → y.Traced D k f) :
    Traces D k P (arithExpr pos op x y) fun z f => z.Traced D k f := by
  refine .bind (traces_arith hD hx hy) fun z => ?_
  refine .bind (.insteadOf (traces_valueAs hD fun _ h => h.2)) fun v => ?_
  exact .pure fun _ h => h.2

theorem traces_comparison {op : RelOp} :
    Traces D k P (comparison pos op x y) fun z f => z.Traced D k f := by
  unfold comparison
  split
  · exact .fail
  · exact .fail
  · refine .check fun _ => .bind (stepwise_valueAs (evaluating_traces D k P)) fun lv => ?_
    refine .bind (stepwise_valueAs (evaluating_traces D k _)) fun rv => ?_
    refine .bind (.compute ?_) fun _ => .pure fun _ _ => ?_
    · exact .bind .compare fun _ => .append rfl
    · exact hD.plain rfl

theorem traces_step {s : Step} {post : Bool} {text : String} (hx : ∀ f, P f → x.Traced D k f) :
    Traces D k P (step pos s post text x) fun y f => y.Traced D k f := by
  unfold step
  split
  · exact .fail
  next name isConst htarget =>
    refine .check fun hconst => .check fun hint => ?_
    obtain rfl : isConst = false := by simpa using hconst
    have hplain : x.type.isBoolean = false := by
      rw [Bool.or_eq_true, not_or] at hint
      exact isBoolean_of_isInteger (by simpa using hint.2)
    refine .bind (traces_valueOf hD hx) fun old => ?_
    refine .bind (.compute (.bind .const fun _ => .append rfl)) fun new => ?_
    refine .bind (traces_storeTo hD htarget (fun f h => hx f h.1.1) fun _ _ => hD.plain hplain)
      fun _ => ?_
    exact .pure fun _ _ => hD.plain hplain

theorem traces_assigned {op : Option ArithOp} {text : String} (hx : ∀ f, P f → x.Traced D k f)
    (hy : ∀ f, P f → y.Traced D k f) :
    Traces D k P (assigned pos op text x y) fun v f => D.fit k f x.type v := by
  cases op with
  | none => exact .insteadOf (traces_valueAs hD hy)
  | some op =>
    refine .bind (traces_arith hD hx hy) fun z => ?_
    exact .insteadOf (traces_valueAs hD fun _ h => h.2)

theorem traces_assign {op : Option ArithOp} {text : String} {rhs : Lower Operand}
    (hx : ∀ f, P f → x.Traced D k f) (hrhs : Traces D k P rhs fun y f => y.Traced D k f) :
    Traces D k P (assign pos op text x rhs) fun z f => z.Traced D k f := by
  unfold assign
  split
  · exact .fail
  next name isConst htarget =>
    refine .check fun hconst => ?_
    obtain rfl : isConst = false := by simpa using hconst
    refine .bind hrhs fun y => ?_
    refine .bind (traces_assigned hD (fun f h => hx f h.1) fun _ h => h.2) fun v => ?_
    refine .bind (traces_storeTo hD htarget (fun f h => hx f h.1.1) fun _ h => h.2) fun _ => ?_
    exact .pure fun _ h => h.1.2

end

end

/-! ## Results of operators -/

/-- The operand is a value. -/
def Operand.IsValue : Operand → Prop
  | .value _ _ _ => True
  | _ => False

section
variable {P : Body → Prop} {x y : Operand} {pos : Pos}

theorem Brings.any {act : Lower α} : Brings P act fun _ _ => True := fun _ _ _ _ _ => trivial

theorem brings_promotedArith {op : ArithOp} :
    Brings P (promotedArith pos op x y) fun z _ => z.IsValue := by
  unfold promotedArith
  dsimp only
  split
  · exact .fail
  · split
    · refine .bind .any fun lv => .bind .any fun rv => ?_
      split
      · exact .bind .any fun v => .pure fun _ _ => trivial
      · exact .bind .any fun v => .pure fun _ _ => trivial
    · exact .fail

/-- Arithmetic yields a value. -/
theorem brings_arith {op : ArithOp} : Brings P (arith pos op x y) fun z _ => z.IsValue := by
  unfold arith
  refine .check fun _ => ?_
  split
  · split
    · exact .bind .any fun _ => .bind .any fun _ => .bind .any fun _ => .pure fun _ _ => trivial
    · exact brings_promotedArith
  · split
    · exact .bind .any fun _ => .bind .any fun _ => .bind .any fun _ => .pure fun _ _ => trivial
    · exact brings_promotedArith
  · split
    · exact .bind .any fun _ => .bind .any fun _ => .bind .any fun _ => .pure fun _ _ => trivial
    · exact brings_promotedArith
  · exact brings_promotedArith

theorem brings_unary {op : UnaryOp} : Brings P (unary pos op x) fun y _ => y.IsValue := by
  unfold unary
  dsimp only
  split
  · exact .fail
  · cases op with
    | not =>
      dsimp only
      split
      · exact .fail
      · exact .bind .any fun v => .bind .any fun _ => .pure fun _ _ => trivial
    | bitNot =>
      dsimp only
      split
      · exact .fail
      · exact .bind .any fun v => .bind .any fun _ => .pure fun _ _ => trivial
    | neg =>
      refine .bind .any fun v => ?_
      split <;> exact .bind .any fun _ => .pure fun _ _ => trivial
    | plus => exact .bind .any fun _ => .pure fun _ _ => trivial
    | step => exact .bind .any fun _ => .pure fun _ _ => trivial

/-- A component is that of a variable, or a value. -/
theorem brings_select {selPos : Pos} {sel : Swizzle} :
    Brings (fun b => x.Traced D k b.draft.func) (select pos selPos sel x) fun y b =>
      y.IsValue ∨ y.Traced D k b.draft.func := by
  unfold select
  split
  next s n htype =>
    split
    · exact .fail
    split
    next p t addr name isConst =>
      obtain rfl : t = .vector s n := htype
      exact .pure fun _ hx => .inr hx
    · exact .bind .any fun _ => .bind .any fun _ => .pure fun _ _ => .inl trivial
  · exact .fail

end

end Shader.Lowering
