import Shader.Proofs.Lowering.ExprTypes
import Shader.Proofs.Rooms.Globals

/-!
# Where truth values come from

Truth values share the integers of the target, and an integer is a truth value only if it comes from
where there are no others: from a bit, from a variable, a parameter or a function of a type of truth
values, or from components of such values. `Truth` says so of a value by following it back through
the instructions that compute it. It is what `Demand.truths` asks of the values of these types, and
every operator meets the demand but the minus sign, which keeps the type of its operand.
-/

namespace Shader.Lowering

open Ir

/-! ## Values -/

/-- How much of a value is known. -/
inductive Extent where
  /-- all of it -/
  | all
  /-- the components of a vector of a length that are in front of one -/
  | first (i : Nat) (n : Dim)

/-- An instruction yields truth values, as far as its result is known, if its operands are. -/
inductive Needs (E : Setting) (k : Ledger) (f : Func) :
    Extent → Inst → List (Extent × Value) → Prop
  /-- the result of a function -/
  | call {name : String} {sig : Signature} {result : Ty} {args : List Value}
    (hsig : E.sigs name = some sig) (ht : sig.result.isBoolean = true) :
    Needs E k f .all (.call ⟨sig.name, 0⟩ result args) []
  /-- the value of a variable -/
  | load {c : Bool} {t : DataType} {addr : Value} {content : Ty} (hroom : Room E k f c t addr)
    (ht : t.isBoolean = true) : Needs E k f .all (.load content addr) []
  /-- bits as integers -/
  | bits {x : Value} {target : Ty} : Needs E k f .all (.cast .zext x target) []
  /-- a component -/
  | lane {x idx : Value} : Needs E k f .all (.extractElement x idx) [(.all, x)]
  /-- a vector with another component -/
  | setLane {x s idx : Value} :
    Needs E k f .all (.insertElement x s idx) [(.all, x), (.all, s)]
  /-- one of several values -/
  | phi {type : Ty} {incoming : List (Value × Label)} :
    Needs E k f .all (.phi type incoming) (incoming.map fun i => (.all, i.1))
  /-- the next component of a vector -/
  | next {i : Nat} {n : Dim} {x s : Value} (hi : i < n.size) :
    Needs E k f (.first (i + 1) n) (.insertElement x s (.index i)) [(.first i n, x), (.all, s)]

/-- A value is made of truth values, as far as it is known. -/
inductive Truth (E : Setting) (k : Ledger) (f : Func) : Extent → Value → Prop
  /-- zeros -/
  | zero {t : DataType} (ht : t.isBoolean = true) : Truth E k f .all (.zero t)
  /-- truth values that are written out -/
  | bool (c : Bool) : Truth E k f .all (.int (if c then 1 else 0))
  /-- a vector of which no component is known -/
  | undef (n : Dim) : Truth E k f (.first 0 n) (.const (.undef (Ty.ofData (.vector .bool n))))
  /-- an argument -/
  | param {i : Nat} {p : Param} (hp : E.params[i]? = some p) (hin : p.storage ≠ .output)
    (ht : p.type.isBoolean = true) : Truth E k f .all (.param E.id i p.name.text (formal p).type)
  /-- the result of an instruction -/
  | result {line : Line} {inst : Inst} {e : Extent} {operands : List (Extent × Value)}
    (hline : line ∈ f.code) (hinst : line.inst = inst) (hneeds : Needs E k f e inst operands)
    (h : ∀ x ∈ operands, Truth E k f x.1 x.2) (τ : Ty) : Truth E k f e (.result E.id line.reg "" τ)
  /-- a vector of which every component is known -/
  | full {n : Dim} {x : Value} (hx : Truth E k f (.first n.size n) x) : Truth E k f .all x

section

variable {E : Setting} {k k' : Ledger} {f f' : Func} {e : Extent} {x s idx v : Value} {line : Line}

theorem Needs.mono {inst : Inst} {operands : List (Extent × Value)} (hk : k.Le k')
    (hf : f.Grows f') (h : Needs E k f e inst operands) : Needs E k' f' e inst operands := by
  cases h with
  | call hsig ht => exact .call hsig ht
  | load hroom ht => exact .load (hroom.mono hk hf) ht
  | bits => exact .bits
  | lane => exact .lane
  | setLane => exact .setLane
  | phi => exact .phi
  | next hi => exact .next hi

namespace Truth

theorem mono (hk : k.Le k') (hf : f.Grows f') (h : Truth E k f e v) : Truth E k' f' e v := by
  induction h with
  | zero ht => exact .zero ht
  | bool c => exact .bool c
  | undef n => exact .undef n
  | param hp hin ht => exact .param hp hin ht
  | result hline hinst hneeds _ τ ih => exact .result (hf.code hline) hinst (hneeds.mono hk hf) ih τ
  | full _ ih => exact .full ih

theorem lane (hx : Truth E k f .all x) (hline : line ∈ f.code)
    (hinst : line.inst = .extractElement x idx) (τ : Ty) :
    Truth E k f .all (.result E.id line.reg "" τ) :=
  .result hline hinst .lane (List.forall_mem_singleton.2 hx) τ

theorem setLane (hx : Truth E k f .all x) (hs : Truth E k f .all s) (hline : line ∈ f.code)
    (hinst : line.inst = .insertElement x s idx) (τ : Ty) :
    Truth E k f .all (.result E.id line.reg "" τ) :=
  .result hline hinst .setLane (List.forall_mem_cons.2 ⟨hx, List.forall_mem_singleton.2 hs⟩) τ

theorem load {c : Bool} {t : DataType} {addr : Value} {content : Ty} (hroom : Room E k f c t addr)
    (ht : t.isBoolean = true) (hline : line ∈ f.code) (hinst : line.inst = .load content addr)
    (τ : Ty) : Truth E k f .all (.result E.id line.reg "" τ) :=
  .result hline hinst (.load hroom ht) (List.forall_mem_nil _) τ

theorem next {i : Nat} {n : Dim} (hi : i < n.size) (hx : Truth E k f (.first i n) x)
    (hs : Truth E k f .all s) (hline : line ∈ f.code)
    (hinst : line.inst = .insertElement x s (.index i)) (τ : Ty) :
    Truth E k f (.first (i + 1) n) (.result E.id line.reg "" τ) :=
  .result hline hinst (.next hi) (List.forall_mem_cons.2 ⟨hx, List.forall_mem_singleton.2 hs⟩) τ

/-- The result of an instruction is made of truth values if its operands are. -/
theorem exists_needs {id : FuncId} {name : String} {τ : Ty}
    (h : Truth E k f e (.result id line.reg name τ)) (hf : f.Numbered) (hline : line ∈ f.code) :
    ∃ e' operands, Needs E k f e' line.inst operands ∧ (∀ x ∈ operands, Truth E k f x.1 x.2) ∧
      (e' = e ∨ e = .all ∧ ∃ n, e' = .first n.size n) := by
  generalize hv : Value.result id line.reg name τ = v at h
  induction h with
  | result hline' hinst hneeds hoperands =>
    obtain ⟨-, hreg, -, -⟩ := Value.result.inj hv
    obtain rfl := hf.line_eq hline hline' hreg
    exact ⟨_, _, hinst ▸ hneeds, hoperands, .inl rfl⟩
  | @full n _ _ ih =>
    obtain ⟨e', operands, hneeds, hoperands, rfl | ⟨heq, -⟩⟩ := ih hv
    · exact ⟨_, _, hneeds, hoperands, .inr ⟨rfl, n, rfl⟩⟩
    · cases heq
  | _ => cases hv

end Truth

end

instance {E : Setting} {k : Ledger} {e : Extent} {v : Value} : Lasts fun f => Truth E k f e v :=
  ⟨fun hf h => h.mono (.refl k) hf⟩

instance {E : Setting} {k : Ledger} {e : Extent} {vs : List Value} :
    Lasts fun f => ∀ v ∈ vs, Truth E k f e v :=
  ⟨fun hf h v hv => (h v hv).mono (.refl k) hf⟩

/-- The values of types of truth values are such, and no minus sign is put in front of them. -/
def Demand.truths (E : Setting) : Demand E where
  fit := fun k f t v => t.isBoolean = true → Truth E k f .all v
  fit_mono := fun hk hf h ht => (h ht).mono hk hf
  allows := fun op t => op = .neg → t.isBoolean = false
  seen := fun _ => True
  seen_tail := id

/-- The demand, where the notes that are made are among some. -/
def Demand.among {E : Setting} (D : Demand E) (notes : List (Name × DataType)) : Demand E :=
  { D with
    seen := fun l => l <:+: notes
    seen_tail := fun h => (List.suffix_cons _ _).isInfix.trans h }

/-! ## Writing -/

section

variable {E : Setting} {D : Demand E} {k : Ledger} {α β : Type} {P P' : Func → Prop}

/-- Writing that keeps to the variables that have been declared, relies on `P` and yields `Q`. -/
def Puts (D : Demand E) (k : Ledger) (P : Func → Prop) (act : Emit α) (Q : α → Func → Prop) :
    Prop :=
  ∀ d a d', Traced D k d → P d.func → act d = .ok (a, d') →
    Traced D k d' ∧ d.Grows d' ∧ Q a d'.func

namespace Puts

variable {act : Emit α} {Q Q' : α → Func → Prop}

theorem weaken (h : Puts D k P act Q) (hP : ∀ f, P' f → P f) (hQ : ∀ a f, Q a f → Q' a f) :
    Puts D k P' act Q' := fun d a d' hd hp hrun =>
  have ⟨hd', hgrows, hq⟩ := h d a d' hd (hP _ hp) hrun
  ⟨hd', hgrows, hQ _ _ hq⟩

theorem pure {a : α} (h : ∀ f, P f → Q a f) : Puts D k P (Pure.pure a) Q := by
  rintro d _ _ hd hp ⟨⟩
  exact ⟨hd, .refl _, h _ hp⟩

theorem throw {e : Fault} : Puts D k P (MonadExcept.throw e : Emit α) Q := by
  rintro d a d' _ _ ⟨⟩

/-- What holds before the first piece of code holds before the second. -/
theorem bind [Lasts P] {f : α → Emit β} {R : β → Func → Prop} (h : Puts D k P act Q)
    (hf : ∀ a, Puts D k (fun g => P g ∧ Q a g) (f a) R) : Puts D k P (act >>= f) R := by
  intro d c d'' hd hp hrun
  obtain ⟨a, d₁, hact, hrest⟩ := Emit.bind_cases hrun
  obtain ⟨hd₁, hgrows₁, hq⟩ := h d a d₁ hd hp hact
  obtain ⟨hd₂, hgrows₂, hr⟩ := hf a d₁ c d'' hd₁ ⟨Lasts.mono hgrows₁.func hp, hq⟩ hrest
  exact ⟨hd₂, hgrows₁.trans hgrows₂, hr⟩

theorem compute (h : Evaluates act) : Puts D k P act fun _ _ => True := fun _ _ _ hd _ hrun =>
  have ⟨hd', hgrows⟩ := hd.evaluates h hrun
  ⟨hd', hgrows, trivial⟩

/-- An instruction that computes a value. -/
theorem append {inst : Inst} {Q : Value → Func → Prop} (hinst : inst.computes = true)
    (h : ∀ f line τ, P f → line ∈ f.code → line.inst = inst → Q (.result E.id line.reg "" τ) f)
    [Lasts P] : Puts D k P (Emit.append inst) Q := by
  intro d v d' hd hp hrun
  obtain ⟨hd', hgrows, hmem, τ, -, rfl⟩ := hd.append hrun (lineTraced_of_computes hinst)
  exact ⟨hd', hgrows, h _ _ τ (Lasts.mono hgrows.func hp) hmem rfl⟩

/-- One piece of code for each number below another. -/
theorem foldl_range [Lasts P] {step : α → Nat → Emit α} {I : Nat → α → Func → Prop} {n : Nat}
    (hstep : ∀ i x, i < n → Puts D k (fun f => P f ∧ I i x f) (step x i) (I (i + 1))) {x : α} :
    Puts D k (fun f => P f ∧ I 0 x f) ((List.range n).foldlM step x) (I n) := by
  induction n with
  | zero => exact .pure fun _ h => h.2
  | succ n ih =>
    rw [List.range_succ, List.foldlM_append]
    have hfirst := ih fun i x hi => hstep i x (Nat.lt_succ_of_lt hi)
    intro d c d'' hd hp hrun
    obtain ⟨a, d₁, hact, hrest⟩ := Emit.bind_cases hrun
    obtain ⟨hd₁, hgrows₁, hq⟩ := hfirst d a d₁ hd hp hact
    rw [List.foldlM_cons] at hrest
    obtain ⟨b, d₂, hlast, hpure⟩ := Emit.bind_cases hrest
    cases hpure
    obtain ⟨hd₂, hgrows₂, hr⟩ := hstep n a (Nat.lt_succ_self n) d₁ c d'' hd₁
      ⟨Lasts.mono hgrows₁.func hp.1, hq⟩ hlast
    exact ⟨hd₂, hgrows₁.trans hgrows₂, hr⟩

/-- A value that is changed for each element of a list. -/
theorem foldl [Lasts P] {step : β → α → Emit β} {I : β → Func → Prop} : ∀ {l : List α},
    (∀ x, ∀ a ∈ l, Puts D k (fun f => P f ∧ I x f) (step x a) I) → ∀ {x : β},
      Puts D k (fun f => P f ∧ I x f) (l.foldlM step x) I
  | [], _, _ => .pure fun _ h => h.2
  | a :: l, hstep, x => by
    rw [List.foldlM_cons]
    intro d c d'' hd hp hrun
    obtain ⟨b, d₁, hact, hrest⟩ := Emit.bind_cases hrun
    obtain ⟨hd₁, hgrows₁, hq⟩ := hstep x a List.mem_cons_self d b d₁ hd hp hact
    obtain ⟨hd₂, hgrows₂, hr⟩ := foldl (fun x a ha => hstep x a (.tail _ ha)) d₁ c d'' hd₁
      ⟨Lasts.mono hgrows₁.func hp.1, hq⟩ hrest
    exact ⟨hd₂, hgrows₁.trans hgrows₂, hr⟩

/-- One value for each element of a list. -/
theorem map [Lasts P] {step : α → Emit β} {I : β → Func → Prop} [∀ x, Lasts (I x)] :
    ∀ {l : List α}, (∀ a ∈ l, Puts D k P (step a) I) →
      Puts D k P (l.mapM step) fun xs f => ∀ x ∈ xs, I x f
  | [], _ => by
    rw [List.mapM_nil]
    exact .pure fun _ _ => List.forall_mem_nil _
  | a :: l, hstep => by
    rw [List.mapM_cons]
    refine .bind (hstep a List.mem_cons_self) fun x => ?_
    refine .bind ((map fun a ha => hstep a (.tail _ ha)).weaken (fun _ h => h.1) fun _ _ h => h)
      fun xs => ?_
    exact .pure fun _ h => List.forall_mem_cons.2 ⟨h.1.2, h.2⟩

end Puts

theorem Traces.puts {act : Emit α} {Q : α → Func → Prop} (h : Puts D k P act Q) :
    Traces D k P (Lowering.emit act) Q := .emit h

end

/-! ## Conversions -/

section

variable {E : Setting} {k : Ledger} {P : Func → Prop} {x y v : Value} {t src dst : DataType}

/-- A type of truth values is that of a number or a vector. -/
theorem boolean_cases (h : t.isBoolean = true) : t = .bool ∨ ∃ n, t = .vector .bool n := by
  cases t with
  | void => cases h
  | scalar s => cases s <;> first | exact .inl rfl | cases h
  | vector s n => cases s <;> first | exact .inr ⟨n, rfl⟩ | cases h
  | matrix n => cases h

variable [Lasts P]

/-- Every number becomes a truth value by a comparison with zero. -/
theorem puts_convertLanes {s : ScalarType} :
    Puts (.truths E) k P (Emit.convertLanes x src dst s .bool) fun v f => Truth E k f .all v := by
  unfold Emit.convertLanes
  dsimp only
  split <;> exact .bind (.compute (.append rfl)) fun c =>
    .append rfl fun f line τ _ hline hinst => .result hline hinst .bits (List.forall_mem_nil _) τ

/-- A truth value in every component. -/
theorem puts_splat {n : Dim} (hx : ∀ f, P f → Truth E k f .all x) :
    Puts (.truths E) k P (Emit.splat (.vector .bool n) x) fun v f => Truth E k f .all v := by
  have hfill : Puts (.truths E) k (fun f => P f ∧ Truth E k f (.first 0 n) _)
      (Emit.splat (.vector .bool n) x) fun v f => Truth E k f (.first n.size n) v :=
    .foldl_range (I := fun i v f => Truth E k f (.first i n) v) fun i v hi =>
      .append rfl fun f line τ h hline hinst => .next hi h.2 (hx f h.1) hline hinst τ
  exact hfill.weaken (fun f hp => ⟨hp, .undef n⟩) fun _ _ h => .full h

/-- What is converted to a type of truth values is one. -/
theorem puts_convert (hdst : dst.isBoolean = true)
    (hx : ∀ f, P f → src.isBoolean = true → Truth E k f .all x) :
    Puts (.truths E) k P (Emit.convert x src dst) fun v f => Truth E k f .all v := by
  unfold Emit.convert
  split
  next hsame => exact .pure fun f hp => hx f hp (hsame ▸ hdst)
  obtain rfl | ⟨n, rfl⟩ := boolean_cases hdst
  · cases src with
    | void => exact .throw
    | scalar s => exact puts_convertLanes
    | vector s m => exact .bind (.compute (.append rfl)) fun _ => puts_convertLanes
    | matrix m => exact .throw
  · cases src with
    | void => exact .throw
    | scalar s => exact .bind puts_convertLanes fun v => puts_splat fun _ h => h.2
    | vector s m =>
      dsimp only
      split
      · exact puts_convertLanes
      · exact .throw
    | matrix m => exact .throw

end

/-! ## Operands -/

section

variable {E : Setting} {k : Ledger} {P : Func → Prop} {x : Operand} {t : DataType} {pos : Pos}
  [Lasts P]

theorem truths_valueOf (hx : ∀ f, P f → x.Traced (.truths E) k f) :
    Traces (.truths E) k P (valueOf x) fun v f =>
      x.type.isBoolean = true → Truth E k f .all v := by
  cases x with
  | nothing => exact .fail
  | value pos t v => exact .pure hx
  | place pos t addr name isConst =>
    refine .puts (.append rfl fun f line τ hp hline hinst ht => ?_)
    exact .load (hx f hp) ht hline hinst τ
  | lane pos s n addr idx name isConst =>
    refine .puts (.bind (Q := fun v f => s = .bool → Truth E k f .all v) (.append rfl ?_)
      fun v => .append rfl ?_)
    · rintro f line τ hp hline hinst rfl
      exact .load (hx f hp) rfl hline hinst τ
    · intro f line τ hp hline hinst ht
      obtain rfl : s = .bool := by cases s <;> first | rfl | cases ht
      exact .lane (hp.2 rfl) hline hinst τ

theorem truths_valueAs (hx : ∀ f, P f → x.Traced (.truths E) k f) :
    Traces (.truths E) k P (valueAs x t) fun v f => t.isBoolean = true → Truth E k f .all v := by
  refine .bind (truths_valueOf hx) fun v => ?_
  split
  next hsame => exact .pure fun f h => hsame ▸ h.2
  split
  · by_cases ht : t.isBoolean = true
    · exact (Traces.puts (puts_convert ht fun f h => h.2)).weaken (fun _ h => h) fun _ _ h _ => h
    · exact (Traces.compute .convert).weaken (fun _ h => h) fun _ _ _ h => absurd h ht
  · exact .fail

/-! ## Constructors -/

variable {xs : List Operand}

/-- The components of truth values. -/
theorem puts_scalars {v : Value} (hv : ∀ f, P f → t.isBoolean = true → Truth E k f .all v) :
    Puts (.truths E) k P (Pieces.scalars t v) fun cs f =>
      t.component?.getD .bool = .bool → ∀ c ∈ cs, Truth E k f .all c := by
  by_cases ht : t.isBoolean = true
  · obtain rfl | ⟨n, rfl⟩ := boolean_cases ht
    · exact .pure fun f hp _ => List.forall_mem_singleton.2 (hv f hp rfl)
    · refine Puts.weaken (P := P) (Puts.map fun i _ => ?_) (fun _ h => h) fun _ _ h _ => h
      exact .append rfl fun f line τ hp hline hinst => .lane (hv f hp rfl) hline hinst τ
  · cases t with
    | void => exact .pure fun _ _ _ => List.forall_mem_nil _
    | matrix n => exact (Puts.compute evaluates_scalars).weaken (fun _ h => h) fun _ _ _ => nofun
    | scalar s =>
      refine (Puts.compute evaluates_scalars).weaken (fun _ h => h) fun _ _ _ hs => absurd ?_ ht
      obtain rfl : s = .bool := hs
      rfl
    | vector s n =>
      refine (Puts.compute evaluates_scalars).weaken (fun _ h => h) fun _ _ _ hs => absurd ?_ ht
      obtain rfl : s = .bool := hs
      rfl

theorem puts_takeComponents {room : Nat} {src : ScalarType} {cs : List Value}
    (hcs : ∀ f, P f → src = .bool → ∀ c ∈ cs, Truth E k f .all c) :
    Puts (.truths E) k P (takeComponents room src .bool cs) fun ds f =>
      ∀ d ∈ ds, Truth E k f .all d := by
  refine .map fun c hc => puts_convert rfl fun f hp hsrc => ?_
  obtain rfl : src = .bool := by cases src <;> first | rfl | cases hsrc
  exact hcs f hp rfl c (List.mem_of_mem_take hc)

theorem truths_components : ∀ {xs : List Operand} {cs : List Value} {P : Func → Prop} [Lasts P],
    (∀ f, P f → ∀ x ∈ xs, x.Traced (.truths E) k f) →
    (∀ f, P f → ∀ c ∈ cs, Truth E k f .all c) →
      Traces (.truths E) k P (components t .bool cs xs) fun ds f => ∀ d ∈ ds, Truth E k f .all d
  | [], _, _, _, _, hcs => by
    unfold components
    exact .pure hcs
  | x :: xs, cs, P, _, hxs, hcs => by
    unfold components
    refine .check fun _ => ?_
    refine .bind (truths_valueOf fun f hp => hxs f hp x List.mem_cons_self) fun v => ?_
    refine .bind (Q := fun more f => ∀ d ∈ more, Truth E k f .all d) (.puts ?_) fun more => ?_
    · refine .bind (puts_scalars fun _ h => h.2) fun all => ?_
      exact puts_takeComponents fun _ h => h.2
    · refine truths_components (fun f h y hy => hxs f h.1.1 y (.tail _ hy)) fun f h => ?_
      exact List.forall_mem_append.2 ⟨hcs f h.1.1, h.2⟩

theorem truths_allComponents
    (hxs : ∀ f, P f → ∀ x ∈ xs, x.Traced (.truths E) k f) :
    Traces (.truths E) k P (allComponents pos t .bool xs) fun ds f =>
      ∀ d ∈ ds, Truth E k f .all d := by
  refine .bind (truths_components hxs fun _ _ => List.forall_mem_nil _) fun ds => ?_
  exact .check fun _ => .pure fun _ h => h.2

theorem puts_pack {n : Dim} {cs : List Value} (hcs : ∀ f, P f → ∀ c ∈ cs, Truth E k f .all c) :
    Puts (.truths E) k P (Pieces.pack .bool n cs) fun v f => Truth E k f .all v := by
  have hpack : Puts (.truths E) k (fun f => P f ∧ Truth E k f .all (.zero (.vector .bool n)))
      (Pieces.pack .bool n cs) fun v f => Truth E k f .all v := by
    refine .foldl (P := P) (I := fun v f => Truth E k f .all v) fun v c hc => ?_
    refine .append rfl fun f line τ h hline hinst => ?_
    exact .setLane h.2 (hcs f h.1 c.1 (List.fst_mem_of_mem_zipIdx hc)) hline hinst τ
  exact hpack.weaken (fun _ hp => ⟨hp, .zero rfl⟩) fun _ _ h => h

theorem truths_buildScalar (hx : ∀ f, P f → ∀ x ∈ xs, x.Traced (.truths E) k f) :
    Traces (.truths E) k P (buildScalar pos .bool xs) fun v f => Truth E k f .all v := by
  match xs, hx with
  | [], _ => exact .fail
  | [x], hx =>
    refine .bind (truths_valueOf fun f hp => hx f hp x List.mem_cons_self) fun v => ?_
    split
    · exact .puts (.bind (.compute (.append rfl)) fun c => puts_convert rfl nofun)
    · exact .puts (puts_convert rfl fun f h => h.2)
  | _ :: _ :: _, _ => exact .fail

theorem truths_buildVector {n : Dim} (hxs : ∀ f, P f → ∀ x ∈ xs, x.Traced (.truths E) k f) :
    Traces (.truths E) k P (buildVector pos .bool n xs) fun v f => Truth E k f .all v := by
  have hpacked : Traces (.truths E) k P (do
      let comps ← allComponents pos (.vector .bool n) .bool xs
      emit (Pieces.pack .bool n comps)) fun v f => Truth E k f .all v :=
    .bind (truths_allComponents hxs) fun cs => .puts (puts_pack fun _ h => h.2)
  unfold buildVector
  dsimp only
  split
  next x =>
    have hx : ∀ f, P f → x.Traced (.truths E) k f := fun f hp => hxs f hp x List.mem_cons_self
    split
    next htype => exact (truths_valueOf hx).weaken (fun _ h => h) fun _ _ h => h (htype ▸ rfl)
    · split
      · exact (truths_valueAs hx).weaken (fun _ h => h) fun _ _ h => h rfl
      · exact hpacked
  · exact hpacked

theorem truths_build (ht : t.isBoolean = true)
    (hxs : ∀ f, P f → ∀ x ∈ xs, x.Traced (.truths E) k f) :
    Traces (.truths E) k P (build pos t xs) fun v f => Truth E k f .all v := by
  unfold build
  dsimp only
  obtain rfl | ⟨n, rfl⟩ := boolean_cases ht
  · split
    · exact .bind (Q := fun _ _ => True) .fail fun _ =>
        (truths_buildScalar hxs).weaken (fun _ h => h.1) fun _ _ h => h
    · exact truths_buildScalar hxs
  · split
    · exact .bind (Q := fun _ _ => True) .fail fun _ =>
        (truths_buildVector hxs).weaken (fun _ h => h.1) fun _ _ h => h
    · exact truths_buildVector hxs

end

/-! ## Operators -/

section

variable {E : Setting} {k : Ledger} {P : Func → Prop} {x y : Operand} {t : DataType} {pos : Pos}

/-- Arithmetic does not work on truth values, -/
theorem isBoolean_of_promote? {l r : DataType} (h : l.promote? r = some t) :
    t.isBoolean = false := by
  have hwidest : ∀ s r : ScalarType, s.widest r ≠ .bool := by
    intro s r
    cases s <;> cases r <;> decide
  have hcomponent : t.component? ≠ some .bool := by
    cases l <;> cases r <;> simp only [DataType.promote?] at h
    all_goals first | contradiction | skip
    all_goals try split at h
    all_goals first | contradiction | (cases h; simp [DataType.component?, hwidest])
  simpa [DataType.isBoolean] using hcomponent

theorem gives_promotedArith {op : ArithOp} : Gives (promotedArith pos op x y) fun z =>
    z.IsValue ∧ z.type.isBoolean = false := by
  unfold promotedArith
  dsimp only
  split
  · exact .fail
  next t htype =>
    split
    · refine .behind fun _ => .behind fun _ => ?_
      split
      · exact .behind fun _ => .pure ⟨trivial, rfl⟩
      · exact .behind fun _ => .pure ⟨trivial, isBoolean_of_promote? htype⟩
    · exact .fail

/-- so its results are none. -/
theorem gives_arith_number {op : ArithOp} : Gives (arith pos op x y) fun z =>
    z.IsValue ∧ z.type.isBoolean = false := by
  unfold arith
  refine .check fun _ => ?_
  split
  · split
    · exact .behind fun _ => .behind fun _ => .behind fun _ => .pure ⟨trivial, rfl⟩
    · exact gives_promotedArith
  · split
    · exact .behind fun _ => .behind fun _ => .behind fun _ => .pure ⟨trivial, rfl⟩
    · exact gives_promotedArith
  · split
    · exact .behind fun _ => .behind fun _ => .behind fun _ => .pure ⟨trivial, rfl⟩
    · exact gives_promotedArith
  · exact gives_promotedArith

theorem Operand.IsValue.truths {f : Func} (h : x.IsValue) (ht : x.type.isBoolean = false) :
    x.Traced (.truths E) k f := by
  cases x with
  | value pos t v => exact fun htrue => absurd (ht.symm.trans htrue) Bool.false_ne_true
  | _ => cases h

variable [Lasts P]

theorem truths_unary {op : UnaryOp} (hop : op = .neg → x.type.isBoolean = false)
    (hx : ∀ f, P f → x.Traced (.truths E) k f) :
    Traces (.truths E) k P (unary pos op x) fun y f => y.Traced (.truths E) k f := by
  unfold unary
  dsimp only
  split
  · exact .fail
  have hvalue := truths_valueOf hx
  cases op with
  | not =>
    dsimp only
    split
    · exact .fail
    · refine .bind hvalue fun v => ?_
      refine .bind (.compute (.bind .compare fun _ => .append rfl)) fun _ => ?_
      exact .pure fun _ _ => nofun
  | bitNot =>
    dsimp only
    split
    · exact .fail
    next hother =>
      refine .bind hvalue fun v => ?_
      refine .bind (.compute (.bind .const fun _ => .append rfl)) fun _ => ?_
      refine .pure fun _ _ ht => absurd ht ?_
      simp only [Bool.or_eq_true, not_or] at hother
      exact hother.2
  | neg =>
    -- a minus is not asked about truth values, since it stands before numbers only
    have ht := hop rfl
    refine .bind hvalue fun v => ?_
    split
    · refine .bind (.compute (evaluates_columnwise fun _ => .bind (.append rfl) fun _ => .neg))
        fun _ => .pure fun _ _ htrue => ?_
      exact absurd (ht.symm.trans htrue) Bool.false_ne_true
    · refine .bind (.compute .neg) fun _ => .pure fun _ _ htrue => ?_
      exact absurd (ht.symm.trans htrue) Bool.false_ne_true
  | plus => exact .bind hvalue fun v => .pure fun _ h => h.2
  | step => exact .bind hvalue fun v => .pure fun _ h => h.2

theorem truths_select {selPos : Pos} {sel : Swizzle} (hx : ∀ f, P f → x.Traced (.truths E) k f) :
    Traces (.truths E) k P (select pos selPos sel x) fun y f => y.Traced (.truths E) k f := by
  unfold select
  split
  next s n htype =>
    split
    · exact .fail
    split
    next p t addr name isConst =>
      obtain rfl : t = .vector s n := htype
      exact .pure fun f hp => hx f hp
    · refine .bind (truths_valueOf hx) fun v => .bind (Q := fun w f =>
        s = .bool → Truth E k f .all w) (.puts (.append rfl ?_)) fun w => .pure fun f h ht => ?_
      · rintro f line τ h hline hinst rfl
        exact .lane (h.2 (htype ▸ rfl)) hline hinst τ
      · obtain rfl : s = .bool := by cases s <;> first | rfl | cases ht
        exact h.2 rfl
  · exact .fail

end

section

variable {E : Setting} {k : Ledger} {incoming : List (Value × Label)}

instance : Lasts fun f => ∀ i ∈ incoming, Truth E k f .all i.1 :=
  ⟨fun hf h i hi => (h i hi).mono (.refl k) hf⟩

theorem puts_phi : Puts (.truths E) k (fun f => ∀ i ∈ incoming, Truth E k f .all i.1)
    (Emit.phi incoming) fun v f => Truth E k f .all v := by
  cases incoming with
  | nil => exact .throw
  | cons i incoming =>
    simp only [Emit.phi]
    exact .append rfl fun f line τ h hline hinst =>
      .result hline hinst .phi (List.forall_mem_map.2 h) τ

end

/-- Truth values are such wherever the minus sign is not put in front of them. -/
theorem fitness_truths (E : Setting) : Fitness (.truths E) where
  plain h ht := absurd ht (by simp [h])
  zero := .zero
  bool c _ := .bool c
  param hp hin := .param hp hin
  call hsig hline hinst ht := .result hline hinst (.call hsig ht) (List.forall_mem_nil _) _
  phi {k d d' t incoming v} hd hall hrun ht :=
    (puts_phi d v d' hd (fun i hi => hall i hi ht) hrun).2.2
  setLane {k d d₁ d' c s n addr v vec idx w} hd hroom hv hload hset ht := by
    obtain ⟨hd₁, hgrows₁, hmem₁, τ₁, -, rfl⟩ := hd.append hload trivial
    obtain ⟨-, hgrows₂, hmem₂, τ₂, -, rfl⟩ := hd₁.append hset trivial
    have hgrows := hgrows₁.trans hgrows₂
    have hk : k.Le k := .refl k
    exact .setLane (.load (hroom.mono hk hgrows.func) ht (hgrows₂.func.code hmem₁) rfl τ₁)
      ((hv ht).mono hk hgrows.func) hmem₂ rfl τ₂
  valueOf {k b b' x v} hb hx hrun :=
    ((truths_valueOf (P := fun f => x.Traced (.truths E) k f) fun _ h => h) b v b' hrun).2 trivial
      hb hx |>.2.2
  valueAs {k b b' x t v} hb hx hrun :=
    ((truths_valueAs (P := fun f => x.Traced (.truths E) k f) fun _ h => h) b v b' hrun).2 trivial
      hb hx |>.2.2
  build {k b b' pos t xs v} hb hxs hrun ht :=
    ((truths_build (P := fun f => ∀ x ∈ xs, x.Traced (.truths E) k f) ht fun _ h => h) b v b'
      hrun).2 trivial hb hxs |>.2.2
  arith _ _ _ hrun := (gives_arith_number _ _ _ hrun).1.truths (gives_arith_number _ _ _ hrun).2
  unary {k b b' pos op x y} hb hx hop hrun :=
    ((truths_unary (P := fun f => x.Traced (.truths E) k f) hop fun _ h => h) b y b' hrun).2 trivial
      hb hx |>.2.2
  select {k b b' pos selPos sel x y} hb hx hrun :=
    ((truths_select (P := fun f => x.Traced (.truths E) k f) fun _ h => h) b y b' hrun).2 trivial
      hb hx |>.2.2

section

variable {E : Setting} {D : Demand E} {k : Ledger} {notes : List (Name × DataType)}

theorem traced_among {d : Draft} : Traced (D.among notes) k d ↔ Traced D k d :=
  ⟨fun h => ⟨h.id, h.entry, h.point, h.below, h.line, h.term⟩,
    fun h => ⟨h.id, h.entry, h.point, h.below, h.line, h.term⟩⟩

theorem bodyTraced_among {b : Body} : BodyTraced (D.among notes) k b ↔ BodyTraced D k b :=
  ⟨fun h => ⟨traced_among.1 h.toTraced, h.scopes⟩, fun h => ⟨traced_among.2 h.toTraced, h.scopes⟩⟩

/-- Which notes are made does not matter for the values. -/
theorem Fitness.among (h : Fitness D) (notes : List (Name × DataType)) :
    Fitness (D.among notes) where
  plain := h.plain
  zero := h.zero
  bool := h.bool
  param := h.param
  call := h.call
  phi hd := h.phi (traced_among.1 hd)
  setLane hd := h.setLane (traced_among.1 hd)
  valueOf hb := h.valueOf (bodyTraced_among.1 hb)
  valueAs hb := h.valueAs (bodyTraced_among.1 hb)
  build hb := h.build (bodyTraced_among.1 hb)
  arith hb := h.arith (bodyTraced_among.1 hb)
  unary hb := h.unary (bodyTraced_among.1 hb)
  select hb := h.select (bodyTraced_among.1 hb)

end

end Shader.Lowering
