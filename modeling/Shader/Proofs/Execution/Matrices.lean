import Mathlib.LinearAlgebra.Matrix.Notation
import Shader.Proofs.Execution.Construction

/-!
# Matrix arithmetic in execution

The products of matrices and vectors are written as sums over lanes and columns, in the order of the
components. For any arithmetic, `Arithmetic.total` is such a sum. Where addition and multiplication
are those of a commutative ring, the sums are those of linear algebra: a matrix is stored column by
column, and what the code computes for `*`, `+`, `-` is the product, the sum and the difference of
matrices.
-/

namespace Shader.Ir

variable {R : Type}

/-! ## Vectors of floating-point numbers -/

/-- The components of a vector in single precision. -/
def reals (n : Nat) (f : Nat → R) : List (Number R) :=
  (List.range n).map fun i => .real .single (f i)

@[simp] theorem length_reals {n : Nat} {f : Nat → R} : (reals n f).length = n := by simp [reals]

/-- A component of a vector of reals. -/
theorem lane?_reals {n i : Nat} {f : Nat → R} (hi : i < n) :
    (Datum.vector (reals n f)).lane? i = some (.number (.real .single (f i))) := by
  simp [Datum.lane?, reals, hi]

/-- The columns of a matrix; the first argument of an entry is its column. -/
def columns (n : Nat) (M : Nat → Nat → R) : List (List (Number R)) :=
  (List.range n).map fun j => reals n (M j)

/-- A column of a matrix of reals. -/
theorem column?_columns {n j : Nat} {M : Nat → Nat → R} (hj : j < n) :
    (Datum.matrix (columns n M)).column? j = some (.vector (reals n (M j))) := by
  simp [Datum.column?, columns, hj]

theorem fits_real {x : R} : (Datum.number (.real .single x)).Fits .float := ⟨x, rfl⟩

theorem fits_reals {n : Dim} {f : Nat → R} :
    (Datum.vector (reals n.size f)).Fits (.vector .float n) := by
  refine ⟨length_reals, fun x hx => ?_⟩
  obtain ⟨i, -, rfl⟩ := List.mem_map.1 hx
  exact ⟨f i, rfl⟩

theorem replicate_reals {n : Nat} {x : R} :
    List.replicate n (.real .single x) = reals n fun _ => x := by
  simp [reals, List.map_const']

/-- An operation on two vectors is one on their components. -/
theorem zip?_reals {N : Arithmetic R} {op : Opcode} {n : Nat} {f g h : Nat → R}
    (hop : ∀ i < n, op.onReals N .single (f i) (g i) = some (h i)) :
    (Datum.vector (reals n f)).zip? (op.apply N) (.vector (reals n g)) =
      some (.vector (reals n h)) := by
  have hzip : (reals n f).zip (reals n g) =
      (List.range n).map fun i => (Number.real .single (f i), Number.real .single (g i)) :=
    List.ext_getElem (by simp) fun i h₁ h₂ => by simp [reals]
  rw [Datum.zip?, if_pos (by simp), hzip, List.mapM_map]
  exact congrArg (Option.map Datum.vector) (mapM_eq_some_map fun i hi => by
    simp [Opcode.apply, hop i (List.mem_range.1 hi)])

theorem map?_neg_reals {N : Arithmetic R} {n : Nat} {f : Nat → R} :
    (Datum.vector (reals n f)).map? (Number.negated N) =
      some (.vector (reals n fun i => N.neg .single (f i))) := by
  rw [Datum.map?, reals, List.mapM_map]
  exact congrArg (Option.map Datum.vector) (mapM_eq_some_map fun i _ => rfl)

/-- The sum of some numbers and one more, from left to right. -/
def Arithmetic.total (N : Arithmetic R) (f : Nat → R) : Nat → R
  | 0 => f 0
  | k + 1 => N.add .single (total N f k) (f (k + 1))

/-! ## Matrices over a ring -/

section

variable {m : Nat}

/-- A vector as it is stored. -/
def Datum.ofVector (u : Fin m → R) : Datum R :=
  .vector (List.ofFn fun i => .real .single (u i))

/-- A matrix as it is stored, column by column. -/
def Datum.ofMatrix (A : Matrix (Fin m) (Fin m) R) : Datum R :=
  .matrix (List.ofFn fun j => List.ofFn fun r => .real .single (A r j))

theorem ofVector_eq_reals {u : Fin m → R} {f : Nat → R} (h : ∀ i : Fin m, f i = u i) :
    Datum.ofVector u = .vector (reals m f) := by
  obtain rfl : u = fun i : Fin m => f i := funext fun i => (h i).symm
  refine congrArg Datum.vector (List.ext_getElem (by simp) fun i _ _ => ?_)
  simp [reals]

theorem ofMatrix_eq_columns {A : Matrix (Fin m) (Fin m) R} {M : Nat → Nat → R}
    (h : ∀ r j : Fin m, M j r = A r j) : Datum.ofMatrix A = .matrix (columns m M) := by
  refine congrArg Datum.matrix (List.ext_getElem (by simp [columns]) fun j hj _ => ?_)
  have hcol := ofVector_eq_reals (f := M j) fun r : Fin m => h r ⟨j, by simpa using hj⟩
  simpa [columns, Datum.ofVector] using hcol

theorem fits_ofVector {n : Dim} {u : Fin n.size → R} :
    (Datum.ofVector u).Fits (.vector .float n) := by
  refine ⟨List.length_ofFn, fun x hx => ?_⟩
  obtain ⟨i, rfl⟩ := List.mem_ofFn.1 hx
  exact ⟨u i, rfl⟩

theorem fits_ofMatrix {n : Dim} {A : Matrix (Fin n.size) (Fin n.size) R} :
    (Datum.ofMatrix A).Fits (.matrix n) := by
  refine ⟨List.length_ofFn, fun col hcol => ?_⟩
  obtain ⟨j, rfl⟩ := List.mem_ofFn.1 hcol
  exact fits_ofVector (u := fun r => A r j)

variable [CommRing R]

/-- The arithmetic in which sums, differences, products and opposites are those of a ring. -/
def Arithmetic.inRing (N : Arithmetic R) : Arithmetic R :=
  { N with
    add := fun _ x y => x + y
    sub := fun _ x y => x - y
    mul := fun _ x y => x * y
    neg := fun _ x => -x }

/-- Sums from left to right are sums in a ring. -/
theorem Arithmetic.total_inRing {N : Arithmetic R} {f : Nat → R} (hm : 0 < m) :
    N.inRing.total f (m - 1) = ∑ i : Fin m, f i := by
  obtain ⟨k, rfl⟩ := Nat.exists_eq_succ_of_ne_zero hm.ne'
  rw [Fin.sum_univ_eq_sum_range, Nat.succ_sub_one]
  induction k with
  | zero => simp [total]
  | succ k ih =>
    rw [Finset.sum_range_succ, ← ih (Nat.succ_pos k)]
    rfl

/-- The components of a vector by their numbers. -/
theorem exists_components (u : Fin m → R) : ∃ f : Nat → R, ∀ i : Fin m, f i = u i :=
  ⟨fun i => if h : i < m then u ⟨i, h⟩ else 0, fun i => by simp⟩

/-- The entries of a matrix by the numbers of their columns and rows. -/
theorem exists_entries (A : Matrix (Fin m) (Fin m) R) :
    ∃ M : Nat → Nat → R, ∀ r j : Fin m, M j r = A r j :=
  ⟨fun j r => if h : r < m ∧ j < m then A ⟨r, h.1⟩ ⟨j, h.2⟩ else 0, fun r j => by simp⟩

end

end Shader.Ir

namespace Shader.Lowering.Pieces

open Ir

variable {R : Type} {N : Arithmetic R} {d : Draft} {v : View R} {n : Dim}

/-! ## Products for any arithmetic -/

/-- The loops over components start with the first one and add the others. -/
theorem pred_size_succ (n : Dim) : n.size - 1 + 1 = n.size := Nat.succ_pred_eq_of_pos n.size_pos

theorem lane_lt {i : Nat} (hi : i < n.size - 1) : i + 1 < n.size := by omega

theorem index_lane {i : Nat} (hi : i < n.size) : v.index N (.index i) = some i :=
  View.index_index (Nat.lt_of_lt_of_le hi n.size_le)

/-- Multiplication and addition of vectors. -/
theorem computes_floating {op : ArithOp} {n : Nat} {x y : Value} {t : DataType} {f g h : Nat → R}
    (hop : ∀ i < n, (Emit.opcode op t).onReals N .single (f i) (g i) = some (h i))
    (hx : Known N d v x (.vector (reals n f))) (hy : Known N d v y (.vector (reals n g))) :
    Emit.Computes N (Emit.binary op t x y) d v fun z d' v' =>
      Known N d' v' z (.vector (reals n h)) :=
  Emit.computes_opcode hx hy (zip?_reals hop)

/-- The code for a matrix times a vector adds up multiples of the columns. -/
theorem computes_mulColumns {x y : Value} {M : Nat → Nat → R} {f : Nat → R}
    (hx : Known N d v x (.matrix (columns n.size M)))
    (hy : Known N d v y (.vector (reals n.size f))) :
    Emit.Computes N (mulColumns n x y) d v fun z d' v' => Known N d' v' z (.vector
      (reals n.size fun r => N.total (fun j => N.mul .single (M j r) (f j)) (n.size - 1))) := by
  -- one scaled column
  have hterm : ∀ j < n.size, ∀ d' v', Evolves N d v d' v' → Emit.Computes N (do
      let s ← Emit.convert (← Emit.lane y (.index j)) .float (.vector .float n)
      Emit.binary .mul (.vector .float n) (← Emit.column x j) s) d' v' fun z d'' v'' =>
        Known N d'' v'' z (.vector (reals n.size fun r => N.mul .single (M j r) (f j))) := by
    intro j hj d₁ v₁ hev₁
    refine .bind (Emit.computes_lane (hev₁.known hy) (index_lane hj)
      (lane?_reals hj)) fun c d₂ v₂ hev₂ hc => ?_
    refine .bind (Emit.computes_convert .float (.vector .float n) fits_real hc)
      fun s d₃ v₃ hev₃ hs => ?_
    have hs' : Known N d₃ v₃ s (.vector (reals n.size fun _ => f j)) := by
      rw [← replicate_reals]
      exact hs
    refine .bind (Emit.computes_column (hev₃.known (hev₂.known (hev₁.known hx)))
      (column?_columns hj)) fun col d₄ v₄ hev₄ hcol => ?_
    exact computes_floating (fun _ _ => rfl) hcol (hev₄.known hs')
  refine .bind (hterm 0 n.size_pos d v (.refl d v)) fun first d₁ v₁ hev₁ hfirst => ?_
  exact Emit.Computes.foldlM_range (I := fun k z d' v' => Known N d' v' z (.vector
    (reals n.size fun r => N.total (fun j => N.mul .single (M j r) (f j)) k))) hfirst
    fun k hk acc d' v' hev hacc => .bind (hterm (k + 1) (lane_lt hk) d' v' (hev₁.trans hev))
      fun z d'' v'' hev' hz => computes_floating (fun _ _ => rfl) (hev'.known hacc) hz

/-- The components of a vector are added up from the first one on. -/
theorem computes_sumLanes {x : Value} {f : Nat → R}
    (hx : Known N d v x (.vector (reals n.size f))) :
    Emit.Computes N (sumLanes n x) d v fun z d' v' =>
      Known N d' v' z (.number (.real .single (N.total f (n.size - 1)))) := by
  have hlane : ∀ j < n.size, ∀ d' v', Evolves N d v d' v' → Emit.Computes N
      (Emit.lane x (.index j)) d' v' fun z d'' v'' =>
        Known N d'' v'' z (.number (.real .single (f j))) := fun j hj d' v' hev =>
    Emit.computes_lane (hev.known hx) (index_lane hj) (lane?_reals hj)
  refine .bind (hlane 0 n.size_pos d v (.refl d v)) fun first d₁ v₁ hev₁ hfirst => ?_
  exact Emit.Computes.foldlM_range (I := fun k z d' v' =>
    Known N d' v' z (.number (.real .single (N.total f k)))) hfirst
    fun k hk acc d' v' hev hacc => .bind (hlane (k + 1) (lane_lt hk) d' v' (hev₁.trans hev))
      fun z d'' v'' hev' hz => Emit.computes_opcode (hev'.known hacc) hz rfl

/-- The code for a vector times a matrix adds up products with each column. -/
theorem computes_mulRows {x y : Value} {M : Nat → Nat → R} {f : Nat → R}
    (hx : Known N d v x (.vector (reals n.size f)))
    (hy : Known N d v y (.matrix (columns n.size M))) :
    Emit.Computes N (mulRows n x y) d v fun z d' v' => Known N d' v' z (.vector
      (reals n.size fun j => N.total (fun i => N.mul .single (f i) (M j i)) (n.size - 1))) := by
  refine (Emit.Computes.foldlM_range (I := fun k z d' v' => Known N d' v' z (.vector
    (filled n.size (.zero N .float) (fun j => .real .single
      (N.total (fun i => N.mul .single (f i) (M j i)) (n.size - 1))) k))) ?_ ?_).weaken
      fun z d' v' _ hz => by rwa [filled_self] at hz
  · rw [filled_zero]
    exact known_zeroVector
  · intro j hj out d₁ v₁ hev₁ hout
    refine .bind (Emit.computes_column (hev₁.known hy)
      (column?_columns hj)) fun col d₂ v₂ hev₂ hcol => ?_
    refine .bind (computes_floating (fun _ _ => rfl) (hev₂.known (hev₁.known hx)) hcol)
      fun p d₃ v₃ hev₃ hp => ?_
    refine .bind (computes_sumLanes hp) fun dot d₄ v₄ hev₄ hdot => ?_
    refine Emit.computes_setLane (hev₄.known (hev₃.known (hev₂.known hout))) hdot (index_lane hj) ?_
    simp [Datum.setLane?, hj, ← set_filled]

/-- The code for a product of matrices computes one column after another. -/
theorem computes_mulMatrices {x y : Value} {A B : Nat → Nat → R}
    (hx : Known N d v x (.matrix (columns n.size A)))
    (hy : Known N d v y (.matrix (columns n.size B))) :
    Emit.Computes N (mulMatrices n x y) d v fun z d' v' => Known N d' v' z (.matrix
      (columns n.size fun j r => N.total (fun k => N.mul .single (A k r) (B j k)) (n.size - 1))) :=
  computes_columnwise fun _ hj _ _ hev =>
    .bind (Emit.computes_column (hev.known hy) (column?_columns hj)) fun _ _ _ hev' hcol =>
      computes_mulColumns (hev'.known (hev.known hx)) hcol

/-- An operation on two matrices, column by column. -/
theorem computes_columns {op : ArithOp} {x y : Value} {A B C : Nat → Nat → R}
    (hC : ∀ j < n.size, ∀ r < n.size,
      (Emit.opcode op (.vector .float n)).onReals N .single (A j r) (B j r) = some (C j r))
    (hx : Known N d v x (.matrix (columns n.size A)))
    (hy : Known N d v y (.matrix (columns n.size B))) :
    Emit.Computes N (columnwise n fun i => do
      let c ← Emit.column x i
      Emit.binary op (.vector .float n) c (← Emit.column y i)) d v fun z d' v' =>
        Known N d' v' z (.matrix (columns n.size C)) :=
  computes_columnwise fun j hj _ _ hev =>
    .bind (Emit.computes_column (hev.known hx) (column?_columns hj)) fun _ _ _ hev' hc =>
      .bind (Emit.computes_column (hev'.known (hev.known hy)) (column?_columns hj))
        fun _ _ _ hev'' hd => computes_floating (hC j hj) (hev''.known hc) hd

/-- The code for the negative of a matrix negates one column after another. -/
theorem computes_negColumns {x : Value} {A : Nat → Nat → R}
    (hx : Known N d v x (.matrix (columns n.size A))) :
    Emit.Computes N (columnwise n fun i => do
      Emit.neg (.vector .float n) (← Emit.column x i)) d v fun z d' v' =>
        Known N d' v' z (.matrix (columns n.size fun j r => N.neg .single (A j r))) :=
  computes_columnwise fun _ hj _ _ hev =>
    .bind (Emit.computes_column (hev.known hx) (column?_columns hj)) fun _ _ _ _ hc =>
      Emit.computes_fneg hc map?_neg_reals

end Shader.Lowering.Pieces

namespace Shader.Lowering

open Ir

variable {R : Type} {N : Arithmetic R} {O : Outside} {ρ : Realm} {x : Walk} {v : View R}
  {pos : Pos} {n : Dim} {a l r : Operand} {t : DataType}

/-! ## Operators -/

/-- A walk that does not fail, and of whose result something is known. -/
def Unfailing {α : Type} (act : Lower α) (P : α → Prop) : Prop :=
  ∀ b r b', act.run b = .ok (r, b') → ∃ a, r = .ok a ∧ P a

namespace Unfailing

variable {α β : Type} {P : α → Prop} {Q : β → Prop} {act : Lower α} {f : α → Lower β}

theorem pure {a : α} (h : P a) : Unfailing (Pure.pure a) P := by
  intro _ _ _ hrun
  cases hrun
  exact ⟨a, rfl, h⟩

theorem emit {act : Emit α} : Unfailing (Lowering.emit act) fun _ => True := by
  intro _ _ _ hrun
  obtain ⟨a, -, -, rfl, -⟩ := emit_cases hrun
  exact ⟨a, rfl, trivial⟩

theorem bind (h : Unfailing act P) (hf : ∀ a, P a → Unfailing (f a) Q) :
    Unfailing (act >>= f) Q := by
  intro _ _ _ hrun
  obtain ⟨e, hact, -⟩ | ⟨a, b₁, hact, hrest⟩ := bind_cases hrun
  · obtain ⟨a, ha, -⟩ := h _ _ _ hact
    cases ha
  · obtain ⟨a', ha, hP⟩ := h _ _ _ hact
    cases ha
    exact hf a hP _ _ _ hrest

theorem insteadOf {pos : Pos} {cause : Cause} (h : Unfailing act P) :
    Unfailing (Lowering.insteadOf act pos cause) P := by
  intro _ _ _ hrun
  obtain ⟨e, hact, -⟩ | ⟨a, hact, rfl⟩ := insteadOf_cases hrun
  · obtain ⟨a, ha, -⟩ := h _ _ _ hact
    cases ha
  · obtain ⟨a', ha, hP⟩ := h _ _ _ hact
    cases ha
    exact ⟨a, rfl, hP⟩

theorem valueOf (ha : a.type ≠ .void) : Unfailing (Lowering.valueOf a) fun _ => True := by
  cases a with
  | nothing pos => exact absurd rfl ha
  | value pos t y => exact .pure trivial
  | place pos t addr name isConst => exact .emit
  | lane pos s n addr idx name isConst => exact .emit

/-- Operands that can be converted are converted without failing. -/
theorem valueAs (ha : a.type ≠ .void) (h : a.type = t ∨ a.type.convertible t = true) :
    Unfailing (Lowering.valueAs a t) fun _ => True := by
  refine .bind (.valueOf ha) fun y _ => ?_
  split
  next => exact .pure trivial
  next hne =>
    rw [if_pos (h.resolve_left hne)]
    exact .emit

end Unfailing

/-- An operand that can be used, and whose value is known. -/
structure Operand.Holds (O : Outside) (N : Arithmetic R) (x : Walk) (v : View R) (a : Operand)
    (g : DataType × Datum R) : Prop where
  /-- it can be used -/
  sound : a.Sound O x.site
  /-- its value -/
  given : a.Is N x.body.draft v g

/-- An operand still holds its value where the code has gone on. -/
theorem Operand.Holds.later {x' : Walk} {v' : View R} {g : DataType × Datum R}
    (h : a.Holds O N x v g) (hlead : x.Leads O ρ x')
    (hev : Evolves N x.body.draft v x'.body.draft v') : a.Holds O N x' v' g :=
  ⟨h.sound.mono hlead.site, h.given.type, h.given.reads.evolves hev, h.given.fits⟩

/-- A walk over an operation succeeds, and its code computes a value. -/
def Operates (O : Outside) (ρ : Realm) (N : Arithmetic R) (act : Lower Operand) (x : Walk)
    (v : View R) (g : DataType × Datum R) : Prop :=
  ∃ z x' v', act.run x.body = .ok (.ok z, x'.body) ∧ x.Leads O ρ x' ∧
    Evolves N x.body.draft v x'.body.draft v' ∧ z.Holds O N x' v' g

/-- An operation is described by its types, by what it fails for and by what its code computes. -/
theorem Operates.of {act : Lower Operand} {g : DataType × Datum R} {P : Operand → Prop}
    (hx : x.site.Ready ρ) (hlowers : Lowers O ρ act x fun z x' => z.Sound O x'.site)
    (hsafe : Unfailing act P) (hcode : Carries N act x.body v fun z d' v' => z.Is N d' v' g) :
    Operates O ρ N act x v g := by
  obtain ⟨r, x', hrun, -, hend⟩ := hlowers hx hx.toSane
  obtain ⟨z, rfl, -⟩ := hsafe _ _ _ hrun
  obtain ⟨v', hev, hz⟩ := hcode z x'.body hrun
  exact ⟨z, x', v', hrun, hend.1, hev, hend.2, hz⟩

/-- One operation behind the other. -/
theorem Operates.bind {act : Lower Operand} {f : Operand → Lower Operand}
    {g g' : DataType × Datum R} (h : Operates O ρ N act x v g)
    (hf : ∀ z x' v', x.Leads O ρ x' → Evolves N x.body.draft v x'.body.draft v' →
      z.Holds O N x' v' g → Operates O ρ N (f z) x' v' g') : Operates O ρ N (act >>= f) x v g' := by
  obtain ⟨z, x', v', hrun, hlead, hev, hz⟩ := h
  obtain ⟨z', x'', v'', hrun', hlead', hev', hz'⟩ := hf z x' v' hlead hev hz
  refine ⟨z', x'', v'', ?_, hlead.trans hlead', hev.trans hev', hz'⟩
  change Except.bind (act.run x.body) _ = _
  rw [hrun]
  exact hrun'

/-! ### Two operands -/

theorem valueAs_self : valueAs a a.type = valueOf a := by
  unfold valueAs
  simp

/-- An operation on two operands that can be converted does not fail. -/
theorem unfailing_operation {t₁ t₂ : DataType} {code : Value → Value → Emit Value}
    (hl : l.type ≠ .void) (hr : r.type ≠ .void) (h₁ : l.type = t₁ ∨ l.type.convertible t₁ = true)
    (h₂ : r.type = t₂ ∨ r.type.convertible t₂ = true) :
    Unfailing (do
      let lv ← valueAs l t₁
      let rv ← valueAs r t₂
      return .value pos t (← emit (code lv rv))) fun z : Operand => z.type = t :=
  .bind (.valueAs hl h₁) fun _ _ => .bind (.valueAs hr h₂) fun _ _ => .bind .emit fun _ _ =>
    .pure rfl

/-- What an operator computes whose operands are converted and whose code leaves memory alone, if
its result is of the type that the expression has. -/
theorem Operates.arithExpr {op : ArithOp} {t₁ t₂ : DataType} {g₁ g₂ : DataType × Datum R}
    {w : Datum R} {code : Value → Value → Emit Value} (hx : x.site.Ready ρ)
    (hl : l.Holds O N x v g₁) (hr : r.Holds O N x v g₂)
    (harith : arith pos op l r = do
      let lv ← valueAs l t₁
      let rv ← valueAs r t₂
      return .value pos t (← emit (code lv rv)))
    (ht : op.resultType l.type r.type = t) (h₁ : l.type = t₁ ∨ l.type.convertible t₁ = true)
    (h₂ : r.type = t₂ ∨ r.type.convertible t₂ = true) (hw : w.Fits t)
    (hcode : ∀ lv rv d' v', Known N d' v' lv (g₁.2.convert N l.type t₁) →
      Known N d' v' rv (g₂.2.convert N r.type t₂) →
      Emit.Computes N (code lv rv) d' v' fun z d'' v'' => Known N d'' v'' z w) :
    Operates O ρ N (Lowering.arithExpr pos op l r) x v (t, w) := by
  have hlfits : g₁.2.Fits l.type := hl.given.type ▸ hl.given.fits
  have hrfits : g₂.2.Fits r.type := hr.given.type ▸ hr.given.fits
  refine .of hx (Lowers.arithExpr hl.sound hr.sound) (P := fun _ => True) ?_ ?_
  · simp only [Lowering.arithExpr, harith, ht]
    refine .bind (unfailing_operation hlfits.ne_void hrfits.ne_void h₁ h₂) fun z hz => ?_
    exact .bind (.insteadOf (.valueAs (hz ▸ hw.ne_void) (.inl hz))) fun _ _ => .pure trivial
  · simp only [Lowering.arithExpr, harith, ht]
    have hoperation : Carries N (do
        let lv ← valueAs l t₁
        let rv ← valueAs r t₂
        return Operand.value pos t (← emit (code lv rv))) x.body v
        fun z d' v' => z.Is N d' v' (t, w) :=
      .bind (carries_valueAs hl.given.reads hlfits) fun lv b₁ v₁ hev₁ hlv =>
        .bind (carries_valueAs (hr.given.reads.evolves hev₁) hrfits) fun rv b₂ v₂ hev₂ hrv =>
          .bind (.emit (hcode lv rv _ _ (hev₂.known hlv) hrv)) fun z b₃ v₃ _ hz =>
            .pure ⟨rfl, hz, hw⟩
    refine .bind hoperation fun z b' v' _ hz => ?_
    have hvalue := carries_valueAs (t := t) hz.reads (hz.type ▸ hz.fits)
    refine .bind (.insteadOf hvalue) fun y b'' v'' _ hy => ?_
    rw [hz.type, Datum.convert_self] at hy
    exact .pure ⟨rfl, hy, hw⟩

/-- Which form of multiplication is used for two matrices. -/
theorem arith_matrix_matrix (hl : l.type = .matrix n) (hr : r.type = .matrix n) :
    arith pos .mul l r = (do
      let lv ← valueAs l (.matrix n)
      let rv ← valueAs r (.matrix n)
      return .value pos (.matrix n) (← emit (Pieces.mulMatrices n lv rv))) := by
  rw [← hl, valueAs_self, hl, ← hr, valueAs_self, hr]
  simp [arith, hl, hr, DataType.isNumeric, ArithOp.isIntegral]

/-- Which form is used for a matrix and a vector. -/
theorem arith_matrix_vector {s : ScalarType} (hl : l.type = .matrix n) (hr : r.type = .vector s n) :
    arith pos .mul l r = (do
      let lv ← valueAs l (.matrix n)
      let rv ← valueAs r (.vector .float n)
      return .value pos (.vector .float n) (← emit (Pieces.mulColumns n lv rv))) := by
  rw [← hl, valueAs_self]
  simp [arith, hl, hr, DataType.isNumeric, ArithOp.isIntegral]

/-- Which form is used for a vector and a matrix. -/
theorem arith_vector_matrix {s : ScalarType} (hl : l.type = .vector s n) (hr : r.type = .matrix n) :
    arith pos .mul l r = (do
      let lv ← valueAs l (.vector .float n)
      let rv ← valueAs r (.matrix n)
      return .value pos (.vector .float n) (← emit (Pieces.mulRows n lv rv))) := by
  rw [← hr, valueAs_self]
  simp [arith, hl, hr, DataType.isNumeric, ArithOp.isIntegral]

/-- Only products with a matrix are not formed component by component. -/
theorem arith_promoted {op : ArithOp} (hl : l.type.isNumeric = true) (hr : r.type.isNumeric = true)
    (hint : op.isIntegral = false)
    (hmul : op ≠ .mul ∨ l.type.isScalar = true ∨ r.type.isScalar = true) :
    arith pos op l r = promotedArith pos op l r := by
  simp only [arith, hl, hr, hint, Bool.not_true, Bool.false_and, Bool.or_false, Bool.false_eq_true,
    if_false]
  split
  next _ _ _ h₁ h₂ => simp [h₁, h₂, DataType.isScalar] at hmul
  next _ _ _ _ h₁ h₂ => simp [h₁, h₂, DataType.isScalar] at hmul
  next _ _ _ _ h₁ h₂ => simp [h₁, h₂, DataType.isScalar] at hmul
  next => rfl

/-- An operation that goes column by column. -/
def columnsOp (op : ArithOp) (n : Dim) (x y : Value) : Emit Value :=
  Pieces.columnwise n fun i => do
    let c ← Emit.column x i
    Emit.binary op (.vector .float n) c (← Emit.column y i)

/-- Two operands that are brought to a matrix. -/
theorem promotedArith_matrix {op : ArithOp} (hpromote : l.type.promote? r.type = some (.matrix n))
    (hl : l.type.convertible (.matrix n) = true) (hr : r.type.convertible (.matrix n) = true) :
    promotedArith pos op l r = (do
      let lv ← valueAs l (.matrix n)
      let rv ← valueAs r (.matrix n)
      return .value pos (.matrix n) (← emit (columnsOp op n lv rv))) := by
  simp [promotedArith, hpromote, hl, hr, columnsOp]

/-! ## Linear algebra -/

section

variable {R : Type} [CommRing R] {N : Arithmetic R} {v : View R} {a b u f : Operand}
  {A B : Matrix (Fin n.size) (Fin n.size) R} {w : Fin n.size → R} {c : R} {op : ArithOp}

/-- The type and the value of a vector over a ring. -/
def vectorOf (n : Dim) (w : Fin n.size → R) : DataType × Datum R := (.vector .float n, .ofVector w)

/-- The type and the value of a matrix over a ring. -/
def matrixOf (n : Dim) (A : Matrix (Fin n.size) (Fin n.size) R) : DataType × Datum R :=
  (.matrix n, .ofMatrix A)

/-- The type and the value of an element of a ring. -/
def numberOf (c : R) : DataType × Datum R := (.float, .number (.real .single c))

/-- A number is converted to a matrix that has it in all entries. -/
theorem convert_number_matrix :
    (numberOf c).2.convert N.inRing .float (.matrix n) =
      .ofMatrix (.of fun _ _ : Fin n.size => c) := by
  rw [ofMatrix_eq_columns (M := fun _ _ => c) (A := .of fun _ _ => c) fun _ _ => rfl, columns,
    ← replicate_reals, List.map_const', List.length_range]
  rfl

/-- The product of a matrix and a vector. -/
theorem operates_matrix_vector (hx : x.site.Ready ρ) (ha : a.Holds O N.inRing x v (matrixOf n A))
    (hu : u.Holds O N.inRing x v (vectorOf n w)) :
    Operates O ρ N.inRing (arithExpr pos .mul a u) x v (vectorOf n (A.mulVec w)) := by
  have hta : a.type = .matrix n := ha.given.type
  have htu : u.type = .vector .float n := hu.given.type
  obtain ⟨M, hM⟩ := exists_entries A
  obtain ⟨g, hg⟩ := exists_components w
  refine Operates.arithExpr hx ha hu (arith_matrix_vector hta htu) (by rw [hta, htu]; rfl)
    (.inl hta) (.inl htu) fits_ofVector fun lv rv d' v' hlv hrv => ?_
  rw [hta, Datum.convert_self, matrixOf, ofMatrix_eq_columns hM] at hlv
  rw [htu, Datum.convert_self, vectorOf, ofVector_eq_reals hg] at hrv
  rw [ofVector_eq_reals fun r => ?_]
  · exact Pieces.computes_mulColumns hlv hrv
  · rw [Arithmetic.total_inRing n.size_pos, Matrix.mulVec, dotProduct]
    exact Finset.sum_congr rfl fun j _ => by rw [← hM, ← hg]; rfl

/-- The product of a vector and a matrix. -/
theorem operates_vector_matrix (hx : x.site.Ready ρ) (ha : a.Holds O N.inRing x v (matrixOf n A))
    (hu : u.Holds O N.inRing x v (vectorOf n w)) :
    Operates O ρ N.inRing (arithExpr pos .mul u a) x v (vectorOf n (Matrix.vecMul w A)) := by
  have hta : a.type = .matrix n := ha.given.type
  have htu : u.type = .vector .float n := hu.given.type
  obtain ⟨M, hM⟩ := exists_entries A
  obtain ⟨g, hg⟩ := exists_components w
  refine Operates.arithExpr hx hu ha (arith_vector_matrix htu hta) (by rw [hta, htu]; rfl)
    (.inl htu) (.inl hta) fits_ofVector fun lv rv d' v' hlv hrv => ?_
  rw [htu, Datum.convert_self, vectorOf, ofVector_eq_reals hg] at hlv
  rw [hta, Datum.convert_self, matrixOf, ofMatrix_eq_columns hM] at hrv
  rw [ofVector_eq_reals fun r => ?_]
  · exact Pieces.computes_mulRows hlv hrv
  · rw [Arithmetic.total_inRing n.size_pos, Matrix.vecMul, dotProduct]
    exact Finset.sum_congr rfl fun j _ => by rw [← hM, ← hg]; rfl

/-- The product of two matrices. -/
theorem operates_matrix_matrix (hx : x.site.Ready ρ) (ha : a.Holds O N.inRing x v (matrixOf n A))
    (hb : b.Holds O N.inRing x v (matrixOf n B)) :
    Operates O ρ N.inRing (arithExpr pos .mul a b) x v (matrixOf n (A * B)) := by
  have hta : a.type = .matrix n := ha.given.type
  have htb : b.type = .matrix n := hb.given.type
  obtain ⟨M, hM⟩ := exists_entries A
  obtain ⟨K, hK⟩ := exists_entries B
  refine Operates.arithExpr hx ha hb (arith_matrix_matrix hta htb) (by rw [hta, htb]; rfl)
    (.inl hta) (.inl htb) fits_ofMatrix fun lv rv d' v' hlv hrv => ?_
  rw [hta, Datum.convert_self, matrixOf, ofMatrix_eq_columns hM] at hlv
  rw [htb, Datum.convert_self, matrixOf, ofMatrix_eq_columns hK] at hrv
  rw [ofMatrix_eq_columns fun r j => ?_]
  · exact Pieces.computes_mulMatrices hlv hrv
  · rw [Arithmetic.total_inRing n.size_pos, Matrix.mul_apply]
    exact Finset.sum_congr rfl fun k _ => by rw [← hM, ← hK]; rfl

/-- An operation that is done component by component, on matrices or numbers. -/
theorem operates_componentwise {g₁ g₂ : DataType × Datum R}
    {C : Matrix (Fin n.size) (Fin n.size) R} (hx : x.site.Ready ρ)
    (hl : l.Holds O N.inRing x v g₁) (hr : r.Holds O N.inRing x v g₂)
    (hint : op.isIntegral = false)
    (hmul : op ≠ .mul ∨ g₁.1.isScalar = true ∨ g₂.1.isScalar = true)
    (hpromote : g₁.1.promote? g₂.1 = some (.matrix n))
    (ht : op.resultType g₁.1 g₂.1 = .matrix n)
    (h₁ : g₁.1.convertible (.matrix n) = true) (h₂ : g₂.1.convertible (.matrix n) = true)
    (hA : g₁.2.convert N.inRing g₁.1 (.matrix n) = .ofMatrix A)
    (hB : g₂.2.convert N.inRing g₂.1 (.matrix n) = .ofMatrix B)
    (hC : ∀ i j, (Emit.opcode op (.vector .float n)).onReals N.inRing .single (A i j) (B i j) =
      some (C i j)) :
    Operates O ρ N.inRing (arithExpr pos op l r) x v (matrixOf n C) := by
  rw [← hl.given.type] at hmul hpromote ht h₁ hA
  rw [← hr.given.type] at hmul hpromote ht h₂ hB
  have hnumeric := DataType.isNumeric_of_convertible h₁
  have harith : arith pos op _ _ = _ :=
    arith_promoted hnumeric (DataType.isNumeric_of_convertible h₂) hint hmul
  obtain ⟨M, hM⟩ := exists_entries A
  obtain ⟨K, hK⟩ := exists_entries B
  obtain ⟨L, hL⟩ := exists_entries C
  refine Operates.arithExpr hx hl hr (harith.trans (promotedArith_matrix hpromote h₁ h₂)) ht
    (.inr h₁) (.inr h₂) fits_ofMatrix fun lv rv d' v' hlv hrv => ?_
  rw [hA, ofMatrix_eq_columns hM] at hlv
  rw [hB, ofMatrix_eq_columns hK] at hrv
  rw [ofMatrix_eq_columns hL]
  refine Pieces.computes_columns (fun j hj i hi => ?_) hlv hrv
  rw [hM ⟨i, hi⟩ ⟨j, hj⟩, hK ⟨i, hi⟩ ⟨j, hj⟩, hL ⟨i, hi⟩ ⟨j, hj⟩, hC]

/-- The negative of a matrix. -/
theorem operates_neg_matrix (hx : x.site.Ready ρ) (ha : a.Holds O N.inRing x v (matrixOf n A)) :
    Operates O ρ N.inRing (unary pos .neg a) x v (matrixOf n (-A)) := by
  have hta : a.type = .matrix n := ha.given.type
  have hunary : unary pos .neg a = do
      let y ← valueOf a
      return .value pos (.matrix n) (← emit (Pieces.columnwise n fun i => do
        Emit.neg (.vector .float n) (← Emit.column y i))) := by
    simp [unary, hta, DataType.isNumeric]
  obtain ⟨M, hM⟩ := exists_entries A
  refine Operates.of hx (lowers_unary ha.sound) (P := fun _ => True) ?_ ?_
  · rw [hunary]
    exact .bind (.valueOf (by rw [hta]; simp)) fun _ _ => .bind .emit fun _ _ => .pure trivial
  · rw [hunary]
    refine .bind (carries_valueOf ha.given.reads) fun y b' v' _ hy => ?_
    rw [matrixOf, ofMatrix_eq_columns hM] at hy
    refine .bind (.emit (Pieces.computes_negColumns hy)) fun z b'' v'' _ hz =>
      .pure ⟨rfl, ?_, fits_ofMatrix⟩
    rw [matrixOf, ofMatrix_eq_columns fun r j => ?_]
    · exact hz
    · rw [Matrix.neg_apply, ← hM]
      rfl

/-- The operators on matrices are those of linear algebra, if the operations on numbers are those of
a commutative ring. A number takes part in a sum or a difference with every component. -/
theorem matrix_arithmetic (N : Arithmetic R) (hx : x.site.Ready ρ)
    (ha : a.Holds O N.inRing x v (matrixOf n A)) (hb : b.Holds O N.inRing x v (matrixOf n B))
    (hu : u.Holds O N.inRing x v (vectorOf n w)) (hf : f.Holds O N.inRing x v (numberOf c))
    (pos pos' : Pos) :
    Operates O ρ N.inRing (arithExpr pos .mul a u) x v (vectorOf n (A.mulVec w)) ∧
    Operates O ρ N.inRing (arithExpr pos .mul u a) x v (vectorOf n (Matrix.vecMul w A)) ∧
    Operates O ρ N.inRing (arithExpr pos .mul a b) x v (matrixOf n (A * B)) ∧
    Operates O ρ N.inRing (do arithExpr pos' .mul (← arithExpr pos .mul a b) u) x v
      (vectorOf n (A.mulVec (B.mulVec w))) ∧
    Operates O ρ N.inRing (do arithExpr pos' .mul a (← arithExpr pos .mul b u)) x v
      (vectorOf n (A.mulVec (B.mulVec w))) ∧
    Operates O ρ N.inRing (arithExpr pos .mul a f) x v (matrixOf n (c • A)) ∧
    Operates O ρ N.inRing (arithExpr pos .mul f a) x v (matrixOf n (c • A)) ∧
    Operates O ρ N.inRing (arithExpr pos .add a b) x v (matrixOf n (A + B)) ∧
    Operates O ρ N.inRing (arithExpr pos .sub a b) x v (matrixOf n (A - B)) ∧
    Operates O ρ N.inRing (arithExpr pos .add a f) x v (matrixOf n (A + .of fun _ _ => c)) ∧
    Operates O ρ N.inRing (arithExpr pos .add f a) x v (matrixOf n ((.of fun _ _ => c) + A)) ∧
    Operates O ρ N.inRing (arithExpr pos .sub a f) x v (matrixOf n (A - .of fun _ _ => c)) ∧
    Operates O ρ N.inRing (arithExpr pos .sub f a) x v (matrixOf n ((.of fun _ _ => c) - A)) ∧
    Operates O ρ N.inRing (unary pos .neg a) x v (matrixOf n (-A)) := by
  have hconvert : DataType.convertible (.matrix n) (.matrix n) = true := by
    simp [DataType.convertible]
  have hpromote : DataType.promote? (.matrix n) (.matrix n) = some (.matrix n) := if_pos rfl
  have hta : a.type = .matrix n := ha.given.type
  have htb : b.type = .matrix n := hb.given.type
  have htf : f.type = .float := hf.given.type
  have hself := Datum.convert_self (N := N.inRing) (t := .matrix n) (w := .ofMatrix A)
  have hself' := Datum.convert_self (N := N.inRing) (t := .matrix n) (w := .ofMatrix B)
  have hnumber := convert_number_matrix (N := N) (n := n) (c := c)
  -- products have laws of their own; all the rest works component by component
  refine ⟨operates_matrix_vector hx ha hu, operates_vector_matrix hx ha hu,
    operates_matrix_matrix hx ha hb, ?_, ?_, ?_, ?_, ?_, ?_, ?_, ?_, ?_, ?_,
    operates_neg_matrix hx ha⟩
  · rw [Matrix.mulVec_mulVec]
    exact (operates_matrix_matrix hx ha hb).bind fun z x' v' hlead hev hz =>
      operates_matrix_vector hlead.site.ready hz (hu.later hlead hev)
  · exact (operates_matrix_vector hx hb hu).bind fun z x' v' hlead hev hz =>
      operates_matrix_vector hlead.site.ready (ha.later hlead hev) hz
  · refine operates_componentwise hx ha hf rfl (.inr (.inr rfl)) rfl rfl hconvert rfl hself hnumber
      fun i j => congrArg some (mul_comm _ _)
  · exact operates_componentwise hx hf ha rfl (.inr (.inl rfl)) rfl rfl rfl hconvert hnumber hself
      fun _ _ => rfl
  · exact operates_componentwise hx ha hb rfl (.inl (by decide)) hpromote rfl hconvert hconvert
      hself hself' fun _ _ => rfl
  · exact operates_componentwise hx ha hb rfl (.inl (by decide)) hpromote rfl hconvert hconvert
      hself hself' fun _ _ => rfl
  · exact operates_componentwise hx ha hf rfl (.inl (by decide)) rfl rfl hconvert rfl hself hnumber
      fun _ _ => rfl
  · exact operates_componentwise hx hf ha rfl (.inl (by decide)) rfl rfl rfl hconvert hnumber hself
      fun _ _ => rfl
  · exact operates_componentwise hx ha hf rfl (.inl (by decide)) rfl rfl hconvert rfl hself hnumber
      fun _ _ => rfl
  · exact operates_componentwise hx hf ha rfl (.inl (by decide)) rfl rfl rfl hconvert hnumber hself
      fun _ _ => rfl

/-- The parameters of a function of two matrices, a vector and a number. -/
def matricesParams : List (String × DataType) :=
  [("a", .matrix .two), ("b", .matrix .two), ("u", .vector .float .two), ("c", .float)]

/-- The function. -/
def matricesFunc : Func where
  id := ⟨"f", 0⟩
  result := .void
  params := matricesParams.map fun p => ⟨p.1, Ty.ofData p.2⟩

/-- A walk at its start. -/
def matricesWalk : Walk := ⟨{ draft := startDraft {} matricesFunc, scopes := .empty }, fun _ => ∅⟩

/-- It is called with these arguments. -/
def matricesView : View Int :=
  { View.blank Int with args := [.ofMatrix !![1, 2; 3, 4], .ofMatrix !![0, 1; 5, 6],
      .ofVector ![1, 2], .number (.real .single 7)] }

/-- A parameter as an operand. -/
def matricesOperand (i : Nat) (p : String × DataType) : Operand :=
  .value {} p.2 (.param ⟨"f", 0⟩ i p.1 (Ty.ofData p.2))

theorem holds_matricesOperand {i : Nat} {p : String × DataType} {w : Datum Int}
    (hp : matricesParams[i]? = some p) (ht : p.2 ≠ .void) (hw : matricesView.args[i]? = some w)
    (hfits : w.Fits p.2) :
    (matricesOperand i p).Holds ⟨[], fun _ => none⟩ Arithmetic.whole.inRing matricesWalk
      matricesView (p.2, w) := by
  have hopened := Func.Declared.start (f := matricesFunc) ⟨rfl, rfl, rfl, rfl, rfl⟩
  refine ⟨⟨ht, rfl, ⟨hopened.id.symm, ?_⟩, nofun⟩, rfl, ⟨hw, nofun⟩, hfits⟩
  refine (congrArg (·[i]?) hopened.params).trans ?_
  simp [matricesFunc, hp]

/-- A matrix of two rows, times a vector. -/
theorem product_of_matrix_and_vector : ∃ z x' v',
    (arithExpr {} .mul (matricesOperand 0 ("a", .matrix .two))
      (matricesOperand 2 ("u", .vector .float .two))).run matricesWalk.body =
        .ok (.ok z, Walk.body x') ∧
    Evolves Arithmetic.whole.inRing matricesWalk.body.draft matricesView x'.body.draft v' ∧
    z.Is Arithmetic.whole.inRing x'.body.draft v'
      (.vector .float .two, .vector [.real .single 5, .real .single 11]) := by
  have hready : matricesWalk.site.Ready .all :=
    (Func.Declared.start (f := matricesFunc) ⟨rfl, rfl, rfl, rfl, rfl⟩).ready rfl rfl
  obtain ⟨⟨z, x', v', hrun, -, hev, hz⟩, -⟩ := matrix_arithmetic (n := .two) .whole hready
    (holds_matricesOperand (i := 0) rfl nofun rfl fits_ofMatrix)
    (holds_matricesOperand (i := 1) rfl nofun rfl fits_ofMatrix)
    (holds_matricesOperand (i := 2) rfl nofun rfl fits_ofVector)
    (holds_matricesOperand (i := 3) rfl nofun rfl fits_real) {} {}
  refine ⟨z, x', v', hrun, hev, ?_⟩
  have hvector : vectorOf .two (Matrix.mulVec !![1, 2; 3, 4] ![1, 2]) =
      (.vector .float .two, .vector [.real .single (5 : Int), .real .single 11]) := by
    decide
  exact hvector ▸ hz.given

end

end Shader.Lowering
