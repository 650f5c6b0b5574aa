import Shader.Proofs.Execution.Matrices

/-!
# Arithmetic in execution

What an arithmetic operator makes of two values is described without the code: both are brought to a
common type, and the operation is done number by number; a vector and a matrix are multiplied. The
code of an operator whose first operand is a number or a vector computes that.
-/

namespace Shader.Lowering

open Ir

variable {R : Type} {N : Arithmetic R}

/-- The sum of numbers, from left to right. -/
def sum? (N : Arithmetic R) : List (Number R) → Option (Number R)
  | [] => none
  | x :: xs => xs.foldlM (Opcode.fadd.apply N) x

/-- The products of a row with the columns of a matrix. -/
def timesMatrix? (N : Arithmetic R) : Datum R → Datum R → Option (Datum R)
  | .vector xs, .matrix cols =>
    (cols.mapM fun col =>
      ((xs.zip col).mapM fun p => Opcode.fmul.apply N p.1 p.2).bind (sum? N)).map .vector
  | _, _ => none

/-- The type and the value that an arithmetic operator makes of a number or a vector and another
operand. -/
def combined? (N : Arithmetic R) (op : ArithOp) (l r : DataType × Datum R) :
    Option (DataType × Datum R) :=
  match op, l.1, r.1 with
  | .mul, .vector _ _, .matrix n =>
    (timesMatrix? N (l.2.convert N l.1 (.vector .float n)) r.2).map (.vector .float n, ·)
  | op, t₁, t₂ => do
    let t ← t₁.promote? t₂
    let w ← (l.2.convert N t₁ t).zip? ((Emit.opcode op t).apply N) (r.2.convert N t₂ t)
    return (t, w)

/-! ## Products with a matrix -/

/-- The components of a vector of floating-point numbers. -/
theorem exists_reals {n : Dim} {w : Datum R} (hw : w.Fits (.vector .float n)) :
    ∃ f : Nat → R, w = .vector (reals n.size f) := by
  cases w <;> try exact hw.elim
  next xs =>
  obtain ⟨hlen, hxs⟩ := hw
  have hreal : ∀ i, i < n.size → ∃ x, xs[i]? = some (.real .single x) := by
    intro i hi
    have hi' : i < xs.length := hlen ▸ hi
    obtain ⟨x, hx⟩ := hxs xs[i] (List.getElem_mem hi')
    exact ⟨x, by rw [List.getElem?_eq_getElem hi', hx]; rfl⟩
  -- behind the last component, any number will do
  obtain ⟨x₀, -⟩ := hreal 0 n.size_pos
  have hall : ∀ i, ∃ x, i < n.size → xs[i]? = some (.real .single x) := fun i =>
    if hi : i < n.size then (hreal i hi).imp fun _ hx _ => hx else ⟨x₀, fun h => absurd h hi⟩
  choose f hf using hall
  refine ⟨f, congrArg Datum.vector (List.ext_getElem? fun i => ?_)⟩
  rcases Nat.lt_or_ge i n.size with hi | hi
  · rw [hf i hi]
    simp [reals, hi]
  · rw [List.getElem?_eq_none (hlen ▸ hi), List.getElem?_eq_none (by simpa using hi)]

/-- The columns of a matrix. -/
theorem exists_columns {n : Dim} {w : Datum R} (hw : w.Fits (.matrix n)) :
    ∃ M : Nat → Nat → R, w = .matrix (columns n.size M) := by
  cases w <;> try exact hw.elim
  next cols =>
  obtain ⟨hlen, hcols⟩ := hw
  have hcol : ∀ j, ∃ f : Nat → R, j < n.size → cols[j]? = some (reals n.size f) := by
    intro j
    have hfirst : cols.head (List.ne_nil_of_length_pos (hlen ▸ n.size_pos)) ∈ cols :=
      List.head_mem _
    obtain ⟨f₀, -⟩ := exists_reals (w := .vector (cols.head _)) (hcols _ hfirst)
    by_cases hj : j < n.size
    · have hj' : j < cols.length := hlen ▸ hj
      obtain ⟨f, hf⟩ := exists_reals (w := .vector cols[j]) (hcols _ (List.getElem_mem hj'))
      exact ⟨f, fun _ => by rw [List.getElem?_eq_getElem hj', Datum.vector.inj hf]⟩
    · exact ⟨f₀, fun h => absurd h hj⟩
  choose M hM using hcol
  refine ⟨M, congrArg Datum.matrix (List.ext_getElem? fun j => ?_)⟩
  rcases Nat.lt_or_ge j n.size with hj | hj
  · rw [hM j hj]
    simp [columns, hj]
  · rw [List.getElem?_eq_none (hlen ▸ hj), List.getElem?_eq_none (by simpa [columns] using hj)]

theorem sum?_reals {f : Nat → R} (k : Nat) :
    sum? N (reals (k + 1) f) = some (.real .single (N.total f k)) := by
  induction k with
  | zero => rfl
  | succ k ih =>
    have hsplit : reals (k + 1 + 1) f = reals (k + 1) f ++ [.real .single (f (k + 1))] := by
      simp [reals, List.range_succ]
    have hcons : reals (k + 1) f =
        .real .single (f 0) :: (List.range k).map fun i => .real .single (f (i + 1)) := by
      simp [reals, List.range_succ_eq_map]
    rw [hcons, sum?] at ih
    rw [hsplit, hcons, List.cons_append, sum?, List.foldlM_append, ih]
    rfl

theorem timesMatrix?_reals {n : Dim} {f : Nat → R} {M : Nat → Nat → R} :
    timesMatrix? N (.vector (reals n.size f)) (.matrix (columns n.size M)) = some (.vector
      (reals n.size fun j => N.total (fun i => N.mul .single (f i) (M j i)) (n.size - 1))) := by
  have hproducts : ∀ g : Nat → R, ((reals n.size f).zip (reals n.size g)).mapM
      (fun p => Opcode.fmul.apply N p.1 p.2) =
        some (reals n.size fun i => N.mul .single (f i) (g i)) := by
    intro g
    have h : (Datum.vector (reals n.size f)).zip? (Opcode.fmul.apply N) (.vector (reals n.size g)) =
        some (.vector (reals n.size fun i => N.mul .single (f i) (g i))) :=
      zip?_reals fun _ _ => rfl
    rw [Datum.zip?, if_pos (by simp)] at h
    obtain ⟨ys, hys, heq⟩ := Option.map_eq_some_iff.1 h
    rw [hys, Datum.vector.inj heq]
  rw [timesMatrix?, columns, List.mapM_map]
  refine congrArg (Option.map Datum.vector) (mapM_eq_some_map fun j _ => ?_)
  have hsum := sum?_reals (N := N) (f := fun i => N.mul .single (f i) (M j i)) (n.size - 1)
  rw [Pieces.pred_size_succ] at hsum
  simpa only [Function.comp_def, hproducts, Option.bind_some] using hsum

/-! ## Operations on numbers -/

section

variable {b : Body} {d : Draft} {v : View R} {pos : Pos} {op : ArithOp} {l r : Operand}
  {g₁ g₂ g : DataType × Datum R} {t : DataType} {s : ScalarType}

/-- An operation on numbers of a type yields a number of the type. -/
theorem fits_apply {code : Opcode} {x y z : Number R} (hx : x.Fits s) (hy : y.Fits s)
    (h : code.apply N x y = some z) : z.Fits s := by
  unfold Number.Fits at *
  split
  next hs =>
    rw [if_pos hs] at hx hy
    obtain ⟨p, rfl⟩ := hx
    obtain ⟨q, rfl⟩ := hy
    simp only [Opcode.apply, if_true] at h
    obtain ⟨u, -, rfl⟩ := Option.map_eq_some_iff.1 h
    exact ⟨u, rfl⟩
  next hs =>
    rw [if_neg hs] at hx hy
    obtain ⟨p, rfl⟩ := hx
    obtain ⟨q, rfl⟩ := hy
    obtain ⟨u, -, rfl⟩ := Option.map_eq_some_iff.1 h
    exact ⟨u, rfl⟩

theorem forall₂_of_mapM {α β : Type} {f : α → Option β} {xs : List α} {ys : List β}
    (h : xs.mapM f = some ys) : List.Forall₂ (fun x y => f x = some y) xs ys := by
  induction xs generalizing ys with
  | nil =>
    cases h
    exact .nil
  | cons x xs ih =>
    rw [List.mapM_cons] at h
    obtain ⟨y, hy, h⟩ := Option.bind_eq_some_iff.1 h
    obtain ⟨ys', hys, h⟩ := Option.bind_eq_some_iff.1 h
    cases h
    exact .cons hy (ih hys)

/-- And so does an operation on vectors. -/
theorem fits_zip? {code : Opcode} {x y z : Datum R} (ht : t.isFlat = true) (hx : x.Fits t)
    (hy : y.Fits t) (h : x.zip? (code.apply N) y = some z) : z.Fits t := by
  cases t with
  | void => cases ht
  | matrix n => cases ht
  | scalar s =>
    cases x <;> try exact hx.elim
    cases y <;> try exact hy.elim
    obtain ⟨u, hu, rfl⟩ := Option.map_eq_some_iff.1 h
    exact fits_apply hx hy hu
  | vector s n =>
    cases x <;> try exact hx.elim
    cases y <;> try exact hy.elim
    next xs ys =>
    simp only [Datum.zip?] at h
    split at h
    next hlen =>
      obtain ⟨us, hus, rfl⟩ := Option.map_eq_some_iff.1 h
      have hall := forall₂_of_mapM hus
      refine ⟨?_, fun u hu => ?_⟩
      · rw [← hall.length_eq, List.length_zip, ← hlen, Nat.min_self]
        exact hx.1
      · obtain ⟨i, hi, rfl⟩ := List.getElem_of_mem hu
        have hpair := hall.get (hall.length_eq ▸ hi) hi
        simp only [List.get_eq_getElem, List.getElem_zip] at hpair
        exact fits_apply (hx.2 _ (List.getElem_mem _)) (hy.2 _ (List.getElem_mem _)) hpair
    next => cases h

/-- Two operands that are brought to a common type. -/
theorem carries_promotedArith (hl : l.Is N b.draft v g₁) (hr : r.Is N b.draft v g₂)
    (ht : g₁.1.promote? g₂.1 = some t)
    (h : (g₁.2.convert N g₁.1 t).zip? ((Emit.opcode op t).apply N) (g₂.2.convert N g₂.1 t) =
      some g.2) (hg : g.1 = t) :
    Carries N (promotedArith pos op l r) b v fun z d' v' => z.Is N d' v' g := by
  have hpromote : l.type.promote? r.type = some t := by rw [hl.type, hr.type, ht]
  simp only [promotedArith, hpromote]
  split
  next hconv =>
    obtain ⟨hcl, hcr⟩ := Bool.and_eq_true_iff.1 hconv
    rw [hl.type] at hcl
    rw [hr.type] at hcr
    have hfl : (g₁.2.convert N g₁.1 t).Fits t := hl.fits.convert (.inl hcl)
    have hfr : (g₂.2.convert N g₂.1 t).Fits t := hr.fits.convert (.inl hcr)
    have hflat : t.isFlat = true := by
      cases t with
      | scalar s => rfl
      | vector s n => rfl
      | void => exact absurd rfl hfl.ne_void
      | matrix n =>
        generalize g₁.2.convert N g₁.1 (.matrix n) = w at h hfl
        cases w <;> first | exact hfl.elim | cases h
    refine .bind (carries_valueAs hl.reads (hl.type ▸ hl.fits)) fun lv b₁ v₁ hev₁ hlv => ?_
    refine .bind (carries_valueAs (hr.reads.evolves hev₁) (hr.type ▸ hr.fits))
      fun rv b₂ v₂ hev₂ hrv => ?_
    rw [hl.type] at hlv
    rw [hr.type] at hrv
    have hbinary : Carries N (emit (Emit.binary op t lv rv)) b₂ v₂ fun z d' v' =>
        Known N d' v' z g.2 := .emit (Emit.computes_opcode (hev₂.known hlv) hrv h)
    have hend : Carries N (do return Operand.value pos t (← emit (Emit.binary op t lv rv))) b₂ v₂
        fun z d' v' => z.Is N d' v' g :=
      .bind hbinary fun z b₃ v₃ _ hz => .pure ⟨hg.symm, hz, hg ▸ fits_zip? hflat hfl hfr h⟩
    cases t with
    | matrix n => cases hflat
    | _ => exact hend
  next => exact .fail

/-- The product of a vector and a matrix. -/
theorem carries_mulRows {n m : Dim} {s : ScalarType} {x y : Datum R}
    (hl : l.Is N b.draft v (.vector s m, x)) (hr : r.Is N b.draft v (.matrix n, y))
    (h : timesMatrix? N (x.convert N (.vector s m) (.vector .float n)) y = some g.2)
    (hg : g.1 = .vector .float n) :
    Carries N (arith pos .mul l r) b v fun z d' v' => z.Is N d' v' g := by
  obtain ⟨t, w⟩ := g
  obtain rfl : t = .vector .float n := hg
  by_cases hmn : m = n
  · subst hmn
    rw [arith_vector_matrix hl.type hr.type]
    refine .bind (carries_valueAs hl.reads (hl.type ▸ hl.fits)) fun lv b₁ v₁ hev₁ hlv => ?_
    refine .bind (carries_valueAs (hr.reads.evolves hev₁) (hr.type ▸ hr.fits))
      fun rv b₂ v₂ hev₂ hrv => ?_
    rw [hl.type] at hlv
    rw [hr.type, Datum.convert_self] at hrv
    have hfl : (x.convert N (.vector s m) (.vector .float m)).Fits (.vector .float m) :=
      Datum.Fits.convert (.inl (by simp [DataType.convertible])) hl.fits
    obtain ⟨f, hf⟩ := exists_reals hfl
    obtain ⟨M, rfl⟩ := exists_columns hr.fits
    rw [hf] at h hlv
    rw [timesMatrix?_reals] at h
    obtain rfl := Option.some.inj h
    exact .bind (.emit (Pieces.computes_mulRows (hev₂.known hlv) hrv)) fun z b₃ v₃ _ hz =>
      .pure ⟨rfl, hz, fits_reals⟩
  · have hfail : arith pos .mul l r = fail pos (.mismatch .mul l.type r.type) := by
      simp [arith, hl.type, hr.type, hmn, promotedArith, DataType.promote?, DataType.convertible,
        DataType.isNumeric, ArithOp.isIntegral]
    rw [hfail]
    exact .fail

/-- Every other operation on a number or a vector brings its operands to a common type. -/
theorem carries_arith_of_promotedArith {Q : Operand → Draft → View R → Prop}
    (hflat : l.type.isFlat = true)
    (hother : ∀ s m n, op = .mul → l.type = .vector s m → r.type ≠ .matrix n)
    (h : Carries N (promotedArith pos op l r) b v Q) : Carries N (arith pos op l r) b v Q := by
  unfold arith
  refine .check fun _ => ?_
  dsimp only
  split
  next hl _ _ => simp [hl, DataType.isFlat] at hflat
  next hl _ _ => simp [hl, DataType.isFlat] at hflat
  next hl hr _ => exact absurd hr (hother _ _ _ rfl hl)
  next => exact h

/-- The code of an arithmetic operator, if its first operand is a number or a vector. -/
theorem carries_arith (hl : l.Is N b.draft v g₁) (hr : r.Is N b.draft v g₂)
    (hflat : g₁.1.isFlat = true) (h : combined? N op g₁ g₂ = some g) :
    Carries N (arith pos op l r) b v fun z d' v' => z.Is N d' v' g := by
  obtain ⟨t₁, x⟩ := g₁
  obtain ⟨t₂, y⟩ := g₂
  unfold combined? at h
  split at h
  next h₁ h₂ =>
    obtain rfl : t₁ = _ := h₁
    obtain rfl : t₂ = _ := h₂
    obtain ⟨w, hw, rfl⟩ := Option.map_eq_some_iff.1 h
    exact carries_mulRows hl hr hw rfl
  next hother =>
    obtain ⟨t, ht, h⟩ := Option.bind_eq_some_iff.1 h
    obtain ⟨w, hw, h⟩ := Option.bind_eq_some_iff.1 h
    cases h
    refine carries_arith_of_promotedArith (hl.type ▸ hflat) (fun s m n hop hv hm => ?_)
      (carries_promotedArith hl hr ht hw rfl)
    exact hother s m n hop (hl.type.symm.trans hv) (hr.type.symm.trans hm)

end

end Shader.Lowering
