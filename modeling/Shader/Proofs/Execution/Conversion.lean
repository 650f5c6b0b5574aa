import Shader.Proofs.Execution.Code
import Shader.Proofs.Lowering.Emission

/-!
# Conversion in execution

What a value of a type of the shader is in execution, and what becomes of it when it is converted: a
number that is converted to a truth value is one unless it is zero, a number that becomes a vector
or a matrix stands in all of its components, and a vector is converted component by component.
-/

namespace Shader

/-- The format of floating-point numbers of a type. -/
def ScalarType.precision : ScalarType → Ir.Precision
  | .double => .double
  | _ => .single

namespace Dim

theorem size_le (n : Dim) : n.size ≤ 4 := by cases n <;> decide

theorem size_pos (n : Dim) : 0 < n.size := by cases n <;> decide

end Dim

end Shader

namespace Shader.Ir

/-! ## Lists that are filled -/

/-- A list of which the first elements have been given a value, one after the other. -/
def filled {α : Type} (n : Nat) (u : α) (f : Nat → α) (i : Nat) : List α :=
  (List.range n).map fun j => if j < i then f j else u

section Filled

variable {α : Type} {n i : Nat} {u : α} {f : Nat → α}

@[simp] theorem length_filled : (filled n u f i).length = n := by simp [filled]

/-- At the start nothing has been filled in. -/
theorem filled_zero : filled n u f 0 = List.replicate n u := by
  simp [filled, List.map_const']

/-- In the end everything has been filled in. -/
theorem filled_self : filled n u f n = (List.range n).map f :=
  List.map_congr_left fun j hj => by simp [List.mem_range.1 hj]

/-- One step fills in the next component. -/
theorem set_filled : (filled n u f i).set i (f i) = filled n u f (i + 1) := by
  refine List.ext_getElem (by simp) fun j h₁ h₂ => ?_
  rw [List.getElem_set]
  have hj : j < n := by simpa using h₂
  simp only [filled, List.getElem_map, List.getElem_range]
  split
  · subst i
    simp
  · have : j < i + 1 ↔ j < i := by omega
    simp [this]

end Filled

section

variable {R : Type}

/-! ## Data of a type -/

namespace Number

/-- The number is one of a type. -/
def Fits (s : ScalarType) (x : Number R) : Prop :=
  if s.isFloating then ∃ y, x = real s.precision y else ∃ w, x = word w

/-- The zero of a type. -/
def zero (N : Arithmetic R) (s : ScalarType) : Number R :=
  if s.isFloating then real s.precision (N.constant s.precision .zero) else word 0

/-- Whether a number is not zero, as a bit. -/
def truth (N : Arithmetic R) : Number R → Number R
  | word w => bit (w != 0)
  | real p x => bit (N.holds .une x (N.constant p .zero))
  | x => x

/-- A bit as a word. -/
def widen : Number R → Number R
  | bit b => word (wordOf b)
  | x => x

/-- A number of one type as a number of another. A truth value is one for every number but zero. -/
def convert (N : Arithmetic R) (s r : ScalarType) : Number R → Number R
  | word w =>
    if r = .bool then word (wordOf (w != 0))
    else if r.isFloating then
      real r.precision ((if s.isUnsigned then N.ofNat else N.ofInt) r.precision w)
    else word w
  | real p x =>
    if r = .bool then word (wordOf (N.holds .une x (N.constant p .zero)))
    else if r.isFloating then
      if s = r then real p x
      else if s = .float then real .double (N.extend x) else real .single (N.truncate x)
    else word ((if r.isUnsigned then N.toNat else N.toInt) p x)
  | x => x

end Number

namespace Datum

/-- The numbers that a value is made of, those of a matrix column by column. -/
def numbers : Datum R → List (Number R)
  | number x => [x]
  | vector xs => xs
  | matrix cols => cols.flatten
  | address _ => []

/-- The value is one of a type. -/
def Fits : DataType → Datum R → Prop
  | .scalar s, number x => x.Fits s
  | .vector s n, vector xs => xs.length = n.size ∧ ∀ x ∈ xs, x.Fits s
  | .matrix n, matrix cols =>
    cols.length = n.size ∧ ∀ col ∈ cols, col.length = n.size ∧ ∀ x ∈ col, x.Fits .float
  | _, _ => False

/-- Numbers and vectors. -/
def IsFlat : Datum R → Prop
  | number _ | vector _ => True
  | _ => False

/-- Every number of a value changed. -/
def map (f : Number R → Number R) : Datum R → Datum R
  | number x => number (f x)
  | vector xs => vector (xs.map f)
  | matrix cols => matrix (cols.map fun col => col.map f)
  | address a => address a

/-- The value of a type with one number in all components. -/
def spread (t : DataType) (x : Number R) : Datum R :=
  match t with
  | .vector _ n => vector (List.replicate n.size x)
  | .matrix n => matrix (List.replicate n.size (List.replicate n.size x))
  | _ => number x

/-- The zero of a type. -/
def zero (N : Arithmetic R) (t : DataType) : Datum R :=
  spread t (Number.zero N (t.component?.getD .int))

/-- A value of one type as a value of another: a number in all components, a vector component by
component, and the first component of a vector. -/
def convert (N : Arithmetic R) (src dst : DataType) (w : Datum R) : Datum R :=
  if src = dst then w
  else
    match src, dst, w with
    | .scalar s, dst, number x => spread dst (x.convert N s (dst.component?.getD .int))
    | .vector s _, .scalar r, vector xs => number ((xs.headD .undefined).convert N s r)
    | .vector s _, dst, vector xs => vector (xs.map (Number.convert N s (dst.component?.getD .int)))
    | _, _, w => w

end Datum

variable {N : Arithmetic R} {s r : ScalarType} {t : DataType} {x : Number R} {w : Datum R}
  {f g : Number R → Number R}

/-- Between equal types nothing is converted. -/
theorem Datum.convert_self : w.convert N t t = w := by
  unfold convert
  exact if_pos rfl

theorem Number.fits_zero : (Number.zero N s).Fits s := by
  unfold Fits zero
  split <;> exact ⟨_, rfl⟩

/-- A converted number is one of the type that it is converted to. -/
theorem Number.Fits.convert (hx : x.Fits s) : (x.convert N s r).Fits r := by
  cases s <;> obtain ⟨y, rfl⟩ := hx <;> cases r <;>
    simp [Number.convert, Number.Fits, ScalarType.isFloating, ScalarType.precision]

namespace Datum

/-- A number in all components is a value of the type. -/
theorem Fits.spread (ht : t ≠ .void) (hx : x.Fits (t.component?.getD .int)) :
    (Datum.spread t x).Fits t := by
  cases t with
  | void => exact absurd rfl ht
  | scalar s => exact hx
  | vector s n =>
    refine ⟨List.length_replicate, fun y hy => ?_⟩
    rw [List.eq_of_mem_replicate hy]
    exact hx
  | matrix n =>
    refine ⟨List.length_replicate, fun col hcol => ?_⟩
    rw [List.eq_of_mem_replicate hcol]
    refine ⟨List.length_replicate, fun y hy => ?_⟩
    rw [List.eq_of_mem_replicate hy]
    exact hx

/-- A value that is no address is made of numbers of one type. -/
theorem Fits.number (h : w.Fits t) : ∀ y ∈ w.numbers, y.Fits (t.component?.getD .int) := by
  cases t <;> cases w <;> try exact h.elim
  · exact List.forall_mem_singleton.2 h
  · exact h.2
  · intro y hy
    obtain ⟨col, hcol, hy⟩ := List.mem_flatten.1 hy
    exact (h.2 col hcol).2 y hy

/-- As many as the type has. -/
theorem Fits.length_numbers (h : w.Fits t) : w.numbers.length = t.components := by
  cases t <;> cases w <;> try exact h.elim
  · rfl
  · exact h.1
  · next n cols =>
    have hlen : cols.map List.length = List.replicate cols.length n.size :=
      List.eq_replicate_iff.2 ⟨by simp, fun k hk => by
        obtain ⟨col, hcol, rfl⟩ := List.mem_map.1 hk
        exact (h.2 col hcol).1⟩
    rw [numbers, List.length_flatten, hlen, List.sum_replicate_nat, h.1]
    rfl

/-- There are no values without a type. -/
theorem Fits.ne_void (h : w.Fits t) : t ≠ .void := by
  rintro rfl
  cases w <;> exact h

@[simp] theorem numbers_map : (w.map f).numbers = w.numbers.map f := by
  cases w <;> simp [map, numbers]

theorem map_map : (w.map f).map g = w.map (g ∘ f) := by
  cases w <;> simp [map]

theorem map_congr (h : ∀ x ∈ w.numbers, f x = g x) : w.map f = w.map g := by
  cases w with
  | number x => exact congrArg Datum.number (h x (List.mem_singleton.2 rfl))
  | vector xs => exact congrArg vector (List.map_congr_left h)
  | matrix cols =>
    refine congrArg matrix (List.map_congr_left fun col hcol => List.map_congr_left fun x hx => ?_)
    exact h x (List.mem_flatten_of_mem hcol hx)
  | address a => rfl

theorem map_eq_self (h : ∀ x ∈ w.numbers, f x = x) : w.map f = w :=
  (map_congr (g := id) h).trans (by cases w <;> simp [map])

theorem IsFlat.map (h : w.IsFlat) : (w.map f).IsFlat := by cases w <;> exact h

end Datum

/-! ## Operations on each component -/

/-- A partial function that is defined on all elements. -/
theorem mapM_eq_some_map {α β : Type} {f : α → Option β} {g : α → β} {l : List α}
    (h : ∀ x ∈ l, f x = some (g x)) : l.mapM f = some (l.map g) := by
  induction l with
  | nil => rfl
  | cons x l ih =>
    obtain ⟨hx, hl⟩ := List.forall_mem_cons.1 h
    simp [List.mapM_cons, hx, ih hl]

namespace Datum

/-- The values of scalar types are numbers. -/
theorem Fits.exists_number (h : w.Fits t) (ht : t.isScalar = true) :
    ∃ r x, t = .scalar r ∧ w = .number x := by
  cases t <;> cases ht
  cases w <;> first | exact h.elim | exact ⟨_, _, rfl, rfl⟩

theorem Fits.isFlat (h : w.Fits t) (ht : t.isFlat = true) : w.IsFlat := by
  cases t <;> cases w <;> first | exact h.elim | cases ht <;> trivial

/-- A partial operation that is defined on all components. -/
theorem map?_eq {op : Number R → Option (Number R)} (hw : w.IsFlat)
    (h : ∀ x ∈ w.numbers, op x = some (f x)) : w.map? op = some (w.map f) := by
  cases w with
  | number x => simp [map?, map, h x (List.mem_singleton.2 rfl)]
  | vector xs =>
    have hall : ∀ x ∈ xs, op x = some (f x) := h
    simp [map?, map, mapM_eq_some_map hall]
  | _ => exact hw.elim

/-- An operation with the same number for each component. -/
theorem zip?_spread {op : Number R → Number R → Option (Number R)} {z : Number R} (hw : w.Fits t)
    (ht : t.isFlat = true) (h : ∀ x ∈ w.numbers, op x z = some (f x)) :
    w.zip? op (spread t z) = some (w.map f) := by
  cases t with
  | void => cases ht
  | matrix n => cases ht
  | scalar s =>
    cases w <;> try exact hw.elim
    simp [zip?, spread, map, h _ (List.mem_singleton.2 rfl)]
  | vector s n =>
    cases w <;> try exact hw.elim
    next xs =>
    have hzip : xs.zip (List.replicate n.size z) = xs.map fun x => (x, z) := by
      rw [← hw.1]
      exact List.ext_getElem (by simp) fun i h₁ h₂ => by simp
    have hlen : xs.length = (List.replicate n.size z).length := by simp [hw.1]
    have hall : ∀ x ∈ xs, op x z = some (f x) := h
    change (if xs.length = (List.replicate n.size z).length then _ else _) = _
    rw [if_pos hlen, hzip, List.mapM_map]
    exact congrArg (Option.map vector) (mapM_eq_some_map hall)

end Datum

/-! ## Constants -/

theorem precision_ofScalar : (Ty.ofScalar s).precision = s.precision := by cases s <;> rfl

/-- The precision of a type is that of its components. -/
theorem precision_ofData (ht : t.isFlat = true) :
    (Ty.ofData t).precision = (t.component?.getD .int).precision := by
  cases t with
  | void => cases ht
  | matrix n => cases ht
  | scalar s => exact precision_ofScalar
  | vector s n => exact precision_ofScalar

theorem zero?_ofScalar : (Ty.ofScalar s).zero? N = some (Number.zero N s) := by cases s <;> rfl

/-- The constant of a scalar type nearest to a number. -/
def Number.ofDyadic (N : Arithmetic R) (s : ScalarType) (x : Numeral.Dyadic) : Number R :=
  if s.isFloating then real s.precision (N.constant s.precision x)
  else word (BitVec.ofInt 32 x.toWord)

theorem datum_ofScalar (x : Numeral.Dyadic) :
    (Const.ofScalar s x).datum N = some (.number (.ofDyadic N s x)) := by cases s <;> rfl

/-- The zero of a type is zero in all components. -/
theorem datum_zeroOf (ht : t ≠ .void) : (Const.zeroOf t).datum N = some (.zero N t) := by
  cases t with
  | void => exact absurd rfl ht
  | scalar s => cases s <;> rfl
  | vector s n =>
    change ((Ty.ofScalar s).zero? N).map _ = _
    rw [zero?_ofScalar]
    rfl
  | matrix n => rfl

/-- Undefined values are undefined in all components. -/
theorem datum_undef : (Const.undef (Ty.ofData t)).datum N =
    if t = .void then none else some (Datum.spread t .undefined) := by
  cases t with
  | void => rfl
  | scalar s => cases s <;> rfl
  | vector s n => cases s <;> rfl
  | matrix n => rfl

theorem known_zero {d : Draft} {v : View R} (ht : t ≠ .void) :
    Known N d v (.zero t) (.zero N t) := .const (datum_zeroOf ht)

/-! ## Code that converts -/

namespace Emit

variable {d : Draft} {v : View R} {a b c : Value} {n : Dim}

/-- A number is put into one component after another, and what has been filled in by then is the
invariant. -/
theorem computes_splatLanes (ha : Known N d v a (.number x)) :
    Computes N (splatLanes (.vector s n) a) d v fun b d' v' =>
      Known N d' v' b (.spread (.vector s n) x) := by
  have hfill := Computes.foldlM_range (N := N) (n := n.size) (d := d) (v := v)
    (f := fun v i => setLane v a (.index i)) (c := .const (.undef (Ty.ofData (.vector s n))))
    (I := fun i b d' v' => Known N d' v' b (.vector (filled n.size .undefined (fun _ => x) i)))
    (.const (by rw [datum_undef, filled_zero]; rfl))
    fun i hi b d' v' hev hb => by
      have hi4 : i < 4 := Nat.lt_of_lt_of_le hi n.size_le
      refine computes_setLane hb (hev.known ha) (View.index_index hi4) ?_
      simp [Datum.setLane?, hi, set_filled]
  refine hfill.weaken fun b d' v' _ hb => ?_
  rw [filled_self, List.map_const', List.length_range] at hb
  exact hb

/-- A number is put into all components, those of a matrix column by column. -/
theorem computes_splat (ht : t.isScalar = false) (ht' : t ≠ .void)
    (ha : Known N d v a (.number x)) :
    Computes N (splat t a) d v fun b d' v' => Known N d' v' b (.spread t x) := by
  cases t with
  | void => exact absurd rfl ht'
  | scalar s => cases ht
  | vector s n => exact computes_splatLanes ha
  | matrix n =>
    refine .bind (computes_splatLanes ha) fun col d₁ v₁ hev₁ hcol => ?_
    have hfill := Computes.foldlM_range (N := N) (n := n.size) (d := d₁) (v := v₁)
      (f := fun m i => setColumn m col i) (c := .const (.undef (Ty.ofData (.matrix n))))
      (I := fun i b d' v' => Known N d' v' b (.matrix (filled n.size
        (List.replicate n.size .undefined) (fun _ => List.replicate n.size x) i)))
      (.const (by rw [datum_undef, filled_zero]; rfl))
      fun i hi b d' v' hev hb => computes_setColumn hb (hev.known hcol) (by
        simp [Datum.setColumn?, Datum.spread, hi, set_filled])
    refine hfill.weaken fun b d' v' _ hb => ?_
    rw [filled_self, List.map_const', List.length_range] at hb
    exact hb

/-- A constant has its number in all components. -/
theorem computes_const {y : Numeral.Dyadic} (ht : t ≠ .void) :
    Computes N (const t y) d v fun b d' v' =>
      Known N d' v' b (.spread t (.ofDyadic N (t.component?.getD .int) y)) := by
  have hnum : ∀ s, Known N d v (.const (.ofScalar s y)) (.number (.ofDyadic N s y)) :=
    fun s => .const (datum_ofScalar y)
  cases t with
  | void => exact absurd rfl ht
  | scalar s => exact .pure (hnum s)
  | vector s n => exact computes_splat rfl ht (hnum s)
  | matrix n => exact computes_splat rfl ht (hnum .float)

/-- Numbers, or the components of a vector, are converted one by one. -/
theorem computes_convertLanes {src dst : DataType} (hshape : Emits.SameShape src s dst r)
    (hw : w.Fits src) (ha : Known N d v a w) :
    Computes N (convertLanes a src dst s r) d v fun b d' v' =>
      Known N d' v' b (w.map (Number.convert N s r)) := by
  obtain ⟨hsrc, hdst, hs, hr⟩ : src.isFlat = true ∧ dst.isFlat = true ∧
      src.component?.getD .int = s ∧ dst.component?.getD .int = r := by
    cases hshape <;> exact ⟨rfl, rfl, rfl, rfl⟩
  have hnum : ∀ x ∈ w.numbers, x.Fits s := hs ▸ hw.number
  -- one instruction for all components
  have hcast : ∀ {op : CastOp}, (∀ x ∈ w.numbers, op.apply N r.precision x =
      some (x.convert N s r)) → Computes N (append (.cast op a (Ty.ofData dst))) d v
        fun b d' v' => Known N d' v' b (w.map (Number.convert N s r)) := fun h =>
    computes_cast ha (Datum.map?_eq (hw.isFlat hsrc) (by rwa [precision_ofData hdst, hr]))
  have hkeep : (∀ x ∈ w.numbers, x.convert N s r = x) →
      Computes N (Pure.pure a) d v fun b d' v' =>
        Known N d' v' b (w.map (Number.convert N s r)) := fun h => by
    refine .pure ?_
    rwa [Datum.map_eq_self h]
  cases r with
  | bool =>
    have hzero : Known N d v (.zero src) (.spread src (.zero N s)) := by
      have h : Known N d v (.zero src) (.zero N src) := known_zero hw.ne_void
      rwa [Datum.zero, hs] at h
    -- the bits become truth values
    have hext : ∀ {b d' v'}, Known N d' v' b (w.map (Number.truth N)) →
        Computes N (append (.cast .zext b (Ty.ofData dst))) d' v' fun c d'' v'' =>
          Known N d'' v'' c (w.map (Number.convert N s .bool)) := fun {b d' v'} hb => by
      have h : w.map (Number.convert N s .bool) =
          (w.map (Number.truth N)).map Number.widen := by
        rw [Datum.map_map]
        refine Datum.map_congr fun x hx => ?_
        cases s <;> obtain ⟨y, rfl⟩ := hnum x hx <;> rfl
      rw [h]
      refine computes_cast hb (Datum.map?_eq (hw.isFlat hsrc).map fun y hy => ?_)
      rw [Datum.numbers_map] at hy
      obtain ⟨x, hx, rfl⟩ := List.mem_map.1 hy
      cases s <;> obtain ⟨y, rfl⟩ := hnum x hx <;> rfl
    simp only [convertLanes]
    split
    next hf =>
      refine .bind (computes_fcmp ha hzero (Datum.zip?_spread hw hsrc fun x hx => ?_))
        fun b d' v' _ hb => hext hb
      cases s <;> obtain ⟨y, rfl⟩ := hnum x hx <;> first | rfl | cases hf
    next hf =>
      refine .bind (computes_icmp ha hzero (Datum.zip?_spread hw hsrc fun x hx => ?_))
        fun b d' v' _ hb => hext hb
      cases s <;> obtain ⟨y, rfl⟩ := hnum x hx <;> first | rfl | exact absurd rfl hf
  | _ =>
    cases s <;> first
      | exact hkeep fun x hx => by obtain ⟨y, rfl⟩ := hnum x hx; rfl
      | exact hcast fun x hx => by obtain ⟨y, rfl⟩ := hnum x hx; rfl

/-- A conversion computes the value in all components, whether it takes one instruction or one for
each component. -/
theorem computes_convert (src dst : DataType) (hw : w.Fits src) (ha : Known N d v a w) :
    Computes N (convert a src dst) d v fun b d' v' => Known N d' v' b (w.convert N src dst) := by
  unfold convert Datum.convert
  split
  next => exact .pure ha
  next hne =>
    cases src with
    | void => cases w <;> exact hw.elim
    | matrix m => cases dst <;> exact .throw
    | scalar s =>
      cases w <;> try exact hw.elim
      cases dst with
      | void => exact .throw
      | scalar r => exact computes_convertLanes (.scalar s r) hw ha
      | vector r n =>
        exact .bind (computes_convertLanes (.scalar s r) hw ha) fun b d' v' _ hb =>
          computes_splat rfl (by simp) hb
      | matrix n =>
        exact .bind (computes_convertLanes (.scalar s .float) hw ha) fun b d' v' _ hb =>
          computes_splat rfl (by simp) hb
    | vector s m =>
      cases w <;> try exact hw.elim
      next xs =>
      cases dst with
      | void => exact .throw
      | matrix n => exact .throw
      | scalar r =>
        obtain ⟨x, xs, rfl⟩ := List.exists_cons_of_length_pos (hw.1 ▸ m.size_pos)
        refine .bind (computes_lane ha (View.index_index (by decide)) rfl) fun b d' v' _ hb => ?_
        exact computes_convertLanes (.scalar s r) (w := .number x) (hw.2 x List.mem_cons_self) hb
      | vector r n =>
        simp only
        split
        next heq => exact heq ▸ computes_convertLanes (.vector s r m) hw ha
        next => exact .throw

end Emit

/-- What is converted is a value of the type. -/
theorem Datum.Fits.convert {src dst : DataType}
    (h : src.convertible dst = true ∨ src.isVector = true ∧ dst.isScalar = true) (hw : w.Fits src) :
    (w.convert N src dst).Fits dst := by
  unfold Datum.convert
  split
  next heq => exact heq ▸ hw
  next hne =>
    cases src with
    | void => cases w <;> exact hw.elim
    | matrix m =>
      cases dst <;> simp [DataType.convertible, DataType.isVector] at h
      exact absurd (congrArg _ h) hne
    | scalar s =>
      cases w <;> try exact hw.elim
      have hdst : dst ≠ .void := by
        rintro rfl
        simp [DataType.convertible, DataType.isVector] at h
      exact .spread hdst (Number.Fits.convert hw)
    | vector s m =>
      cases w <;> try exact hw.elim
      next xs =>
      cases dst with
      | void => simp [DataType.convertible, DataType.isScalar] at h
      | matrix n => simp [DataType.convertible, DataType.isScalar] at h
      | scalar r =>
        obtain ⟨x, xs, rfl⟩ := List.exists_cons_of_length_pos (hw.1 ▸ m.size_pos)
        exact (hw.2 x List.mem_cons_self).convert
      | vector r n =>
        obtain rfl : m = n := by simpa [DataType.convertible, DataType.isScalar] using h
        refine ⟨by simpa using hw.1, fun y hy => ?_⟩
        obtain ⟨x, hx, rfl⟩ := List.mem_map.1 hy
        exact (hw.2 x hx).convert

end

end Shader.Ir
