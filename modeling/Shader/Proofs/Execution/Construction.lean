import Shader.Proofs.Execution.Conversion
import Shader.Proofs.Lowering.Bodies
import Shader.Proofs.Lowering.Constructible

/-!
# Constructors in execution

The code of a constructor takes its arguments apart into numbers, converts them, and puts them
together again, column by column. What comes out is described without the code: `Constructed` says
it in terms of all numbers of all arguments, one after the other.
-/

namespace Shader.Lowering

open Ir

section

variable {R : Type} {N : Arithmetic R} {α β : Type} {b : Body} {v : View R}

/-! ## Walks in execution -/

/-- A check has been passed. -/
theorem check_succeeds {p : Prop} {_ : Decidable p} {pos : Pos} {cause : Cause}
    {rest : Unit → Lower α} {c : α} {b' : Body}
    (h : (if p then Lowering.fail pos cause >>= rest else rest ()).run b = .ok (.ok c, b')) :
    ¬ p ∧ (rest ()).run b = .ok (.ok c, b') := by
  split at h
  · cases h
  next hp => exact ⟨hp, h⟩

/-- If a walk succeeds, the code that it has written leaves memory alone, and something is known of
its result once the code has been carried out. -/
def Carries (N : Arithmetic R) (act : Lower α) (b : Body) (v : View R)
    (Q : α → Draft → View R → Prop) : Prop :=
  ∀ a b', act.run b = .ok (.ok a, b') → ∃ v', Evolves N b.draft v b'.draft v' ∧ Q a b'.draft v'

namespace Carries

variable {act : Lower α} {f : α → Lower β} {P P' : α → Draft → View R → Prop}
  {Q : β → Draft → View R → Prop}

theorem pure {a : α} (h : P a b.draft v) : Carries N (Pure.pure a) b v P := by
  intro _ _ hrun
  cases hrun
  exact ⟨v, .refl _ _, h⟩

theorem fail {pos : Pos} {cause : Cause} : Carries N (Lowering.fail pos cause) b v P := by
  intro _ _ hrun
  cases hrun

theorem bind (h : Carries N act b v P)
    (hf : ∀ a b' v', Evolves N b.draft v b'.draft v' → P a b'.draft v' → Carries N (f a) b' v' Q) :
    Carries N (act >>= f) b v Q := by
  intro c b'' hrun
  obtain ⟨a, b', hact, hrest⟩ := bind_succeeds hrun
  obtain ⟨v', hev, hv'⟩ := h a b' hact
  obtain ⟨v'', hev', hv''⟩ := hf a b' v' hev hv' c b'' hrest
  exact ⟨v'', hev.trans hev', hv''⟩

theorem weaken (h : Carries N act b v P)
    (hP : ∀ a d' v', Evolves N b.draft v d' v' → P a d' v' → P' a d' v') :
    Carries N act b v P' := by
  intro a b' hrun
  obtain ⟨v', hev, hv'⟩ := h a b' hrun
  exact ⟨v', hev, hP a b'.draft v' hev hv'⟩

theorem emit {act : Emit α} (h : Emit.Computes N act b.draft v P) :
    Carries N (Lowering.emit act) b v P := by
  intro a b' hrun
  obtain ⟨a', d, hact, hr, rfl⟩ := emit_cases hrun
  cases hr
  exact h a d hact

theorem insteadOf {pos : Pos} {cause : Cause} (h : Carries N act b v P) :
    Carries N (Lowering.insteadOf act pos cause) b v P := by
  intro a b' hrun
  obtain ⟨e, -, hr⟩ | ⟨a', hact, hr⟩ := insteadOf_cases hrun
  · cases hr
  · cases hr
    exact h a b' hact

/-- A walk that fails if something holds. -/
theorem check {c : Prop} {_ : Decidable c} {pos : Pos} {cause : Cause} {rest : Unit → Lower α}
    (h : ¬ c → Carries N (rest ()) b v P) :
    Carries N (if c then Lowering.fail pos cause >>= rest else rest ()) b v P := by
  split
  · exact bind (P := fun _ _ _ => False) .fail fun _ _ _ _ h => h.elim
  next hc => exact h hc

end Carries

/-! ## Operands -/

/-- What an operand is when its value is asked for. -/
def Operand.Reads (N : Arithmetic R) (d : Draft) (v : View R) (w : Datum R) : Operand → Prop
  | nothing _ => False
  | value _ _ x => Known N d v x w
  | place _ _ addr _ _ => ∃ a, Known N d v addr (.address a) ∧ v.memory.read a = some w
  | lane _ _ _ addr idx _ _ => ∃ a vec e i, Known N d v addr (.address a) ∧
      v.memory.read a = some vec ∧ Known N d v idx e ∧ e.index? = some i ∧ vec.lane? i = some w

theorem Operand.Reads.evolves {x : Operand} {w : Datum R} {d d' : Draft} {v v' : View R}
    (hx : x.Reads N d v w) (h : Evolves N d v d' v') : x.Reads N d' v' w := by
  cases x with
  | nothing pos => exact hx
  | value pos t y => exact h.known hx
  | place pos t addr name isConst =>
    obtain ⟨a, ha, hw⟩ := hx
    exact ⟨a, h.known ha, h.memory ▸ hw⟩
  | lane pos s n addr idx name isConst =>
    obtain ⟨a, vec, e, i, ha, hvec, he, hi, hw⟩ := hx
    exact ⟨a, vec, e, i, h.known ha, h.memory ▸ hvec, h.known he, hi, hw⟩

theorem carries_valueOf {x : Operand} {w : Datum R} (hx : x.Reads N b.draft v w) :
    Carries N (valueOf x) b v fun y d' v' => Known N d' v' y w := by
  cases x with
  | nothing pos => exact hx.elim
  | value pos t y => exact .pure hx
  | place pos t addr name isConst =>
    obtain ⟨a, ha, hw⟩ := hx
    exact .emit (Emit.computes_load ha hw)
  | lane pos s n addr idx name isConst =>
    obtain ⟨a, vec, e, i, ha, hvec, he, hi, hw⟩ := hx
    exact .emit (.bind (Emit.computes_load ha hvec) fun y d' v' hev hy =>
      Emit.computes_lane hy ((hev.known he).index hi) hw)

theorem carries_valueAs {x : Operand} {t : DataType} {w : Datum R} (hx : x.Reads N b.draft v w)
    (hw : w.Fits x.type) :
    Carries N (valueAs x t) b v fun y d' v' => Known N d' v' y (w.convert N x.type t) := by
  refine .bind (carries_valueOf hx) fun y b' v' _ hy => ?_
  split
  next heq =>
    subst heq
    exact .pure (Datum.convert_self.symm ▸ hy)
  next =>
    split
    next => exact .emit (Emit.computes_convert x.type t hw hy)
    next => exact .fail

end

/-! ## Pieces of vectors and matrices -/

namespace Pieces

variable {R : Type} {N : Arithmetic R} {d : Draft} {v : View R} {n : Dim} {s : ScalarType}

theorem map_eq_map_range {α γ : Type} {xs : List α} {u : α} {g : α → γ} :
    xs.map g = (List.range xs.length).map fun i => g (xs.getD i u) :=
  List.ext_getElem (by simp) fun i h₁ h₂ => by
    have hi : i < xs.length := by simpa using h₁
    simp [hi]

theorem known_zeroVector {d : Draft} {v : View R} :
    Known N d v (.zero (.vector s n)) (.vector (List.replicate n.size (.zero N s))) :=
  known_zero (by simp)

theorem computes_columnwise {col : Nat → Emit Value} {f : Nat → List (Number R)}
    (h : ∀ i < n.size, ∀ d' v', Evolves N d v d' v' →
      Emit.Computes N (col i) d' v' fun c d'' v'' => Known N d'' v'' c (.vector (f i))) :
    Emit.Computes N (columnwise n col) d v fun m d' v' =>
      Known N d' v' m (.matrix ((List.range n.size).map f)) := by
  have hfill := Emit.Computes.foldlM_range (N := N) (n := n.size) (d := d) (v := v)
    (f := fun m i => do Emit.setColumn m (← col i) i) (c := .zero (.matrix n))
    (I := fun i m d' v' => Known N d' v' m (.matrix (filled n.size
      (List.replicate n.size (.zero N .float)) f i)))
    (by rw [filled_zero]; exact known_zero (by simp))
    fun i hi m d' v' hev hm => .bind (h i hi d' v' hev) fun c d'' v'' hev' hc =>
      Emit.computes_setColumn (hev'.known hm) hc (by simp [Datum.setColumn?, hi, set_filled])
  exact hfill.weaken fun m d' v' _ hm => by rwa [filled_self] at hm

theorem computes_pack {comps : List Value} {xs : List (Number R)}
    (hcomps : KnownAll N d v comps (xs.map .number)) (hlen : xs.length = n.size) :
    Emit.Computes N (pack s n comps) d v fun y d' v' => Known N d' v' y (.vector xs) := by
  have hsize : comps.length = n.size := by simpa [hlen] using hcomps.length_eq
  have hfill := Emit.Computes.foldlM (N := N) (l := comps.zipIdx) (d := d) (v := v)
    (f := fun v p => Emit.setLane v p.1 (.index p.2)) (c := .zero (.vector s n))
    (I := fun i y d' v' => Known N d' v' y (.vector (filled n.size (.zero N s)
      (fun i => xs.getD i .undefined) i)))
    (by rw [filled_zero]; exact known_zeroVector)
    fun i p hp y d' v' hev hy => by
      obtain ⟨c, j⟩ := p
      obtain ⟨hi, hget⟩ := List.getElem?_eq_some_iff.1 hp
      have hi' : i < comps.length := by simpa using hi
      obtain ⟨rfl, rfl⟩ : comps[i] = c ∧ i = j := by simpa using hget
      have hix : i < xs.length := by omega
      have hc : Known N d v comps[i] (.number xs[i]) := by
        have := hcomps.get hi' (by simpa using hix)
        simpa using this
      refine Emit.computes_setLane hy (hev.known hc) (View.index_index ?_) ?_
      · have := n.size_le
        omega
      · have hin : i < n.size := by omega
        rw [← set_filled]
        simp [Datum.setLane?, hin, hix]
  refine hfill.weaken fun y d' v' _ hy => ?_
  have hxs : xs.map id = (List.range xs.length).map fun i => id (xs.getD i .undefined) :=
    map_eq_map_range
  simp only [List.map_id, id] at hxs
  rwa [List.length_zipIdx, hsize, filled_self, ← hlen, ← hxs] at hy

theorem computes_lanes {y : Value} {xs : List (Number R)} (hy : Known N d v y (.vector xs))
    (hlen : xs.length = n.size) :
    Emit.Computes N (lanes n y) d v fun ys d' v' => KnownAll N d' v' ys (xs.map .number) := by
  have hmap := Emit.Computes.mapM_range (N := N) (n := n.size) (d := d) (v := v)
    (f := fun i => Emit.lane y (.index i))
    (P := fun i z d' v' => Known N d' v' z (.number (xs.getD i .undefined)))
    (fun i z d₁ v₁ d₂ v₂ hev hz => hev.known hz)
    fun i hi d' v' hev => by
      have hix : i < xs.length := hlen ▸ hi
      refine Emit.computes_lane (hev.known hy) (View.index_index ?_) (by simp [Datum.lane?, hix])
      exact Nat.lt_of_lt_of_le hi n.size_le
  refine hmap.weaken fun ys d' v' _ hys => ?_
  rw [map_eq_map_range (u := .undefined), hlen, KnownAll, List.forall₂_map_right_iff]
  exact hys.flip

theorem computes_scalars {t : DataType} {y : Value} {w : Datum R} (hw : w.Fits t)
    (hy : Known N d v y w) :
    Emit.Computes N (scalars t y) d v fun ys d' v' =>
      KnownAll N d' v' ys (w.numbers.map .number) := by
  cases t with
  | void => cases w <;> exact hw.elim
  | scalar r =>
    cases w <;> try exact hw.elim
    exact .pure (.cons hy .nil)
  | vector r n =>
    cases w <;> try exact hw.elim
    exact computes_lanes hy hw.1
  | matrix n =>
    cases w <;> try exact hw.elim
    next cols =>
    have hmap := Emit.Computes.mapM_range (N := N) (n := n.size) (d := d) (v := v)
      (f := fun i => do lanes n (← Emit.column y i))
      (P := fun i zs d' v' => KnownAll N d' v' zs ((cols.getD i []).map .number))
      (fun i zs d₁ v₁ d₂ v₂ hev hzs => hev.knownAll hzs)
      fun i hi d' v' hev => by
        have hix : i < cols.length := hw.1 ▸ hi
        have hcolumn : (Datum.matrix cols).column? i = some (.vector cols[i]) := by
          simp [Datum.column?, hix]
        refine .bind (Emit.computes_column (hev.known hy) hcolumn) fun z d'' v'' _ hz => ?_
        have hcol := computes_lanes hz (hw.2 _ (List.getElem_mem hix)).1
        have hget : cols.getD i [] = cols[i] := by simp [hix]
        rwa [hget]
    refine .bind hmap fun zss d' v' _ hzss => .pure ?_
    rw [Datum.numbers, List.map_flatten, map_eq_map_range (u := []), hw.1]
    refine List.rel_flatten ?_
    rw [List.forall₂_map_right_iff]
    exact hzss.flip

theorem computes_diagonal {y : Value} {x : Number R} (hy : Known N d v y (.number x)) :
    Emit.Computes N (diagonal n y) d v fun m d' v' => Known N d' v' m (.matrix
      ((List.range n.size).map fun i => (List.replicate n.size (.zero N .float)).set i x)) :=
  computes_columnwise fun i hi d' v' hev =>
    Emit.computes_setLane known_zeroVector (hev.known hy)
      (View.index_index (Nat.lt_of_lt_of_le hi n.size_le)) (by simp [Datum.setLane?, hi])

end Pieces

/-! ## Arguments -/

section

variable {R : Type} {N : Arithmetic R}

/-- A number as one of another type; a number that is of the type already stays as it is. -/
def become (N : Arithmetic R) (s r : ScalarType) (x : Number R) : Number R :=
  if s = r then x else x.convert N s r

theorem fits_become {s r : ScalarType} {x : Number R} (hx : x.Fits s) :
    (become N s r x).Fits r := by
  unfold become
  split
  next heq => exact heq ▸ hx
  next => exact hx.convert

/-- All numbers of some values, one after the other, with their types. -/
def numbersOf (gs : List (DataType × Datum R)) : List (ScalarType × Number R) :=
  gs.flatMap fun g => g.2.numbers.map fun x => (g.1.component?.getD .int, x)

/-- What an argument is: its type and its value. -/
structure Operand.Is (N : Arithmetic R) (d : Draft) (v : View R) (a : Operand)
    (g : DataType × Datum R) : Prop where
  /-- the type -/
  type : a.type = g.1
  /-- the value -/
  reads : a.Reads N d v g.2
  /-- which is of the type -/
  fits : g.2.Fits g.1

/-- What arguments are. -/
abbrev AreGiven (N : Arithmetic R) (d : Draft) (v : View R) : List Operand →
    List (DataType × Datum R) → Prop := List.Forall₂ (Operand.Is N d v)

variable {b : Body} {d d' : Draft} {v v' : View R} {t : DataType} {s : ScalarType}
  {args : List Operand} {gs : List (DataType × Datum R)}

theorem AreGiven.evolves (h : AreGiven N d v args gs) (hev : Evolves N d v d' v') :
    AreGiven N d' v' args gs :=
  h.imp fun _ _ ha => ⟨ha.type, ha.reads.evolves hev, ha.fits⟩

theorem computes_mapM {f : Value → Emit Value} {g : Datum R → Datum R} {ys : List Value}
    {ws : List (Datum R)} (hys : KnownAll N d v ys ws)
    (hf : ∀ y w d' v', w ∈ ws → Known N d' v' y w →
      Emit.Computes N (f y) d' v' fun z d'' v'' => Known N d'' v'' z (g w)) :
    Emit.Computes N (ys.mapM f) d v fun zs d' v' => KnownAll N d' v' zs (ws.map g) := by
  induction ys generalizing d v ws with
  | nil =>
    cases hys
    exact .pure .nil
  | cons y ys ih =>
    cases hys with
    | @cons _ w _ ws hy hys =>
    rw [List.mapM_cons]
    refine .bind (hf y w d v List.mem_cons_self hy) fun z d₁ v₁ hev₁ hz => ?_
    refine .bind (ih (hev₁.knownAll hys) fun y w d' v' hw =>
      hf y w d' v' (List.mem_cons_of_mem _ hw)) fun zs d₂ v₂ hev₂ hzs => ?_
    exact .pure (.cons (hev₂.known hz) hzs)

theorem computes_takeComponents {r : ScalarType} {room : Nat} {ys : List Value}
    {xs : List (Number R)} (hys : KnownAll N d v ys (xs.map .number)) (hxs : ∀ x ∈ xs, x.Fits r) :
    Emit.Computes N (takeComponents room r s ys) d v fun zs d' v' =>
      KnownAll N d' v' zs (((xs.take room).map (become N r s)).map .number) := by
  have htake : KnownAll N d v (ys.take room) ((xs.take room).map .number) := by
    rw [List.map_take]
    exact List.forall₂_take room hys
  refine (computes_mapM (g := fun w => w.convert N (.scalar r) (.scalar s)) htake
    fun y w d' v' hw hy => ?_).weaken fun zs d' v' _ hzs => ?_
  · obtain ⟨x, hx, rfl⟩ := List.mem_map.1 hw
    exact Emit.computes_convert (.scalar r) (.scalar s) (hxs x (List.mem_of_mem_take hx)) hy
  · have hbecome : ∀ x : Number R, (Datum.number x).convert N (.scalar r) (.scalar s) =
        .number (become N r s x) := fun x => by
      unfold become Datum.convert
      by_cases hrs : r = s
      · simp [hrs]
      · simp only [DataType.scalar.injEq, hrs, if_false]
        rfl
    simpa only [List.map_map, Function.comp_def, hbecome] using hzs

/-- Taking from the front twice. -/
theorem take_append_take {α : Type} (m : Nat) (l₁ l₂ l₃ : List α) :
    (l₁ ++ l₂.take (m - l₁.length) ++ l₃).take m = (l₁ ++ l₂ ++ l₃).take m := by
  simp only [List.take_append, List.take_take, List.length_append, List.length_take, Nat.min_self]
  congr 2
  omega

theorem carries_components {comps : List Value} {cs : List (Number R)}
    (hargs : AreGiven N b.draft v args gs)
    (hcomps : KnownAll N b.draft v comps (cs.map .number)) (hle : cs.length ≤ t.components) :
    Carries N (components t s comps args) b v fun ys d' v' => KnownAll N d' v' ys
      (((cs ++ (numbersOf gs).map fun c => become N c.1 s c.2).take t.components).map .number) := by
  induction args generalizing gs b v comps cs with
  | nil =>
    cases hargs
    refine .pure ?_
    simpa [numbersOf, List.take_of_length_le hle] using hcomps
  | cons a args ih =>
    cases hargs with
    | @cons _ g _ gs ha hargs =>
    obtain ⟨r, hr⟩ : ∃ r, g.1.component? = some r := by
      have hvoid := ha.fits.ne_void
      cases htype : g.1 <;> simp_all [DataType.component?]
    have hnums : ∀ x ∈ g.2.numbers, x.Fits r := by
      have h := ha.fits.number
      rwa [hr] at h
    unfold components
    refine .check fun _ => ?_
    refine .bind (carries_valueOf ha.reads) fun y b₁ v₁ hev₁ hy => ?_
    rw [ha.type, hr, Option.getD_some]
    -- of each argument no more components are taken than there is room for
    have hmore : Emit.Computes N (Pieces.scalars g.1 y >>= fun all =>
        takeComponents (t.components - comps.length) r s all) b₁.draft v₁ fun zs d' v' =>
          KnownAll N d' v' zs
            (((g.2.numbers.take (t.components - comps.length)).map (become N r s)).map .number) :=
      .bind (Pieces.computes_scalars ha.fits hy) fun all d' v' _ hall =>
        computes_takeComponents hall hnums
    refine .bind (.emit hmore) fun more b₂ v₂ hev₂ hmore => ?_
    have hlen : comps.length = cs.length := by simpa using hcomps.length_eq
    have hstart : KnownAll N b₂.draft v₂ (comps ++ more) ((cs ++ (g.2.numbers.take
        (t.components - comps.length)).map (become N r s)).map .number) := by
      rw [List.map_append]
      exact List.rel_append ((hev₁.trans hev₂).knownAll hcomps) hmore
    have hroom : (cs ++ (g.2.numbers.take (t.components - comps.length)).map
        (become N r s)).length ≤ t.components := by
      rw [List.length_append, List.length_map, List.length_take]
      omega
    have hrest := ih (AreGiven.evolves hargs (hev₁.trans hev₂)) hstart hroom
    refine hrest.weaken fun ys d' v' _ hys => ?_
    -- taking from the arguments one by one is taking from all of their numbers at once
    have hcons : (numbersOf (g :: gs)).map (fun c => become N c.1 s c.2) =
        g.2.numbers.map (become N r s) ++ (numbersOf gs).map fun c => become N c.1 s c.2 := by
      simp [numbersOf, hr, Function.comp_def]
    rw [hcons, ← List.append_assoc]
    rwa [hlen, List.map_take (f := become N r s), take_append_take] at hys

/-! ## Constructors -/

/-- A constructor has more than one argument, or one that is no single number and not of the
type. -/
def Mixed (t : DataType) (gs : List (DataType × Datum R)) : Prop :=
  ∀ g, gs = [g] → g.1.isScalar = false ∧ g.1 ≠ t

/-- What a constructor makes of its arguments. -/
structure Constructed (N : Arithmetic R) (t : DataType) (gs : List (DataType × Datum R))
    (w : Datum R) : Prop where
  /-- a value of the type -/
  fits : w.Fits t
  /-- that is the only argument, if this is of the type -/
  same : ∀ u, gs = [(t, u)] → w = u
  /-- a single number is the first one, converted -/
  scalar : ∀ s src u, t = .scalar s → gs = [(src, u)] → src ≠ t →
    ∃ c, (numbersOf gs).head? = some c ∧ w = .number (c.2.convert N c.1 s)
  /-- one number fills all components of a vector -/
  vector : ∀ r x s n, gs = [(.scalar r, .number x)] → t = .vector s n →
    w = .vector (List.replicate n.size (x.convert N r s))
  /-- and stands on the diagonal of a matrix, with zeros elsewhere -/
  diagonal : ∀ r x n, gs = [(.scalar r, .number x)] → t = .matrix n →
    w = .matrix ((List.range n.size).map fun j => (List.range n.size).map fun i =>
      if i = j then x.convert N r .float else .zero N .float)
  /-- in all other cases there are enough numbers -/
  enough : t.isScalar = false → Mixed t gs → t.components ≤ (numbersOf gs).length
  /-- and each component is the number at its place, converted -/
  component : t.isScalar = false → Mixed t gs → ∀ k c, k < t.components →
    (numbersOf gs)[k]? = some c →
      w.numbers[k]? = some (become N c.1 (t.component?.getD .int) c.2)

theorem carries_allComponents {pos : Pos} (hargs : AreGiven N b.draft v args gs) :
    Carries N (allComponents pos t s args) b v fun ys d' v' =>
      t.components ≤ (numbersOf gs).length ∧ KnownAll N d' v' ys
        ((((numbersOf gs).map fun c => become N c.1 s c.2).take t.components).map .number) := by
  have hnone : KnownAll N b.draft v [] (([] : List (Number R)).map .number) := .nil
  refine .bind (carries_components hargs hnone (Nat.zero_le _)) fun ys b' v' _ hys => ?_
  rw [List.nil_append] at hys
  refine .check fun hfew => .pure ⟨?_, hys⟩
  have hlen := hys.length_eq
  simp at hlen
  omega

namespace Constructed

variable {w u : Datum R} {src : DataType}

theorem of_same (hu : u.Fits t) : Constructed N t [(t, u)] u where
  fits := hu
  same := fun u' h => by simpa using h
  scalar := fun s src u' _ h hne => absurd (by simpa using congrArg (List.map Prod.fst) h.symm) hne
  vector := fun r x s n h ht => by
    subst ht
    simp at h
  diagonal := fun r x n h ht => by
    subst ht
    simp at h
  enough := fun _ hm => absurd rfl (hm _ rfl).2
  component := fun _ hm => absurd rfl (hm _ rfl).2

theorem of_first {c : ScalarType × Number R} (hu : u.Fits src) (hne : src ≠ .scalar s)
    (hc : (numbersOf [(src, u)]).head? = some c) :
    Constructed N (.scalar s) [(src, u)] (.number (c.2.convert N c.1 s)) where
  fits := by
    obtain ⟨x, hx, rfl⟩ : ∃ x ∈ u.numbers, (src.component?.getD .int, x) = c := by
      simpa [numbersOf] using List.mem_of_mem_head? hc
    exact (hu.number x hx).convert
  same := fun u' h => absurd (by simpa using congrArg (List.map Prod.fst) h) hne
  scalar := fun s' src' u' hs h _ => by
    obtain rfl : s = s' := by simpa using hs
    exact ⟨c, hc, rfl⟩
  vector := fun r x s n h ht => by cases ht
  diagonal := fun r x n h ht => by cases ht
  enough := fun ht => by cases ht
  component := fun ht => by cases ht

theorem of_mixed (ht : t.isScalar = false) (hm : Mixed t gs) (hw : w.Fits t)
    (henough : t.components ≤ (numbersOf gs).length)
    (hnums : w.numbers =
      ((numbersOf gs).map fun c => become N c.1 (t.component?.getD .int) c.2).take t.components) :
    Constructed N t gs w where
  fits := hw
  same := fun u h => absurd rfl (hm _ h).2
  scalar := fun s src u hs => by
    subst hs
    cases ht
  vector := fun r x s n h => absurd (hm _ h).1 (by simp [DataType.isScalar])
  diagonal := fun r x n h => absurd (hm _ h).1 (by simp [DataType.isScalar])
  enough := fun _ _ => henough
  component := fun _ _ k c hk hc => by
    rw [hnums, List.getElem?_take_of_lt hk, List.getElem?_map, hc]
    rfl

theorem of_number {r : ScalarType} {x : Number R} (ht : t.isScalar = false) (hw : w.Fits t)
    (hvector : ∀ s n, t = .vector s n → w = .vector (List.replicate n.size (x.convert N r s)))
    (hdiagonal : ∀ n, t = .matrix n → w = .matrix ((List.range n.size).map fun j =>
      (List.range n.size).map fun i => if i = j then x.convert N r .float else .zero N .float)) :
    Constructed N t [(.scalar r, .number x)] w where
  fits := hw
  same := fun u h => by
    obtain ⟨rfl, -⟩ : DataType.scalar r = t ∧ Datum.number x = u := by simpa using h
    cases ht
  scalar := fun s src u hs => by
    subst hs
    cases ht
  vector := fun r' x' s n h hs => by
    obtain ⟨rfl, rfl⟩ : r = r' ∧ x = x' := by simpa using h
    exact hvector s n hs
  diagonal := fun r' x' n h hs => by
    obtain ⟨rfl, rfl⟩ : r = r' ∧ x = x' := by simpa using h
    exact hdiagonal n hs
  enough := fun _ hm => absurd (hm _ rfl).1 (by simp [DataType.isScalar])
  component := fun _ hm => absurd (hm _ rfl).1 (by simp [DataType.isScalar])

end Constructed

theorem carries_buildScalar {pos : Pos} (hargs : AreGiven N b.draft v args gs) :
    Carries N (buildScalar pos s args) b v fun y d' v' =>
      ∃ w, Known N d' v' y w ∧ Constructed N (.scalar s) gs w := by
  match args, hargs with
  | [], _ => exact .fail
  | _ :: _ :: _, _ => exact .fail
  | [a], hargs =>
    cases hargs with
    | @cons _ g _ gs ha hnil =>
    cases hnil
    obtain ⟨src, u⟩ := g
    refine .bind (carries_valueOf ha.reads) fun y b₁ v₁ hev₁ hy => ?_
    have htype : a.type = src := ha.type
    have hfits : u.Fits src := ha.fits
    rw [htype]
    cases src with
    | void => cases u <;> exact hfits.elim
    | scalar r =>
      cases u <;> try exact hfits.elim
      next x =>
      refine .emit ((Emit.computes_convert _ (.scalar s) hfits hy).weaken
        fun z d' v' _ hz => ⟨_, hz, ?_⟩)
      -- an argument of the type itself is not converted
      by_cases heq : r = s
      · subst heq
        rw [Datum.convert_self]
        exact .of_same hfits
      · have hne : DataType.scalar r ≠ .scalar s := fun h => heq (by simpa using h)
        have hconvert : (Datum.number x).convert N (.scalar r) (.scalar s) =
            .number (x.convert N r s) := by
          unfold Datum.convert
          rw [if_neg hne]
          rfl
        rw [hconvert]
        exact .of_first hfits hne rfl
    | vector r n =>
      cases u <;> try exact hfits.elim
      next xs =>
      obtain ⟨x, xs, rfl⟩ := List.exists_cons_of_length_pos (hfits.1 ▸ n.size_pos)
      exact .emit ((Emit.computes_convert _ (.scalar s) hfits hy).weaken
        fun z d' v' _ hz => ⟨_, hz, .of_first (c := (r, x)) hfits nofun rfl⟩)
    | matrix n =>
      cases u <;> try exact hfits.elim
      next cols =>
      obtain ⟨col, cols, rfl⟩ := List.exists_cons_of_length_pos (hfits.1 ▸ n.size_pos)
      have hcol : Datum.Fits (.vector .float n) (.vector col) := hfits.2 col List.mem_cons_self
      obtain ⟨x, xs, rfl⟩ := List.exists_cons_of_length_pos (hcol.1 ▸ n.size_pos)
      have hfirst : Emit.Computes N (Emit.column y 0 >>= fun col =>
          Emit.convert col (.vector .float n) (.scalar s)) b₁.draft v₁ fun z d' v' =>
            Known N d' v' z (.number (x.convert N .float s)) :=
        .bind (Emit.computes_column hy rfl) fun z d' v' _ hz =>
          Emit.computes_convert (.vector .float n) (.scalar s) hcol hz
      exact .emit (hfirst.weaken fun z d' v' _ hz =>
        ⟨_, hz, .of_first (c := (.float, x)) hfits nofun rfl⟩)

/-- Numbers of a type, as many as it has, make a value. -/
theorem fits_taken (hgs : ∀ g ∈ gs, g.2.Fits g.1) {m : Nat} {y : Number R}
    (hy : y ∈ ((numbersOf gs).map fun c => become N c.1 s c.2).take m) : y.Fits s := by
  obtain ⟨c, hc, rfl⟩ := List.mem_map.1 (List.mem_of_mem_take hy)
  obtain ⟨g, hg, hcg⟩ := List.mem_flatMap.1 hc
  obtain ⟨x, hx, rfl⟩ := List.mem_map.1 hcg
  exact fits_become ((hgs g hg).number x hx)

theorem AreGiven.fits (h : AreGiven N d v args gs) : ∀ g ∈ gs, g.2.Fits g.1 := by
  induction h with
  | nil => exact fun _ hg => by cases hg
  | cons ha _ ih => exact List.forall_mem_cons.2 ⟨ha.fits, ih⟩

/-- The arguments are mixed, or there is only one, which is a single number or of the type. -/
theorem AreGiven.cases_mixed (h : AreGiven N d v args gs) (t : DataType) :
    (Mixed t gs ∧ Many t args) ∨ ∃ a g, args = [a] ∧ gs = [g] ∧ a.Is N d v g ∧
      (g.1.isScalar = true ∨ g.1 = t) := by
  cases h with
  | nil => exact .inl ⟨fun _ h => by simp at h, fun _ h => by simp at h⟩
  | @cons a g args gs ha hargs =>
    cases hargs with
    | cons _ _ => exact .inl ⟨fun _ h => by simp at h, fun _ h => by simp at h⟩
    | nil =>
      by_cases hg : g.1.isScalar = true ∨ g.1 = t
      · exact .inr ⟨a, g, rfl, rfl, ha, hg⟩
      · have hne : g.1.isScalar = false ∧ g.1 ≠ t := by simpa using hg
        refine .inl ⟨fun g' h => ?_, fun a' h => ?_⟩
        · obtain rfl : g = g' := by simpa using h
          exact hne
        · obtain rfl : a = a' := by simpa using h
          rwa [ha.type]

theorem carries_buildVector {pos : Pos} {n : Dim} (hargs : AreGiven N b.draft v args gs) :
    Carries N (buildVector pos s n args) b v fun y d' v' =>
      ∃ w, Known N d' v' y w ∧ Constructed N (.vector s n) gs w := by
  obtain ⟨hm, hmany⟩ | ⟨a, g, rfl, rfl, ha, hg⟩ := hargs.cases_mixed (.vector s n)
  · rw [buildVector_of_many hmany]
    refine .bind (carries_allComponents hargs) fun ys b₁ v₁ _ hcomps => ?_
    obtain ⟨henough, hys⟩ := hcomps
    have hlen : (((numbersOf gs).map fun c => become N c.1 s c.2).take
        (DataType.vector s n).components).length = n.size := by
      rw [List.length_take, List.length_map]
      exact Nat.min_eq_left henough
    refine .emit ((Pieces.computes_pack hys hlen).weaken fun y d' v' _ hy => ⟨_, hy, ?_⟩)
    exact .of_mixed rfl hm ⟨hlen, fun y hy => fits_taken hargs.fits hy⟩ henough rfl
  · obtain ⟨src, u⟩ := g
    have htype : a.type = src := ha.type
    have hfits : u.Fits src := ha.fits
    simp only [buildVector, htype]
    split
    next heq =>
      subst heq
      exact (carries_valueOf ha.reads).weaken fun y d' v' _ hy => ⟨u, hy, .of_same hfits⟩
    next hne =>
      have hs : src.isScalar = true := hg.resolve_right hne
      rw [if_pos hs]
      obtain ⟨r, x, rfl, rfl⟩ := hfits.exists_number hs
      refine (carries_valueAs (t := .vector s n) ha.reads (htype ▸ hfits)).weaken
        fun y d' v' _ hy => ⟨_, hy, ?_⟩
      have hconvert : (Datum.number x).convert N a.type (.vector s n) =
          .vector (List.replicate n.size (x.convert N r s)) := by
        rw [htype]
        rfl
      rw [hconvert]
      refine .of_number rfl ?_ (fun s' n' h => ?_) (by simp)
      · exact Datum.Fits.spread (t := .vector s n) (by simp) (Number.Fits.convert hfits)
      · obtain ⟨rfl, rfl⟩ : s = s' ∧ n = n' := by simpa using h
        rfl

/-- A list cut into pieces of one length. -/
theorem flatten_pieces {α : Type} (l : List α) (k m : Nat) :
    ((List.range m).map fun i => (l.drop (i * k)).take k).flatten = l.take (m * k) := by
  induction m with
  | zero => simp
  | succ m ih =>
    rw [List.range_succ, List.map_append, List.flatten_append, ih, Nat.succ_mul, List.take_add]
    simp

/-- A matrix whose columns are cut from the numbers of several arguments. -/
theorem carries_columns {pos : Pos} {n : Dim} (hargs : AreGiven N b.draft v args gs)
    (hm : Mixed (.matrix n) gs) :
    Carries N (do
      let comps ← allComponents pos (.matrix n) .float args
      emit (Pieces.columnwise n fun i =>
        Pieces.pack .float n ((comps.drop (i * n.size)).take n.size))) b v fun y d' v' =>
      ∃ w, Known N d' v' y w ∧ Constructed N (.matrix n) gs w := by
  refine .bind (carries_allComponents hargs) fun ys b₁ v₁ _ hcomps => ?_
  obtain ⟨henough, hys⟩ := hcomps
  generalize hcs : ((numbersOf gs).map fun c => become N c.1 .float c.2).take
    (DataType.matrix n).components = cs at hys
  have hlen : cs.length = n.size * n.size := by
    rw [← hcs, List.length_take, List.length_map]
    exact Nat.min_eq_left henough
  -- there are enough numbers for all columns, so each piece has its full length
  have hpiece : ∀ i < n.size, ((cs.drop (i * n.size)).take n.size).length = n.size := by
    intro i hi
    have hroom : i * n.size + n.size ≤ n.size * n.size := by
      rw [← Nat.succ_mul]
      exact Nat.mul_le_mul_right n.size hi
    rw [List.length_take, List.length_drop, hlen]
    omega
  have hknown : ∀ (i : Nat) {d' : Draft} {v' : View R}, Evolves N b₁.draft v₁ d' v' →
      KnownAll N d' v' ((ys.drop (i * n.size)).take n.size)
        (((cs.drop (i * n.size)).take n.size).map .number) := by
    intro i d' v' hev
    rw [List.map_take, List.map_drop]
    exact List.forall₂_take _ (List.forall₂_drop _ (hev.knownAll hys))
  refine .emit ((Pieces.computes_columnwise fun i hi d' v' hev =>
    Pieces.computes_pack (hknown i hev) (hpiece i hi)).weaken fun y d' v' _ hy => ⟨_, hy, ?_⟩)
  refine .of_mixed rfl hm ⟨by simp, fun col hcol => ?_⟩ henough ?_
  · obtain ⟨i, hi, rfl⟩ := List.mem_map.1 hcol
    refine ⟨hpiece i (List.mem_range.1 hi), fun y hy => ?_⟩
    have hmem := List.mem_of_mem_drop (List.mem_of_mem_take hy)
    exact fits_taken hargs.fits (hcs ▸ hmem)
  · rw [Datum.numbers, flatten_pieces, ← hlen, List.take_length]
    exact hcs.symm

/-- A matrix with one number on its diagonal. -/
theorem carries_diagonal {n : Dim} {a : Operand} {r : ScalarType} {x : Number R}
    (ha : a.Is N b.draft v (.scalar r, .number x)) :
    Carries N (do
      let s ← valueAs a .float
      emit (Pieces.diagonal n s)) b v fun y d' v' =>
      ∃ w, Known N d' v' y w ∧ Constructed N (.matrix n) [(.scalar r, .number x)] w := by
  have htype : a.type = .scalar r := ha.type
  have hfits : x.Fits r := ha.fits
  have hconvert : (Datum.number x).convert N a.type .float = .number (x.convert N r .float) := by
    rw [htype]
    unfold Datum.convert
    split
    next heq =>
      obtain rfl : r = .float := by simpa using heq
      obtain ⟨y, rfl⟩ := hfits
      rfl
    next => rfl
  have hread := carries_valueAs (t := .float) ha.reads (htype ▸ ha.fits)
  rw [hconvert] at hread
  refine .bind hread fun y b₁ v₁ _ hy => .emit ((Pieces.computes_diagonal hy).weaken
    fun m d' v' _ hm => ⟨_, hm, ?_⟩)
  -- setting the entry on the diagonal of a zero column, entry by entry
  have hcolumns : (List.range n.size).map (fun j =>
        (List.replicate n.size (Number.zero N .float)).set j (x.convert N r .float)) =
      (List.range n.size).map fun j => (List.range n.size).map fun i =>
        if i = j then x.convert N r .float else .zero N .float := by
    refine List.map_congr_left fun j hj => List.ext_getElem (by simp) fun i h₁ h₂ => ?_
    simp [List.getElem_set, eq_comm]
  rw [hcolumns]
  refine .of_number rfl ⟨by simp, fun col hcol => ?_⟩ (fun _ _ h => by cases h) fun n' h => ?_
  · obtain ⟨j, hj, rfl⟩ := List.mem_map.1 hcol
    refine ⟨by simp, fun y hy => ?_⟩
    obtain ⟨i, hi, rfl⟩ := List.mem_map.1 hy
    split
    · exact Number.Fits.convert hfits
    · exact Number.fits_zero
  · obtain rfl : n = n' := by simpa using h
    rfl

theorem carries_buildMatrix {pos : Pos} {n : Dim} (hargs : AreGiven N b.draft v args gs) :
    Carries N (buildMatrix pos n args) b v fun y d' v' =>
      ∃ w, Known N d' v' y w ∧ Constructed N (.matrix n) gs w := by
  obtain ⟨hm, hmany⟩ | ⟨a, g, rfl, rfl, ha, hg⟩ := hargs.cases_mixed (.matrix n)
  · rw [buildMatrix_of_many hmany]
    exact carries_columns hargs hm
  · obtain ⟨src, u⟩ := g
    have htype : a.type = src := ha.type
    have hfits : u.Fits src := ha.fits
    simp only [buildMatrix, htype]
    split
    next heq =>
      subst heq
      exact (carries_valueOf ha.reads).weaken fun y d' v' _ hy => ⟨u, hy, .of_same hfits⟩
    next hne =>
      have hs : src.isScalar = true := hg.resolve_right hne
      rw [if_pos hs]
      obtain ⟨r, x, rfl, rfl⟩ := hfits.exists_number hs
      exact carries_diagonal ha

/-- The code of a constructor makes of its arguments what it should. -/
theorem carries_build {pos : Pos} (hargs : AreGiven N b.draft v args gs) :
    Carries N (build pos t args) b v fun y d' v' =>
      ∃ w, Known N d' v' y w ∧ Constructed N t gs w := by
  rcases hfind : args.find? fun a => !a.type.isNumeric with _ | a
  · simp only [build, hfind]
    cases t with
    | void => exact .fail
    | scalar s => exact carries_buildScalar hargs
    | vector s n => exact carries_buildVector hargs
    | matrix n => exact carries_buildMatrix hargs
  · simp only [build, hfind]
    exact .bind (P := fun _ _ _ => False) .fail fun _ _ _ _ h => h.elim

/-- A constructor succeeds if and only if its arguments are numbers that go together, and then its
code puts their components into the right places. The first value of a variable is constructed in
the same way where it does not convert. -/
theorem constructor_places_components {O : Outside} {ρ : Realm} {x : Walk} (pos : Pos)
    {t : DataType} {args : List Operand} (hx : x.site.Ready ρ)
    (hargs : ∀ a ∈ args, a.Sound O x.site) (ht : t ≠ .void) (hne : args ≠ []) :
    ((∃ y b', (build pos t args).run x.body = .ok (.ok y, b')) ↔ Constructible t args) ∧
    (∀ y b', (build pos t args).run x.body = .ok (.ok y, b') →
      ∀ (R : Type) (N : Arithmetic R) v gs, AreGiven N x.body.draft v args gs →
        ∃ v' w, Evolves N x.body.draft v b'.draft v' ∧ Known N b'.draft v' y w ∧
          Constructed N t gs w) ∧
    ∀ a : Operand, a.type ≠ t → (a.type.convertible t = false ∨ t.isMatrix = true) →
      initialValue t a = build a.pos t [a] := by
  refine ⟨?_, fun y b' hrun R N v gs hgs => ?_, fun a hne hconv => ?_⟩
  · obtain ⟨r, x', hrun, ⟨y, rfl, hp, -, -⟩ | ⟨e, rfl, hp⟩⟩ :=
      hinges_build pos ht hne hargs hx
    · exact ⟨fun _ => hp, fun _ => ⟨y, x'.body, hrun⟩⟩
    · refine ⟨fun ⟨y, b', hrun'⟩ => ?_, fun h => absurd h hp⟩
      rw [hrun] at hrun'
      cases hrun'
  · obtain ⟨v', hev, w, hy, hw⟩ := carries_build hgs y b' hrun
    exact ⟨v', w, hev, hy, hw⟩
  · have hcond : ¬ (a.type = t ∨ a.type.convertible t = true ∧ t.isMatrix = false) := by
      rintro (h | ⟨h₁, h₂⟩)
      · exact hne h
      · rw [h₁, h₂] at hconv
        simp at hconv
    simp only [initialValue]
    rw [if_neg (by simpa using hcond)]

/-- A walk at the start of a function without parameters. -/
def blankWalk : Walk :=
  ⟨{ draft := startDraft {} { id := ⟨"f", 0⟩, result := .void, params := [] }, scopes := .empty },
    fun _ => ∅⟩

theorem ready_blankWalk : blankWalk.site.Ready .all := by
  have hdeclared : Func.Declared { id := ⟨"f", 0⟩, result := .void, params := [] } :=
    ⟨rfl, rfl, rfl, rfl, rfl⟩
  exact hdeclared.start.ready rfl rfl

/-- Two arguments: the integer two, and a vector of two zeros. -/
def integerAndVector : List Operand :=
  [.value {} .int (.int 2), .value {} (.vector .float .two) (.zero (.vector .float .two))]

/-- They make a vector of three numbers. -/
theorem integer_before_vector : ∃ y b' v' w,
    (build {} (.vector .float .three) integerAndVector).run blankWalk.body = .ok (.ok y, b') ∧
      Evolves .whole blankWalk.body.draft (View.blank Int) b'.draft v' ∧
      Known .whole b'.draft v' y w ∧
      w.numbers = [.real .single 2, .real .single 0, .real .single 0] := by
  have hsound : ∀ a ∈ integerAndVector, a.Sound ⟨[], fun _ => none⟩ blankWalk.site := by
    refine List.forall_mem_cons.2 ⟨⟨by decide, .int _ _ _⟩, List.forall_mem_singleton.2 ?_⟩
    exact ⟨by decide, .zero _ _ _⟩
  obtain ⟨hiff, hcode, -⟩ := constructor_places_components {} (t := .vector .float .three)
    ready_blankWalk hsound (by decide) (List.cons_ne_nil _ _)
  obtain ⟨y, b', hrun⟩ := hiff.2 ⟨by decide, .inr (.inr (by decide))⟩
  let z : Number Int := .real .single 0
  let gs : List (DataType × Datum Int) :=
    [(.int, .number (.word 2)), (.vector .float .two, .vector [z, z])]
  have hgiven : AreGiven .whole blankWalk.body.draft (View.blank Int) integerAndVector gs :=
    .cons ⟨rfl, .const rfl, 2, rfl⟩ (.cons ⟨rfl, .const rfl, rfl, by
      simp [z, Number.Fits, ScalarType.isFloating, ScalarType.precision]⟩ .nil)
  obtain ⟨v', w, hev, hy, hw⟩ := hcode y b' hrun Int .whole (View.blank Int) gs hgiven
  refine ⟨y, b', v', w, hrun, hev, hy, ?_⟩
  have hmixed : Mixed (.vector .float .three) gs := fun g h => by simp [gs] at h
  have hcomp := hw.component rfl hmixed
  refine List.ext_getElem? fun k => ?_
  have hlen : w.numbers.length = 3 := hw.fits.length_numbers
  rcases k with _ | _ | _ | k
  · exact hcomp 0 (.int, .word 2) (by decide) rfl
  · exact hcomp 1 (.float, z) (by decide) rfl
  · exact hcomp 2 (.float, z) (by decide) rfl
  · simp [hlen]

end

end Shader.Lowering
