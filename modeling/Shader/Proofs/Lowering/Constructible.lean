import Mathlib.Data.List.Infix
import Mathlib.Algebra.Order.Ring.Nat
import Shader.Proofs.Lowering.Construction

/-!
# Which arguments a constructor takes

A constructor goes through its arguments and stops at the first one for which there is no room left.
`Hinges` says that a walk leads on under a condition, and fails if the condition does not hold.
Composed along the walk, it gives the condition for all arguments of a constructor: numbers, as many
as there is room for, and all of them needed.
-/

namespace Shader

/-- A number is a value, and converts to every type that has values. -/
theorem DataType.takes_scalar {t u : DataType} (hs : t.isScalar = true) (hu : u ≠ .void) :
    t ≠ .void ∧ (t = u ∨ t.convertible u = true) := by
  cases t <;> cases u <;> simp_all [DataType.isScalar, DataType.convertible]

theorem DataType.isNumeric_of_convertible {t u : DataType} (h : t.convertible u = true) :
    t.isNumeric = true := by
  cases t with
  | void => simp [convertible] at h
  | _ => rfl

theorem DataType.components_pos {t : DataType} (h : t.isNumeric = true) : 0 < t.components := by
  cases t with
  | void => cases h
  | scalar s => exact Nat.one_pos
  | vector s n => cases n <;> exact Nat.succ_pos _
  | matrix n => cases n <;> decide

end Shader

namespace Shader.Lowering

open Ir

/-- The walk leads on if the condition holds, and fails if it does not. -/
def Hinges {α : Type} (O : Outside) (ρ : Realm) (act : Lower α) (x : Walk) (p : Prop)
    (Q : α → Walk → Prop) : Prop :=
  x.site.Ready ρ → ∃ r x', act.run x.body = .ok (r, x'.body) ∧
    ((∃ a, r = .ok a ∧ p ∧ x.Leads O ρ x' ∧ Q a x') ∨ ∃ e, r = .error e ∧ ¬ p)

namespace Hinges

variable {α β : Type} {O : Outside} {ρ : Realm} {x : Walk} {act : Lower α} {p q : Prop}
  {P Q : α → Walk → Prop}

theorem pure {a : α} (hp : p) (h : Q a x) : Hinges O ρ (Pure.pure a) x p Q :=
  fun hx => ⟨.ok a, x, rfl, .inl ⟨a, rfl, hp, .refl hx, h⟩⟩

theorem fail {pos : Pos} {cause : Cause} (hp : ¬ p) :
    Hinges O ρ (Lowering.fail pos cause) x p Q :=
  fun _ => ⟨.error ⟨pos, cause⟩, x, rfl, .inr ⟨_, rfl, hp⟩⟩

theorem bind {f : α → Lower β} {Q : β → Walk → Prop} (h : Hinges O ρ act x p P)
    (hf : ∀ a x', x.Leads O ρ x' → P a x' → Hinges O ρ (f a) x' q Q) :
    Hinges O ρ (act >>= f) x (p ∧ q) Q := by
  intro hx
  obtain ⟨r, x', hrun, ⟨a, rfl, hp, hlead, ha⟩ | ⟨e, rfl, hp⟩⟩ := h hx
  · obtain ⟨r', x'', hrun', hend⟩ := hf a x' hlead ha hlead.site.ready
    refine ⟨r', x'', ?_, hend.imp ?_ ?_⟩
    · change Except.bind (act.run x.body) _ = _
      rw [hrun]
      exact hrun'
    · rintro ⟨b, rfl, hq, hlead', hb⟩
      exact ⟨b, rfl, ⟨hp, hq⟩, hlead.trans hlead', hb⟩
    · rintro ⟨e, rfl, hq⟩
      exact ⟨e, rfl, fun h => hq h.2⟩
  · refine ⟨.error e, x', ?_, .inr ⟨e, rfl, fun h => hp h.1⟩⟩
    change Except.bind (act.run x.body) _ = _
    rw [hrun]
    rfl

theorem congr (h : Hinges O ρ act x p P) (hpq : p ↔ q)
    (hPQ : ∀ a x', x.Leads O ρ x' → P a x' → Q a x') : Hinges O ρ act x q Q := by
  intro hx
  obtain ⟨r, x', hrun, hend⟩ := h hx
  refine ⟨r, x', hrun, hend.imp ?_ ?_⟩
  · rintro ⟨a, ha, hp, hlead, hP⟩
    exact ⟨a, ha, hpq.1 hp, hlead, hPQ a x' hlead hP⟩
  · rintro ⟨e, he, hp⟩
    exact ⟨e, he, fun hq => hp (hpq.2 hq)⟩

/-- A walk that fails if something holds. -/
theorem check {c : Prop} {_ : Decidable c} {pos : Pos} {cause : Cause} {rest : Unit → Lower α}
    (h : ¬ c → Hinges O ρ (rest ()) x p Q) :
    Hinges O ρ (if c then Lowering.fail pos cause >>= rest else rest ()) x (¬ c ∧ p) Q := by
  intro hx
  split
  next hc => exact ⟨.error ⟨pos, cause⟩, x, rfl, .inr ⟨_, rfl, fun h => h.1 hc⟩⟩
  next hc =>
    exact congr (h hc) ⟨fun hp => ⟨hc, hp⟩, fun h => h.2⟩ (fun _ _ _ h => h) hx

/-- Writing does not fail. -/
theorem emit {act : Emit α} {Q : α → Site → Prop} (h : Emits O ρ act x.site Q) :
    Hinges O ρ (Lowering.emit act) x True fun a x' => Q a x'.site := by
  intro hx
  obtain ⟨a, s', hrun, hlead, ha⟩ := h hx
  refine ⟨.ok a, x.withSite s', ?_, .inl ⟨a, rfl, trivial, ⟨hlead, rfl⟩, ha⟩⟩
  change Except.bind (act x.site.draft) _ = _
  rw [hrun]
  rfl

/-- A walk whose condition holds, and another one. -/
theorem andThen {f : α → Lower β} {Q : β → Walk → Prop} (h : Hinges O ρ act x p P) (hp : p)
    (hf : ∀ a x', x.Leads O ρ x' → P a x' → Hinges O ρ (f a) x' q Q) :
    Hinges O ρ (act >>= f) x q Q :=
  (bind h hf).congr (and_iff_right hp) fun _ _ _ h => h

/-- A walk, and writing. -/
theorem andEmit {f : α → Emit β} {Q : β → Site → Prop} (h : Hinges O ρ act x p P)
    (hf : ∀ a x', x.Leads O ρ x' → P a x' → Emits O ρ (f a) x'.site Q) :
    Hinges O ρ (act >>= fun a => Lowering.emit (f a)) x p fun b x' => Q b x'.site :=
  (bind h fun a x' hlead ha => emit (hf a x' hlead ha)).congr (and_iff_left trivial)
    fun _ _ _ h => h

end Hinges

/-! ## Operands -/

section

variable {O : Outside} {ρ : Realm} {x : Walk} {a : Operand} {t : DataType}

theorem hinges_valueOf (ha : a.Sound O x.site) :
    Hinges O ρ (valueOf a) x (a.type ≠ .void) fun v x' => x'.site.Has O v (Ty.ofData a.type) := by
  cases a with
  | nothing pos => exact .fail fun h => h rfl
  | value pos t v => exact .pure ha.1 ha.2
  | place pos t addr name isConst =>
    exact (Hinges.emit (Emits.load ha.1 ha.2)).congr ⟨fun _ => ha.1, fun _ => trivial⟩
      fun _ _ _ h => h
  | lane pos c n addr idx name isConst =>
    have hload : Emits O ρ (Emit.load (.vector c n) addr >>= fun v => Emit.lane v idx) x.site
        fun v s' => s'.Has O v (Ty.ofScalar c) :=
      Emits.bind (Emits.load (by simp) ha.1) fun v s' hlead hv => Emits.lane hv (hlead.has ha.2)
    exact (Hinges.emit hload).congr ⟨fun _ => nofun, fun _ => trivial⟩ fun _ _ _ h => h

theorem hinges_valueAs (ha : a.Sound O x.site) :
    Hinges O ρ (valueAs a t) x (a.type ≠ .void ∧ (a.type = t ∨ a.type.convertible t = true))
      fun v x' => x'.site.Has O v (Ty.ofData t) := by
  refine .bind (hinges_valueOf ha) fun v x' hlead hv => ?_
  split
  next heq => exact .pure (.inl heq) (heq ▸ hv)
  next hne =>
    split
    next hconv =>
      exact (Hinges.emit (Emits.convert (.inl hconv) hv)).congr
        ⟨fun _ => .inr hconv, fun _ => trivial⟩ fun _ _ _ h => h
    next hconv => exact .fail fun h => h.elim hne hconv

/-! ## Room for components -/

/-- The number of components of some operands. -/
def supply (args : List Operand) : Nat := (args.map fun a => a.type.components).sum

theorem supply_cons (a : Operand) (args : List Operand) :
    supply (a :: args) = a.type.components + supply args := List.sum_cons

/-- There is room for every argument, when so many components are there already. -/
def Needed (t : DataType) (filled : Nat) (args : List Operand) : Prop :=
  args = [] ∨ filled + supply args.dropLast < t.components

theorem needed_cons {filled : Nat} {args : List Operand} (hle : filled ≤ t.components) :
    Needed t filled (a :: args) ↔ filled ≠ t.components ∧
      Needed t (min t.components (filled + a.type.components)) args := by
  cases args with
  | nil =>
    have hlt : filled < t.components ↔ filled ≠ t.components := by omega
    simp [Needed, supply, hlt]
  | cons b args =>
    simp only [Needed, List.dropLast_cons_cons, supply_cons, reduceCtorEq, false_or]
    omega

/-- The components of one argument, as many as there is room for. -/
theorem emits_argument {s : Site} {c r : ScalarType} {room : Nat} {v : Value}
    (hr : t.component? = some r) (hv : s.Has O v (Ty.ofData t)) :
    Emits O ρ (Pieces.scalars t v >>= takeComponents room r c) s fun vs s' =>
      vs.length = min room t.components ∧ ∀ v ∈ vs, s'.Has O v (Ty.ofScalar c) := by
  refine Emits.bind (Pieces.emits_scalars hr hv) fun all s' _ hall => ?_
  refine (Emits.mapM (P := fun v s' => s'.Has O v (Ty.ofScalar c))
    (fun _ _ _ hlead hv => hlead.has hv) ?_).weaken fun vs s'' _ hvs => ⟨?_, hvs.2⟩
  · intro s'' w hw hlead
    exact Emits.convert (.inl rfl) (hlead.has (hall.2 w (List.mem_of_mem_take hw)))
  · rw [hvs.1, List.length_take, hall.1]

theorem hinges_components {c : ScalarType} {args : List Operand} {comps : List Value}
    (hargs : ∀ a ∈ args, a.Sound O x.site) (hnum : ∀ a ∈ args, a.type ≠ .void)
    (hcomps : ∀ v ∈ comps, x.site.Has O v (Ty.ofScalar c))
    (hle : comps.length ≤ t.components) :
    Hinges O ρ (components t c comps args) x (Needed t comps.length args) fun vs x' =>
      vs.length = min t.components (comps.length + supply args) ∧
        ∀ v ∈ vs, x'.site.Has O v (Ty.ofScalar c) := by
  induction args generalizing x comps with
  | nil => exact .pure (.inl rfl) ⟨by simp [supply, hle], hcomps⟩
  | cons a args ih =>
    obtain ⟨ha, hargs⟩ := List.forall_mem_cons.1 hargs
    obtain ⟨hvoid, hnum⟩ := List.forall_mem_cons.1 hnum
    obtain ⟨r, hr⟩ : ∃ r, a.type.component? = some r := by
      revert hvoid
      cases a.type <;> simp [DataType.component?]
    unfold components
    rw [hr, Option.getD_some]
    refine Hinges.congr (Hinges.check fun hroom => ?_) (needed_cons hle).symm fun _ _ _ h => h
    refine Hinges.andThen (hinges_valueOf ha) hvoid fun v x₁ h₁ hv => ?_
    refine Hinges.andThen (Hinges.emit (emits_argument hr hv)) trivial fun more x₂ h₂ hmore => ?_
    have hlen : (comps ++ more).length =
        min t.components (comps.length + a.type.components) := by
      rw [List.length_append, hmore.1]
      omega
    have hstart : ∀ w ∈ comps ++ more, x₂.site.Has O w (Ty.ofScalar c) := fun w hw =>
      (List.mem_append.1 hw).elim (fun h => h₂.site.has (h₁.site.has (hcomps w h))) (hmore.2 w)
    refine (ih (fun b hb => ((hargs b hb).mono h₁.site).mono h₂.site) hnum hstart
      (hlen ▸ Nat.min_le_left _ _)).congr (by rw [hlen]) fun vs x' _ hvs => ⟨?_, hvs.2⟩
    rw [hvs.1, hlen, supply_cons]
    omega

theorem hinges_allComponents {c : ScalarType} {args : List Operand} {pos : Pos}
    (hargs : ∀ a ∈ args, a.Sound O x.site) (hnum : ∀ a ∈ args, a.type ≠ .void) :
    Hinges O ρ (allComponents pos t c args) x
      (Needed t 0 args ∧ t.components ≤ supply args) fun vs x' =>
        ∀ v ∈ vs, x'.site.Has O v (Ty.ofScalar c) := by
  refine Hinges.bind (hinges_components hargs hnum (fun _ hv => by cases hv) (Nat.zero_le _))
    fun vs x' _ hvs => ?_
  refine Hinges.congr (P := fun vs x' => ∀ v ∈ vs, x'.site.Has O v (Ty.ofScalar c))
    (Hinges.check (p := True) fun _ => .pure trivial hvs.2) ?_ fun _ _ _ h => h
  have hlen : vs.length = min t.components (supply args) := by simpa using hvs.1
  exact (and_iff_left trivial).trans (by omega)

/-! ## Constructors -/

/-- The arguments that a constructor takes. -/
structure Constructible (t : DataType) (args : List Operand) : Prop where
  /-- all of them are numbers -/
  numeric : ∀ a ∈ args, a.type.isNumeric = true ∧ a.hasValue = true
  /-- and they go together -/
  shape : (t.isScalar = true ∧ args.length = 1) ∨
    (∃ a, args = [a] ∧ (a.type.isScalar = true ∨ a.type = t)) ∨
    (t.components ≤ supply args ∧ supply args.dropLast < t.components)

/-- Arguments other than one number and one value of the type go together if there is room for all
of them and all of them are needed. -/
theorem constructible_iff {args : List Operand} (hne : args ≠ []) (ht : t.isScalar = false)
    (hnum : ∀ a ∈ args, a.type.isNumeric = true ∧ a.hasValue = true)
    (hmany : ∀ a, args = [a] → a.type.isScalar = false ∧ a.type ≠ t) :
    Needed t 0 args ∧ t.components ≤ supply args ↔ Constructible t args := by
  constructor
  · rintro ⟨hneeded, hle⟩
    have hroom := hneeded.resolve_left hne
    rw [Nat.zero_add] at hroom
    exact ⟨hnum, .inr (.inr ⟨hle, hroom⟩)⟩
  · rintro ⟨-, ⟨hs, -⟩ | ⟨a, ha, h⟩ | ⟨hle, hroom⟩⟩
    · rw [ht] at hs
      cases hs
    · obtain ⟨h₁, h₂⟩ := hmany a ha
      rw [h₁] at h
      exact absurd h (by simp [h₂])
    · exact ⟨.inr (by rwa [Nat.zero_add]), hle⟩

theorem Operand.hasValue_of_numeric {a : Operand} (h : a.type.isNumeric = true) :
    a.hasValue = true := by
  cases a with
  | nothing pos => cases h
  | _ => rfl

/-- A single number is made from one argument. -/
theorem constructible_scalar {c : ScalarType} {args : List Operand} (hne : args ≠ [])
    (hnum : ∀ a ∈ args, a.type.isNumeric = true) :
    Constructible (.scalar c) args ↔ args.length = 1 := by
  refine ⟨fun h => ?_, fun h =>
    ⟨fun a ha => ⟨hnum a ha, Operand.hasValue_of_numeric (hnum a ha)⟩, .inl ⟨rfl, h⟩⟩⟩
  obtain ⟨-, h⟩ | ⟨a, rfl, -⟩ | ⟨-, hlast⟩ := h.shape
  · exact h
  · rfl
  · have hnil : args.dropLast = [] := by
      rcases hdrop : args.dropLast with _ | ⟨b, bs⟩
      · rfl
      · have hb : b ∈ args := List.mem_of_mem_dropLast (hdrop ▸ List.mem_cons_self)
        have hpos := DataType.components_pos (hnum b hb)
        rw [hdrop, supply_cons] at hlast
        exact absurd hlast (by change ¬ _ < 1; omega)
    have hlen : args.dropLast.length = args.length - 1 := List.length_dropLast
    rw [hnil, List.length_nil] at hlen
    have hpos := List.length_pos_of_ne_nil hne
    omega

theorem hinges_buildScalar {pos : Pos} {c : ScalarType} {args : List Operand} (hne : args ≠ [])
    (hargs : ∀ a ∈ args, a.Sound O x.site) (hnum : ∀ a ∈ args, a.type.isNumeric = true) :
    Hinges O ρ (buildScalar pos c args) x (args.length = 1) fun v x' =>
      x'.site.Has O v (Ty.ofScalar c) := by
  match args, hne with
  | [a], _ =>
    have ha := hargs a List.mem_cons_self
    have hvoid : a.type ≠ .void := fun h => by
      have := hnum a List.mem_cons_self
      rw [h] at this
      cases this
    refine Hinges.congr (Hinges.bind (q := True) (hinges_valueOf ha) fun v x₁ h₁ hv => ?_)
      ⟨fun _ => rfl, fun _ => ⟨hvoid, trivial⟩⟩ fun _ _ _ h => h
    rcases htype : a.type with _ | r | ⟨r, n⟩ | n <;> rw [htype] at hv
    · exact absurd htype hvoid
    · exact .emit (Emits.convert (.inl rfl) hv)
    · exact .emit (Emits.convert (.inr ⟨rfl, rfl⟩) hv)
    · have hfirst : Emits O ρ (Emit.column v 0 >>= fun col =>
          Emit.convert col (.vector .float n) (.scalar c)) x₁.site fun w s' =>
            s'.Has O w (Ty.ofScalar c) :=
        Emits.bind (Emits.column hv (by cases n <;> decide)) fun col s' _ hcol =>
          Emits.convert (.inr ⟨rfl, rfl⟩) hcol
      exact .emit hfirst
  | _ :: b :: _, _ => exact .fail (by simp)

/-- One argument that is no number and not of the type, or several. -/
def Many (t : DataType) (args : List Operand) : Prop :=
  ∀ a, args = [a] → a.type.isScalar = false ∧ a.type ≠ t

/-- A constructor of a vector or a matrix, which takes the components of its arguments unless there
is only one of a special kind. -/
theorem hinges_shaped (pos : Pos) (c : ScalarType) {args : List Operand} {act : Lower Value}
    (pack : List Value → Emit Value) (hne : args ≠ []) (ht : t.isScalar = false) (htn : t ≠ .void)
    (hargs : ∀ a ∈ args, a.Sound O x.site) (hnum : ∀ a ∈ args, a.type.isNumeric = true)
    (hsame : ∀ a, args = [a] → a.type = t → act = valueOf a)
    (hsingle : ∀ a, args = [a] → a.type ≠ t → a.type.isScalar = true →
      Hinges O ρ act x True fun v x' => x'.site.Has O v (Ty.ofData t))
    (hmany : Many t args → act = allComponents pos t c args >>= fun comps => emit (pack comps))
    (hpack : ∀ s comps, (∀ v ∈ comps, Site.Has s O v (Ty.ofScalar c)) →
      Emits O ρ (pack comps) s fun v s' => s'.Has O v (Ty.ofData t)) :
    Hinges O ρ act x (Constructible t args) fun v x' => x'.site.Has O v (Ty.ofData t) := by
  have hall : ∀ a ∈ args, a.type.isNumeric = true ∧ a.hasValue = true := fun a ha =>
    ⟨hnum a ha, Operand.hasValue_of_numeric (hnum a ha)⟩
  have hvoid : ∀ a ∈ args, a.type ≠ .void := fun a ha h => by
    have := hnum a ha
    rw [h] at this
    cases this
  by_cases hm : Many t args
  · rw [hmany hm]
    refine (Hinges.andEmit (hinges_allComponents hargs hvoid)
      fun comps x' _ hcomps => hpack x'.site comps hcomps).congr ?_ fun _ _ _ h => h
    exact constructible_iff hne ht hall hm
  · obtain ⟨a, rfl, ha⟩ : ∃ a, args = [a] ∧ (a.type.isScalar = true ∨ a.type = t) := by
      simp only [Many, not_forall] at hm
      obtain ⟨a, rfl, ha⟩ := hm
      refine ⟨a, rfl, ?_⟩
      rcases hs : a.type.isScalar with _ | _
      · exact .inr (by simpa [hs] using ha)
      · exact .inl rfl
    have hcons : Constructible t [a] := ⟨hall, .inr (.inl ⟨a, rfl, ha⟩)⟩
    by_cases heq : a.type = t
    · rw [hsame a rfl heq]
      exact (hinges_valueOf (hargs a List.mem_cons_self)).congr
        ⟨fun _ => hcons, fun _ => heq ▸ htn⟩ fun v x' _ hv => heq ▸ hv
    · exact (hsingle a rfl heq (ha.resolve_right heq)).congr ⟨fun _ => hcons, fun _ => trivial⟩
        fun _ _ _ h => h

theorem buildVector_of_many {pos : Pos} {c : ScalarType} {n : Dim} {args : List Operand}
    (hm : Many (.vector c n) args) :
    buildVector pos c n args =
      allComponents pos (.vector c n) c args >>= fun comps => emit (Pieces.pack c n comps) := by
  rcases args with _ | ⟨a, _ | ⟨b, args⟩⟩
  · rfl
  · obtain ⟨hs, hne⟩ := hm a rfl
    simp [buildVector, hs, hne]
  · rfl

theorem hinges_buildVector {pos : Pos} {c : ScalarType} {n : Dim} {args : List Operand}
    (hne : args ≠ []) (hargs : ∀ a ∈ args, a.Sound O x.site)
    (hnum : ∀ a ∈ args, a.type.isNumeric = true) :
    Hinges O ρ (buildVector pos c n args) x (Constructible (.vector c n) args) fun v x' =>
      x'.site.Has O v (Ty.ofData (.vector c n)) := by
  refine hinges_shaped pos c (Pieces.pack c n) hne rfl (by simp) hargs hnum
    ?_ ?_ buildVector_of_many fun s comps h => Pieces.emits_pack h
  · rintro a rfl heq
    simp [buildVector, heq]
  · rintro a rfl hne' hs
    have ha := hargs a List.mem_cons_self
    simp only [buildVector, hne', hs, if_false, if_true]
    exact (hinges_valueAs ha).congr ⟨fun _ => trivial, fun _ => DataType.takes_scalar hs (by simp)⟩
      fun _ _ _ h => h

theorem buildMatrix_of_many {pos : Pos} {n : Dim} {args : List Operand}
    (hm : Many (.matrix n) args) :
    buildMatrix pos n args =
      allComponents pos (.matrix n) .float args >>= fun comps =>
        emit (Pieces.columnwise n fun i =>
          Pieces.pack .float n ((comps.drop (i * n.size)).take n.size)) := by
  rcases args with _ | ⟨a, _ | ⟨b, args⟩⟩
  · rfl
  · obtain ⟨hs, hne⟩ := hm a rfl
    simp [buildMatrix, hs, hne]
  · rfl

theorem hinges_buildMatrix {pos : Pos} {n : Dim} {args : List Operand}
    (hne : args ≠ []) (hargs : ∀ a ∈ args, a.Sound O x.site)
    (hnum : ∀ a ∈ args, a.type.isNumeric = true) :
    Hinges O ρ (buildMatrix pos n args) x (Constructible (.matrix n) args) fun v x' =>
      x'.site.Has O v (Ty.ofData (.matrix n)) := by
  refine hinges_shaped pos .float (fun comps => Pieces.columnwise n fun i =>
    Pieces.pack .float n ((comps.drop (i * n.size)).take n.size)) hne rfl (by simp) hargs hnum
    ?_ ?_ buildMatrix_of_many fun s comps h => ?_
  · rintro a rfl heq
    simp [buildMatrix, heq]
  · rintro a rfl hne' hs
    have ha := hargs a List.mem_cons_self
    simp only [buildMatrix, hne', hs, if_false, if_true]
    exact Hinges.andThen (hinges_valueAs ha) (DataType.takes_scalar hs (by simp))
      fun v x' _ hv => .emit (Pieces.emits_diagonal hv)
  · refine Pieces.emits_columnwise fun s' i hlead _ => Pieces.emits_pack fun v hv => ?_
    exact hlead.has (h v (List.mem_of_mem_drop (List.mem_of_mem_take hv)))

/-- A constructor succeeds if it takes its arguments, and fails if it does not. -/
theorem hinges_build (pos : Pos) {args : List Operand} (ht : t ≠ .void) (hne : args ≠ [])
    (hargs : ∀ a ∈ args, a.Sound O x.site) :
    Hinges O ρ (build pos t args) x (Constructible t args) fun v x' =>
      x'.site.Has O v (Ty.ofData t) := by
  rcases hfind : args.find? fun a => !a.type.isNumeric with _ | a
  · have hnum : ∀ a ∈ args, a.type.isNumeric = true := fun a ha => by
      simpa using List.find?_eq_none.1 hfind a ha
    simp only [build, hfind]
    cases t with
    | void => exact absurd rfl ht
    | scalar c =>
      exact (hinges_buildScalar hne hargs hnum).congr (constructible_scalar hne hnum).symm
        fun _ _ _ h => h
    | vector c n => exact hinges_buildVector hne hargs hnum
    | matrix n => exact hinges_buildMatrix hne hargs hnum
  · have hbad : a.type.isNumeric ≠ true := by simpa using List.find?_some hfind
    have hmem := List.mem_of_find?_eq_some hfind
    simp only [build, hfind]
    exact (Hinges.bind (p := False) (q := True) (P := fun _ _ => False) (.fail id)
      fun _ _ _ h => h.elim).congr ⟨fun h => h.1.elim, fun h => absurd (h.numeric a hmem).1 hbad⟩
        fun _ _ _ h => h

end

end Shader.Lowering
