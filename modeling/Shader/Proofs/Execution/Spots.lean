import Shader.Proofs.Execution.Arithmetic

/-!
# Stores in execution

A spot is what can be stored to: a variable, a column of a matrix, or a component of a vector or of
a column. A component is stored by reading the vector that it is part of, at the time of the store,
so nothing else changes: `Spot.Changes`.

An update is an assignment, with an operator or without one, or a step. What it stores and what its
value is are described without the code, and the code that follows the evaluation of the right side
does that.
-/

namespace Shader.Ir

variable {R : Type}

/-! ## Spots -/

/-- A part of memory that can be stored to. -/
structure Spot where
  /-- the variable or the column -/
  addr : Address
  /-- the component, if it is not all of it -/
  lane : Option Nat := none
  deriving DecidableEq, Repr

namespace Spot

/-- What is there. -/
def read (p : Spot) (m : Memory R) : Option (Datum R) :=
  match p.lane with
  | none => m.read p.addr
  | some i => (m.read p.addr).bind fun w => w.lane? i

/-- Spots that have nothing in common. -/
inductive Apart : Spot → Spot → Prop
  /-- parts of different variables -/
  | place {p q : Spot} (h : p.addr.place ≠ q.addr.place) : Apart p q
  /-- parts of different columns -/
  | column {place : Place} {j k : Nat} {l l' : Option Nat} (h : j ≠ k) :
      Apart ⟨⟨place, some j⟩, l⟩ ⟨⟨place, some k⟩, l'⟩
  /-- different components -/
  | lane {addr : Address} {i k : Nat} (h : i ≠ k) : Apart ⟨addr, some i⟩ ⟨addr, some k⟩

/-- A spot has been given a value, and nothing else has changed. -/
structure Changes (p : Spot) (w : Datum R) (m m' : Memory R) : Prop where
  /-- the value -/
  holds : p.read m' = some w
  /-- everything else -/
  others : ∀ q, p.Apart q → q.read m' = q.read m
  /-- no room has been reserved -/
  cells : m'.cells = m.cells

end Spot

namespace Memory

variable {m m' : Memory R} {a : Address} {w old : Datum R}

theorem read_put_of_ne {p : Place} (h : p ≠ a.place) : (m.put p w).read a = m.read a := by
  have hcontent : (m.put p w).content a.place = m.content a.place :=
    Function.update_of_ne h.symm _ _
  unfold read
  rw [hcontent]

theorem content_put {p : Place} : (m.put p w).content p = some w := Function.update_self _ _ _

/-- A column is a vector. -/
theorem read_column {p : Place} {j : Nat} (h : m.read ⟨p, some j⟩ = some w) :
    ∃ cols xs, m.content p = some (.matrix cols) ∧ cols[j]? = some xs ∧ w = .vector xs := by
  obtain ⟨c, hc, hcol⟩ := Option.bind_eq_some_iff.1 h
  cases c with
  | matrix cols =>
    obtain ⟨xs, hxs, rfl⟩ := Option.map_eq_some_iff.1 hcol
    exact ⟨cols, xs, hc, hxs, rfl⟩
  | _ => cases hcol

/-- A variable, or a column, is stored to. -/
theorem changes_write (hold : m.read a = some old)
    (hw : a.column.isSome = true → ∃ xs, w = .vector xs) :
    ∃ m', m.write a w = some m' ∧ (⟨a, none⟩ : Spot).Changes w m m' := by
  obtain ⟨p, column⟩ := a
  cases column with
  | none =>
    refine ⟨m.put p w, rfl, content_put, fun q hq => ?_, rfl⟩
    cases hq with
    | place hne => simp only [Spot.read, read_put_of_ne hne]
  | some j =>
    obtain ⟨cols, xs, hc, hxs, rfl⟩ := read_column hold
    obtain ⟨ys, rfl⟩ := hw rfl
    obtain ⟨hj, -⟩ := List.getElem?_eq_some_iff.1 hxs
    refine ⟨m.put p (.matrix (cols.set j ys)), ?_, ?_, fun q hq => ?_, rfl⟩
    · simp [write, hc, Datum.setColumn?, hj]
    · simp [Spot.read, read, content_put, Datum.column?, hj]
    · cases hq with
      | place hne => simp only [Spot.read, read_put_of_ne hne]
      | @column _ _ k _ l hne =>
        have hread : (m.put p (.matrix (cols.set j ys))).read ⟨p, some k⟩ = m.read ⟨p, some k⟩ := by
          simp [read, content_put, hc, Datum.column?, List.getElem?_set_ne hne]
        simp only [Spot.read, hread]

end Memory

/-- Where a vector is stored in which one component has been replaced, this component changes. -/
theorem Spot.Changes.lane {m m' : Memory R} {a : Address} {xs : List (Number R)} {i : Nat}
    {x : Number R} (hread : m.read a = some (.vector xs)) (hi : i < xs.length)
    (h : (⟨a, none⟩ : Spot).Changes (.vector (xs.set i x)) m m') :
    (⟨a, some i⟩ : Spot).Changes (.number x) m m' := by
  have hread' : m'.read a = some (.vector (xs.set i x)) := h.holds
  refine ⟨?_, fun q hq => ?_, h.cells⟩
  · simp [Spot.read, hread', Datum.lane?, hi]
  · cases hq with
    | place hne => exact h.others q (.place hne)
    | column hne => exact h.others _ (.column hne)
    | lane hne => simp [Spot.read, hread, hread', Datum.lane?, List.getElem?_set_ne hne]

end Shader.Ir

namespace Shader.Lowering

open Ir

variable {R : Type} {N : Arithmetic R} {b b' : Body} {d d' : Draft} {v v' : View R} {p : Spot}
  {x : Operand} {y addr : Value} {w old new : Datum R} {t : DataType}

/-! ## Operands that can be stored to -/

/-- The spot that an operand stands for. -/
def Operand.Denotes (N : Arithmetic R) (d : Draft) (v : View R) (p : Spot) : Operand → Prop
  | nothing _ | value _ _ _ => False
  | place _ _ addr _ _ => Known N d v addr (.address p.addr) ∧ p.lane = none
  | lane _ _ _ addr idx _ _ => Known N d v addr (.address p.addr) ∧
      ∃ e i, Known N d v idx e ∧ e.index? = some i ∧ p.lane = some i

namespace Operand.Denotes

/-- The operand is what is there. -/
theorem reads (h : x.Denotes N d v p) (hw : p.read v.memory = some w) : x.Reads N d v w := by
  obtain ⟨a, l⟩ := p
  cases x with
  | nothing pos => exact h.elim
  | value pos t y => exact h.elim
  | place pos t addr name isConst =>
    obtain ⟨ha, rfl⟩ := h
    exact ⟨a, ha, hw⟩
  | lane pos s n addr idx name isConst =>
    obtain ⟨ha, e, i, he, hi, rfl⟩ := h
    obtain ⟨vec, hvec, hlane⟩ := Option.bind_eq_some_iff.1 hw
    exact ⟨a, vec, e, i, ha, hvec, he, hi, hlane⟩

theorem evolves (h : x.Denotes N d v p) (hev : Evolves N d v d' v') : x.Denotes N d' v' p := by
  cases x with
  | nothing pos => exact h
  | value pos t y => exact h
  | place pos t addr name isConst => exact ⟨hev.known h.1, h.2⟩
  | lane pos s n addr idx name isConst =>
    obtain ⟨ha, e, i, he, hi, hl⟩ := h
    exact ⟨hev.known ha, e, i, hev.known he, hi, hl⟩

end Operand.Denotes

/-! ## Stores -/

theorem store_executes {a : Address} {m : Memory R} {u : Unit} (hy : Known N d v y w)
    (ha : Known N d v addr (.address a)) (hm : v.memory.write a w = some m)
    (h : Emit.store y addr d = .ok (u, d')) :
    ∃ v', Executes N d v d' v' ∧ v'.memory = m := by
  obtain ⟨_, happend⟩ := Emit.discard_cases h
  obtain ⟨l, -, hl, -, -, rfl⟩ := Emit.append_cases happend
  have heffect : (Inst.store y addr).effect N v = some (none, m) := by
    simp [Inst.effect, hy.value, ha.address, hm]
  exact ⟨_, .single hl rfl heffect, rfl⟩

/-- Values of one type have one form. -/
theorem vector_of_fits {xs : List (Number R)} (hxs : (Datum.vector xs).Fits t) (hw : w.Fits t) :
    ∃ ys, w = .vector ys := by
  cases t <;> first | exact hxs.elim | (cases w <;> first | exact hw.elim | exact ⟨_, rfl⟩)

/-- The code of a store changes the spot, and nothing else. -/
theorem storeTo_executes {u : Unit} (hx : x.Denotes N b.draft v p)
    (hold : p.read v.memory = some old) (hfits : old.Fits x.type) (hy : Known N b.draft v y new)
    (hnew : new.Fits x.type) (h : (storeTo x y).run b = .ok (.ok u, b')) :
    ∃ v', Executes N b.draft v b'.draft v' ∧ p.Changes new v.memory v'.memory := by
  obtain ⟨a, l⟩ := p
  cases x with
  | nothing pos => exact hx.elim
  | value pos t z => exact hx.elim
  | place pos t addr name isConst =>
    obtain ⟨ha, rfl⟩ := hx
    obtain ⟨_, d', hstore, -, rfl⟩ := emit_cases h
    -- a column is written as a vector
    have hvector : a.column.isSome = true → ∃ xs, new = .vector xs := fun hcol => by
      obtain ⟨q, _ | j⟩ := a
      · cases hcol
      · obtain ⟨-, xs, -, -, rfl⟩ := Memory.read_column hold
        exact vector_of_fits hfits hnew
    obtain ⟨m, hm, hchanges⟩ := Memory.changes_write hold hvector
    obtain ⟨v', hcode, rfl⟩ := store_executes hy ha hm hstore
    exact ⟨v', hcode, hchanges⟩
  | lane pos s n addr idx name isConst =>
    obtain ⟨ha, e, i, he, hi, rfl⟩ := hx
    obtain ⟨vec, hvec, hlane⟩ := Option.bind_eq_some_iff.1 hold
    cases vec with
    | vector xs =>
      cases new <;> try exact hnew.elim
      next z =>
      have hlt : i < xs.length := by
        obtain ⟨z₀, hz₀, -⟩ := Option.map_eq_some_iff.1 hlane
        exact (List.getElem?_eq_some_iff.1 hz₀).1
      obtain ⟨_, d', hrun, -, rfl⟩ := emit_cases h
      -- a lane is stored by way of its vector, which is loaded, changed there and stored again
      obtain ⟨z₁, d₁, hload, hrun⟩ := Emit.bind_cases hrun
      obtain ⟨z₂, d₂, hset, hstore⟩ := Emit.bind_cases hrun
      obtain ⟨v₁, hev₁, hz₁⟩ := Emit.computes_load ha hvec z₁ d₁ hload
      have hidx := (hev₁.known he).index hi
      have hreplaced : (Datum.vector xs).setLane? (.number z) i = some (.vector (xs.set i z)) := by
        simp [Datum.setLane?, hlt]
      obtain ⟨v₂, hev₂, hz₂⟩ :=
        Emit.computes_setLane hz₁ (hev₁.known hy) hidx hreplaced z₂ d₂ hset
      have hev := hev₁.trans hev₂
      have hread : v₂.memory.read a = some (.vector xs) := hev.memory ▸ hvec
      obtain ⟨m, hm, hchanges⟩ := Memory.changes_write (w := .vector (xs.set i z)) hread
        fun _ => ⟨_, rfl⟩
      obtain ⟨v', hcode, rfl⟩ := store_executes hz₂ (hev.known ha) hm hstore
      exact ⟨v', hev.code.trans hcode, hev.memory ▸ hchanges.lane hread hlt⟩
    | _ => cases hlane

/-! ## Updates -/

/-- The ways to change what a name or a component stands for. -/
inductive Update where
  /-- an assignment, which may first apply an operator -/
  | assign (op : Option ArithOp) (y : Expr)
  /-- a step, which stands in front of its operand or behind it -/
  | step (s : Step) (post : Bool) (pos : Pos)

namespace Update

/-- What a step makes of an integer. -/
def next : Step → BitVec 32 → BitVec 32
  | .inc, w => w + 1
  | .dec, w => w - 1

/-- The expression. -/
def expr : Update → Expr → Expr
  | assign op y, e => .assign op e y
  | step s true _, e => .postStep s e
  | step s false pos, e => .unary pos (.step s) e

/-- The walk over the right side, if there is one. -/
def source (Γ : Signatures) : Update → Lower (Option Operand)
  | assign _ y => some <$> Lowering.expr Γ y
  | step _ _ _ => return none

/-- What is walked over behind the right side. -/
def finish (pos : Pos) (text : String) (x : Operand) : Update → Option Operand → Lower Operand
  | assign op _, some y => do
    let z ← assigned pos op text x y
    storeTo x z
    return .value pos x.type z
  | assign _ _, none => fail pos (.notAssignable text)
  | step s post stepPos, _ => Lowering.step (if post then pos else stepPos) s post text x

/-- What is stored where a value of a type was. -/
def stored? (N : Arithmetic R) (t : DataType) (old : Datum R) :
    Update → Option (DataType × Datum R) → Option (Datum R)
  | assign none _, some g => some (g.2.convert N g.1 t)
  | assign (some op) _, some g => (combined? N op (t, old) g).map fun z => z.2.convert N z.1 t
  | assign _ _, none => none
  | step s _ _, _ =>
    match old with
    | .number (.word w) => some (.number (.word (next s w)))
    | _ => none

/-- The value of the expression. -/
def result (old new : Datum R) : Update → Datum R
  | step _ true _ => old
  | _ => new

variable {Γ : Signatures} {u : Update} {e : Expr} {z : Operand}

/-- The walk over an update: its target, its right side, and the rest. -/
theorem run_cases (h : (Lowering.expr Γ (u.expr e)).run b = .ok (.ok z, b')) :
    ∃ x b₁ y b₂, (Lowering.expr Γ e).run b = .ok (.ok x, b₁) ∧
      (u.source Γ).run b₁ = .ok (.ok y, b₂) ∧
      (u.finish e.pos e.render x y).run b₂ = .ok (.ok z, b') := by
  cases u with
  | assign op y =>
    rw [expr, Lowering.expr] at h
    obtain ⟨x, b₁, hx, h⟩ := bind_succeeds h
    rw [Lowering.assign] at h
    split at h
    · cases h
    next name isConst htarget =>
      cases isConst with
      | true => cases h
      | false =>
        obtain ⟨y', b₂, hy, h⟩ := bind_succeeds h
        refine ⟨x, b₁, some y', b₂, hx, ?_, h⟩
        change Except.bind ((Lowering.expr Γ y).run b₁) _ = _
        rw [hy]
        rfl
  | step s post pos =>
    cases post with
    | true =>
      rw [expr, Lowering.expr] at h
      obtain ⟨x, b₁, hx, h⟩ := bind_succeeds h
      exact ⟨x, b₁, none, b₁, hx, rfl, h⟩
    | false =>
      rw [expr, Lowering.expr] at h
      obtain ⟨x, b₁, hx, h⟩ := bind_succeeds h
      exact ⟨x, b₁, none, b₁, hx, rfl, h⟩

end Update

/-! ## The code of an update -/

/-- The value of an operand, converted implicitly to a type, is a value of the type. -/
theorem carries_valueAs_fits (hx : x.Reads N b.draft v w) (hw : w.Fits x.type) :
    Carries N (valueAs x t) b v fun y d' v' =>
      Known N d' v' y (w.convert N x.type t) ∧ (w.convert N x.type t).Fits t := by
  refine .bind (carries_valueOf hx) fun y b' v' _ hy => ?_
  split
  next heq =>
    subst heq
    rw [Datum.convert_self]
    exact .pure ⟨hy, hw⟩
  next =>
    split
    next hconv =>
      exact (Carries.emit (Emit.computes_convert x.type t hw hy)).weaken fun _ _ _ _ hz =>
        ⟨hz, hw.convert (.inl hconv)⟩
    next => exact .fail

/-- What an assignment keeps. -/
theorem carries_assigned {pos : Pos} {text : String} {op : Option ArithOp} {e : Expr}
    {y : Operand} {g : DataType × Datum R} (hx : x.Is N b.draft v (t, old))
    (hflat : t.isFlat = true) (hy : y.Is N b.draft v g)
    (hnew : (Update.assign op e).stored? N t old (some g) = some new) :
    Carries N (assigned pos op text x y) b v fun z d' v' =>
      Known N d' v' z new ∧ new.Fits t := by
  cases op with
  | none =>
    obtain rfl := Option.some.inj hnew
    have hvalue := carries_valueAs_fits (t := t) hy.reads (hy.type ▸ hy.fits)
    rw [hy.type] at hvalue
    have htype : x.type = t := hx.type
    rw [assigned, htype]
    exact .insteadOf hvalue
  | some op =>
    obtain ⟨c, hc, rfl⟩ := Option.map_eq_some_iff.1 hnew
    refine .bind (carries_arith hx hy hflat hc) fun z b₁ v₁ _ hz => ?_
    have hvalue := carries_valueAs_fits (t := t) hz.reads (hz.type ▸ hz.fits)
    rw [hz.type] at hvalue
    have htype : x.type = t := hx.type
    rw [htype]
    exact .insteadOf hvalue

theorem fits_word {k : ScalarType} {i : BitVec 32} (hk : k.isInteger = true) :
    (Datum.number (.word i) : Datum R).Fits (.scalar k) := by
  cases k <;> first | exact ⟨i, rfl⟩ | cases hk

/-- The code of a step computes the integer next to an integer. -/
theorem carries_next {s : Step} {k : ScalarType} {c : Value} {i : BitVec 32}
    (hc : Known N b.draft v c (.number (.word i))) (hk : k.isInteger = true) :
    Carries N (emit do Emit.binary s.op (.scalar k) c (← Emit.const (.scalar k) step.one)) b v
      fun z d' v' => Known N d' v' z (.number (.word (Update.next s i))) := by
  refine .emit (.bind (Emit.computes_const (t := .scalar k) (by simp)) fun one d₁ v₁ hev hone => ?_)
  refine Emit.computes_opcode (hev.known hc) hone ?_
  cases k <;> cases hk <;> cases s <;> rfl

/-- The code behind the right side of an update stores what should be stored, and changes nothing
else. -/
theorem Update.finish_executes {u : Update} {pos : Pos} {text : String} {y : Option Operand}
    {arg : Option (DataType × Datum R)} {z : Operand} (hx : x.Denotes N b.draft v p)
    (hold : p.read v.memory = some old) (hfits : old.Fits x.type) (hflat : x.type.isFlat = true)
    (hy : Option.Rel (Operand.Is N b.draft v) y arg)
    (hnew : u.stored? N x.type old arg = some new)
    (h : (u.finish pos text x y).run b = .ok (.ok z, b')) :
    ∃ v', Executes N b.draft v b'.draft v' ∧ p.Changes new v.memory v'.memory ∧
      z.Is N b'.draft v' (x.type, u.result old new) := by
  cases u with
  | assign op e =>
    cases hy with
    | none => cases op <;> cases hnew
    | @some y g hy =>
      obtain ⟨c, b₁, hc, h⟩ := bind_succeeds h
      obtain ⟨_, b₂, hstore, h⟩ := bind_succeeds h
      cases h
      -- the right side is combined with the old value, and then stored
      have hself : x.Is N b.draft v (x.type, old) := ⟨rfl, hx.reads hold, hfits⟩
      obtain ⟨v₁, hev, hknown, hnewfits⟩ := carries_assigned hself hflat hy hnew c b₁ hc
      obtain ⟨v', hcode, hchanges⟩ := storeTo_executes (hx.evolves hev) (hev.memory ▸ hold) hfits
        hknown hnewfits hstore
      exact ⟨v', hev.code.trans hcode, hev.memory ▸ hchanges, rfl, hcode.known hknown, hnewfits⟩
  | step s post stepPos =>
    obtain ⟨i, rfl, rfl⟩ : ∃ i, old = .number (.word i) ∧ new = .number (.word (next s i)) := by
      simp only [stored?] at hnew
      split at hnew
      next i => exact ⟨i, rfl, (Option.some.inj hnew).symm⟩
      next => cases hnew
    rw [finish, Lowering.step] at h
    split at h
    · cases h
    next name isConst htarget =>
    obtain ⟨-, h⟩ := check_succeeds h
    obtain ⟨hint, h⟩ := check_succeeds h
    obtain ⟨c, b₁, hc, h⟩ := bind_succeeds h
    obtain ⟨c', b₂, hc', h⟩ := bind_succeeds h
    obtain ⟨_, b₃, hstore, h⟩ := bind_succeeds h
    cases h
    -- only integers are stepped, and the old value is still known behind the store
    obtain ⟨k, hk, hint⟩ : ∃ k, x.type = .scalar k ∧ k.isInteger = true := by
      revert hint
      cases x.type <;> simp [DataType.isScalar, DataType.isInteger, DataType.component?]
    obtain ⟨v₁, hev₁, hc⟩ := carries_valueOf (hx.reads hold) c b₁ hc
    obtain ⟨v₂, hev₂, hc'⟩ := carries_next hc hint c' b₂ (hk ▸ hc')
    have hev := hev₁.trans hev₂
    have hnewfits : (Datum.number (.word (next s i)) : Datum R).Fits x.type := by
      rw [hk]
      exact fits_word hint
    obtain ⟨v', hcode, hchanges⟩ := storeTo_executes (hx.evolves hev) (hev.memory ▸ hold) hfits
      hc' hnewfits hstore
    refine ⟨v', hev.code.trans hcode, hev.memory ▸ hchanges, ?_⟩
    cases post with
    | true => exact ⟨rfl, hcode.known (hev₂.known hc), hfits⟩
    | false => exact ⟨rfl, hcode.known hc', hnewfits⟩

end Shader.Lowering
