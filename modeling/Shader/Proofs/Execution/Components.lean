import Shader.Proofs.Execution.Regions
import Shader.Proofs.Execution.Spots

/-!
# Updates of components

A component of a vector variable, a column of a matrix variable, or a component of a column is
assigned to in two parts. First its number is evaluated; then comes the right side, which may itself
change the variable, also through calls. The vector is read only when the value is stored, so the
code behind the right side changes this component in the memory as the right side has left it.
-/

namespace Shader.Ir

variable {R : Type} {N : Arithmetic R} {m : Module} {f : Func} {a : Activation R} {d d' : Draft}
  {v v' : View R} {s : Site} {t : Machine R} {x : Value} {w : Datum R}

/-! ## On the way to a later point -/

/-- Control is not at a later point as long as there is an instruction in between. -/
theorem Draft.AtPoint.not_later (h : d.AtPoint f a) {l : Label} {inst : Inst}
    (hpoint : d.point = some l) (hbody : inst.isAlloca = false)
    (hle : (d.func.put l inst).Le d'.func) (hle' : d'.func.Le f) : ¬ d'.AtPoint f a := by
  obtain ⟨-, k, b, e, hk, hb, he, hblock, hrest⟩ := h
  rintro ⟨-, k', c, e', hk', hc, he', hblock', hrest'⟩
  obtain rfl : k = l := Option.some.inj (hk.symm.trans hpoint)
  obtain rfl : k' = k := hblock'.symm.trans hblock
  obtain rfl := he.unique he'
  obtain ⟨c', hc', hgrown⟩ := hle.blocks k' _ (Func.at_put_self hb)
  obtain rfl := hc.unique hc'
  obtain ⟨e', he', hend⟩ := hle'.blocks k' c hc
  obtain rfl := he.unique he'
  have hmore : b.body.length < c.body.length := by
    have hlines : (d.func.withLine inst b).body = b.body ++ [{ reg := d.func.regs, inst }] := by
      simp [Func.withLine, Block.body, hbody]
    have hlen := hgrown.body.length_le
    rw [hlines, List.length_append] at hlen
    exact hlen
  have hlen := congrArg List.length (hrest.symm.trans hrest')
  have hroom := hend.body.length_le
  simp only [List.length_drop] at hlen
  omega

/-- On the way to a later point, code without branches comes first. -/
theorem Executes.arrives (h : Executes N d v d' v') (hopen : d.IsOpen) (hle : d'.func.Le s.func)
    (hle' : s.func.Le f) (ha : d.AtPoint f a) (hv : a.view v.memory = v)
    {below : List (Activation R)} {n : Nat}
    (harrives : m.Arrives N (Machine.Stands s f below) n ⟨a :: below, v.memory⟩ t) :
    ∃ a' k, m.Arrives N (Machine.Stands s f below) k ⟨a' :: below, v'.memory⟩ t ∧
      d'.AtPoint f a' ∧ a'.view v'.memory = v' := by
  induction h generalizing a n with
  | done => exact ⟨a, n, harrives, ha, hv⟩
  | @next d d' v v' l inst w memory hpoint hbody heffect hrest ih =>
    have hopen' : ({ d with func := d.func.put l inst } : Draft).IsOpen := hopen.put hpoint
    have hput := (hrest.le hopen').trans hle
    obtain ⟨rest, hnext, hbehind⟩ := ha.next hpoint hbody (hput.trans hle')
    have hstep : m.step N ⟨a :: below, _⟩ = _ := Module.step_compute hnext (hv.symm ▸ heffect)
    have hnot : ¬ Machine.Stands s f below ⟨a :: below, v.memory⟩ := by
      rintro ⟨a', hstack, hlater⟩
      obtain ⟨rfl, -⟩ := List.cons.inj hstack
      exact ha.not_later hpoint hbody hput hle' hlater
    obtain ⟨k, hk⟩ := harrives.behind hnot hstep
    have hview : (a.behind d.func.regs rest w).view memory = v.behind d.func.regs w memory := by
      rw [← hv]
      rfl
    exact ih hopen' hle (hbehind w) hview hk

/-- What is known of a value stays known where the older results have stayed. -/
theorem Known.later {a' : Activation R} {memory memory' : Memory R}
    (h : Known N d (a.view memory) x w) (hargs : a'.args = a.args)
    (hregs : ∀ r < d.func.regs, a'.regs r = a.regs r) (hle : d.func.regs ≤ d'.func.regs) :
    Known N d' (a'.view memory') x w where
  value := by
    rw [← h.value]
    cases x with
    | const c => rfl
    | global id content => rfl
    | param id i name type => exact congrArg (·[i]?) hargs
    | result id r name type => exact hregs r (h.old r rfl)
  old := fun r hr => Nat.lt_of_lt_of_le (h.old r hr) hle

/-- A value that refers to an instruction is known if it is there. -/
theorem Known.of_value {O : Outside} (hx : x.Known O d.func) (hd : d.func.Numbered)
    (hw : v.value N x = some w) : Known N d v x w := by
  refine ⟨hw, fun r hr => ?_⟩
  obtain ⟨l, b, hb, hmem⟩ := Func.WellTyped.result_mem hx hr
  exact hd.below r (Func.mem_regList.2 ⟨b, hb.mem, hmem⟩)

/-- The point of a site where writing can go on is in an open block. -/
theorem Site.Ready.draft_isOpen {ρ : Realm} (h : s.Ready ρ) : s.draft.IsOpen := by
  obtain ⟨l, b, hl, hb, ho, -⟩ := h.isOpen
  exact ⟨l, b, hl, hb, ho⟩

/-- The address of a column. -/
theorem Emit.computes_columnAddr {n : Dim} {addr idx : Value} {place : Place} {e : Datum R}
    {i : Nat} (ha : Known N d v addr (.address ⟨place, none⟩)) (he : Known N d v idx e)
    (hi : e.index? = some i) (hlt : i < n.size) :
    Computes N (columnAddr (.matrix n) addr idx) d v fun y d' v' =>
      Known N d' v' y (.address ⟨place, some i⟩) :=
  computes_of_computed rfl (by simp) (by
    simp [Inst.computed, Ty.ofData, ha.value, he.index hi, Datum.columnAt?, hlt])

end Shader.Ir

namespace Shader.Lowering

open Ir

/-! ## Targets -/

/-- The ways to name a component of a vector variable, or a column of a matrix variable. -/
inductive Target where
  /-- a component of a vector -/
  | member (base : Name) (sel : Swizzle) (selPos : Pos)
  /-- a component of a vector or a column of a matrix, by its number -/
  | index (base : Name) (i : Expr)
  /-- a component of a column -/
  | entry (base : Name) (i : Expr) (sel : Swizzle) (selPos : Pos)

/-- The walk over an index. -/
def indexNumber (Γ : Signatures) (i : Expr) : Lower Value := do indexValue i.pos (← expr Γ i)

namespace Target

/-- The expression. -/
def expr : Target → Expr
  | member base sel selPos => .member (.name base) sel selPos
  | index base i => .index base i
  | entry base i sel selPos => .member (.index base i) sel selPos

/-- The name of the variable. -/
def base : Target → Name
  | member base _ _ | index base _ | entry base _ _ _ => base

/-- The walk over the number of the component or of the column. -/
def number (Γ : Signatures) : Target → Lower Value
  | member _ sel _ => return .index sel.index
  | index _ i | entry _ i _ _ => indexNumber Γ i

/-- The part of a variable of a type, at an address, that the target with a number is, if there is
such a part. -/
def spot? : Target → DataType → Address → Nat → Option Spot
  | member _ _ _, .vector _ n, a, i => if i < n.size then some ⟨a, some i⟩ else none
  | index _ _, .vector _ n, a, i => if i < n.size then some ⟨a, some i⟩ else none
  | index _ _, .matrix n, ⟨place, none⟩, i =>
    if i < n.size then some ⟨⟨place, some i⟩, none⟩ else none
  | entry _ _ sel _, .matrix n, ⟨place, none⟩, i =>
    if i < n.size then some ⟨⟨place, some i⟩, some sel.index⟩ else none
  | _, _, _, _ => none

end Target

section

variable {α : Type} {O : Outside} {ρ : Realm} {Γ : Signatures} {x : Walk} {T : Target}
  {act : Lower α} {a : α} {b : Body}

/-- A walk over an expression that has succeeded has led on. -/
theorem Lowers.succeeds {Q : α → Walk → Prop} (h : Lowers O ρ act x Q) (hx : x.site.Ready ρ)
    (hrun : act.run x.body = .ok (.ok a, b)) : ∃ x', x'.body = b ∧ x.Leads O ρ x' ∧ Q a x' := by
  obtain ⟨r, x', hrun', -, hend⟩ := h hx hx.toSane
  obtain ⟨rfl, rfl⟩ := Prod.mk.inj (Except.ok.inj (hrun.symm.trans hrun'))
  exact ⟨x', rfl, hend⟩

/-- A walk goes on where it has succeeded. -/
theorem run_behind {β : Type} {f : α → Lower β} {b₀ : Body} (h : act.run b₀ = .ok (.ok a, b)) :
    (act >>= f).run b₀ = (f a).run b := by
  change Except.bind (act.run b₀) _ = _
  rw [h]
  rfl

/-- The walk over a target has come by a place where the number is known, and has ended with an
operand for the part of the variable. -/
structure Target.Walked (O : Outside) (ρ : Realm) (Γ : Signatures) (T : Target) (x : Walk)
    (sym : Symbol DataType Value) (idx : Value) (x₀ : Walk) (X : Operand) (x₁ : Walk) : Prop where
  /-- the number -/
  number : (do let sym ← resolve T.base; return (sym, ← T.number Γ)).run x.body =
    .ok (.ok (sym, idx), x₀.body)
  /-- it is known at an open point -/
  before : x.Leads O ρ x₀
  /-- and the walk leads on from there -/
  behind : x₀.Leads O ρ x₁
  /-- the variable is there -/
  handle : sym.handle.Known O x₀.site.func
  /-- and so is the number -/
  index : idx.Known O x₀.site.func
  /-- the operand can be used -/
  sound : X.Sound O x₁.site
  /-- and stored to -/
  target : ∃ t, X.target? = some t
  /-- it is a number or a vector -/
  flat : X.type.isFlat = true
  /-- the operand is the part -/
  denotes : ∀ {R : Type} (N : Arithmetic R) v A e i p,
    Known N x₀.body.draft v sym.handle (.address A) → Known N x₀.body.draft v idx e →
    e.index? = some i → T.spot? sym.type A i = some p →
    ∃ v', Evolves N x₀.body.draft v x₁.body.draft v' ∧ X.Denotes N x₁.body.draft v' p

/-- The component of a vector that is in a place. -/
theorem select_place {pos selPos q : Pos} {sel : Swizzle} {t : DataType} {addr : Value}
    {name : String} {isConst : Bool} {X : Operand} {b' : Body}
    (h : (select pos selPos sel (.place q t addr name isConst)).run b = .ok (.ok X, b')) :
    ∃ s n, t = .vector s n ∧ b' = b ∧ X = .lane pos s n addr (.index sel.index) name isConst := by
  unfold select at h
  split at h
  next s n ht =>
    obtain rfl : t = .vector s n := ht
    split at h
    · cases h
    · cases h
      exact ⟨s, n, rfl, rfl, rfl⟩
  next => cases h

/-- The walk over an element of a variable. -/
theorem index_walked {base : Name} {i : Expr} {X : Operand} (hΓ : SignaturesSound O Γ)
    (hσ : ScopesSound O x.site.func x.scopes) (hx : x.site.Ready ρ)
    (h : (expr Γ (.index base i)).run x.body = .ok (.ok X, b)) :
    ∃ sym idx x₀, (do let sym ← resolve base; return (sym, ← indexNumber Γ i)).run x.body =
        .ok (.ok (sym, idx), Walk.body x₀) ∧
      x.Leads O ρ x₀ ∧ x₀.site.Has O sym.handle (.pointer (Ty.ofData sym.type)) ∧
      x₀.site.Has O idx .i32 ∧
      ((∃ s n, sym.type = .vector s n ∧ b = x₀.body ∧
          X = .lane base.pos s n sym.handle idx base.text sym.isConst) ∨
        ∃ n addr x₁, sym.type = .matrix n ∧ x₁.body = b ∧ x₀.Leads O ρ x₁ ∧
          x₁.site.Has O addr (.pointer (Ty.ofData (.vector .float n))) ∧
          (emit (Emit.columnAddr (.matrix n) sym.handle idx)).run x₀.body =
            .ok (.ok addr, x₁.body) ∧
          X = .place base.pos (.vector .float n) addr base.text sym.isConst) := by
  rw [expr] at h
  change (resolve base >>= fun sym => element base sym (indexNumber Γ i)).run x.body = _ at h
  obtain ⟨sym, b₁, hsym, h⟩ := bind_succeeds h
  obtain ⟨x₁, rfl, hlead₁, -, hhandle⟩ := (lowers_resolve hσ).succeeds hx hsym
  -- the index is walked over behind the base, whether it picks a lane or a column
  have hnumber : ∀ {idx b₀}, (indexNumber Γ i).run x₁.body = .ok (.ok idx, b₀) →
      ∃ x₀, x₀.body = b₀ ∧ x₁.Leads O ρ x₀ ∧ x₀.site.Has O idx .i32 := fun hidx =>
    (Lowers.bind (lowers_expr hΓ i (hlead₁.scopesSound hσ)) fun a x' _ ha =>
      lowers_indexValue ha).succeeds hlead₁.site.ready hidx
  unfold element at h
  split at h
  next s n ht =>
    obtain ⟨idx, b₀, hidx, h⟩ := bind_succeeds h
    obtain ⟨x₀, rfl, hlead₀, hhas⟩ := hnumber hidx
    cases h
    refine ⟨sym, idx, x₀, ?_, hlead₁.trans hlead₀, hlead₀.site.has hhandle, hhas,
      .inl ⟨s, n, ht, rfl, rfl⟩⟩
    rw [run_behind hsym, run_behind hidx]
    rfl
  next n ht =>
    obtain ⟨idx, b₀, hidx, h⟩ := bind_succeeds h
    obtain ⟨x₀, rfl, hlead₀, hhas⟩ := hnumber hidx
    have hhandle₀ := hlead₀.site.has hhandle
    obtain ⟨addr, b', hcol, h⟩ := bind_succeeds h
    cases h
    rw [ht] at hcol
    obtain ⟨x', rfl, hlead', haddr⟩ :=
      (Lowers.emit (Emits.columnAddr (ht ▸ hhandle₀) hhas)).succeeds hlead₀.site.ready hcol
    refine ⟨sym, idx, x₀, ?_, hlead₁.trans hlead₀, hhandle₀, hhas,
      .inr ⟨n, addr, x', ht, rfl, hlead', haddr, hcol, rfl⟩⟩
    rw [run_behind hsym, run_behind hidx]
    rfl
  next => cases h

/-- The code behind the number of a column computes its address. -/
theorem known_columnAddr {R : Type} {N : Arithmetic R} {v : View R} {n : Dim}
    {handle idx addr : Value} {x₁ : Walk} {place : Place} {e : Datum R} {i : Nat}
    (h : (emit (Emit.columnAddr (.matrix n) handle idx)).run x.body = .ok (.ok addr, x₁.body))
    (ha : Known N x.body.draft v handle (.address ⟨place, none⟩))
    (he : Known N x.body.draft v idx e) (hi : e.index? = some i) (hlt : i < n.size) :
    ∃ v', Evolves N x.body.draft v x₁.body.draft v' ∧
      Known N x₁.body.draft v' addr (.address ⟨place, some i⟩) :=
  Carries.emit (Emit.computes_columnAddr ha he hi hlt) addr x₁.body h

theorem known_index {R : Type} {N : Arithmetic R} {d : Draft} {v : View R} {sel : Swizzle} :
    ∃ e, Known N d v (.index sel.index) e ∧ e.index? = some sel.index := by
  refine ⟨_, .const rfl, ?_⟩
  cases sel <;> rfl

theorem Target.walked {X : Operand} (hΓ : SignaturesSound O Γ)
    (hσ : ScopesSound O x.site.func x.scopes) (hx : x.site.Ready ρ)
    (h : (Lowering.expr Γ T.expr).run x.body = .ok (.ok X, b)) :
    ∃ sym idx x₀ x₁, Walk.body x₁ = b ∧ T.Walked O ρ Γ x sym idx x₀ X x₁ := by
  cases T with
  | member base sel selPos =>
    rw [expr, Lowering.expr] at h
    obtain ⟨y, b₁, hname, h⟩ := bind_succeeds h
    rw [Lowering.expr] at hname
    obtain ⟨sym, b₂, hsym, hpure⟩ := bind_succeeds hname
    cases hpure
    obtain ⟨x₀, rfl, hlead, -, hhandle⟩ := (lowers_resolve hσ).succeeds hx hsym
    obtain ⟨s, n, ht, rfl, rfl⟩ := select_place h
    refine ⟨sym, .index sel.index, x₀, x₀, rfl, ?_, hlead, .refl hlead.site.ready, hhandle.known,
      trivial, ⟨ht ▸ hhandle, .index _ O _⟩, ⟨_, rfl⟩, rfl, fun N v A e i p ha he hi hp => ?_⟩
    · exact run_behind hsym
    · refine ⟨v, .refl _ _, ?_⟩
      rw [ht, spot?] at hp
      split at hp
      · cases hp
        exact ⟨ha, e, i, he, hi, rfl⟩
      · cases hp
  | index base j =>
    obtain ⟨sym, idx, x₀, hrun, hlead, hhandle, hidx, ⟨s, n, ht, rfl, rfl⟩ |
      ⟨n, addr, x₁, ht, rfl, hlead₁, haddr, hcol, rfl⟩⟩ := index_walked hΓ hσ hx h
    · refine ⟨sym, idx, x₀, x₀, rfl, hrun, hlead, .refl hlead.site.ready, hhandle.known,
        hidx.known, ⟨ht ▸ hhandle, hidx⟩, ⟨_, rfl⟩, rfl, fun N v A e i p ha he hi hp => ?_⟩
      refine ⟨v, .refl _ _, ?_⟩
      rw [ht, spot?] at hp
      split at hp
      · cases hp
        exact ⟨ha, e, i, he, hi, rfl⟩
      · cases hp
    · refine ⟨sym, idx, x₀, x₁, rfl, hrun, hlead, hlead₁, hhandle.known, hidx.known,
        ⟨by simp, haddr⟩, ⟨_, rfl⟩, rfl, fun N v A e i p ha he hi hp => ?_⟩
      obtain ⟨place, _ | k⟩ := A <;> rw [ht] at hp
      · rw [spot?] at hp
        split at hp
        next hlt =>
          cases hp
          obtain ⟨v', hev, hknown⟩ := known_columnAddr hcol ha he hi hlt
          exact ⟨v', hev, hknown, rfl⟩
        next => cases hp
      · cases hp
  | entry base j sel selPos =>
    rw [expr, Lowering.expr] at h
    obtain ⟨y, b₁, hindex, h⟩ := bind_succeeds h
    obtain ⟨sym, idx, x₀, hrun, hlead, hhandle, hidx, ⟨s, n, ht, rfl, rfl⟩ |
      ⟨n, addr, x₁, ht, rfl, hlead₁, haddr, hcol, rfl⟩⟩ := index_walked hΓ hσ hx hindex
    · cases h
    · obtain ⟨s, n', hs, rfl, rfl⟩ := select_place h
      cases hs
      refine ⟨sym, idx, x₀, x₁, rfl, hrun, hlead, hlead₁, hhandle.known, hidx.known,
        ⟨haddr, .index _ O _⟩, ⟨_, rfl⟩, rfl, fun N v A e i p ha he hi hp => ?_⟩
      obtain ⟨place, _ | k⟩ := A <;> rw [ht] at hp
      · rw [spot?] at hp
        split at hp
        next hlt =>
          cases hp
          obtain ⟨v', hev, hknown⟩ := known_columnAddr hcol ha he hi hlt
          obtain ⟨c, hc, hci⟩ : ∃ e, Known N x₁.body.draft v' (.index sel.index) e ∧
              e.index? = some sel.index := known_index
          exact ⟨v', hev, hknown, c, _, hc, hci, rfl⟩
        next => cases hp
      · cases hp

/-! ## Updates -/

theorem lowers_source {u : Update} (hΓ : SignaturesSound O Γ)
    (hσ : ScopesSound O x.site.func x.scopes) :
    Lowers O ρ (u.source Γ) x fun y x' => ∀ a ∈ y, a.Sound O x'.site := by
  cases u with
  | assign op y =>
    refine (lowers_expr hΓ y hσ).map fun a x' _ ha a' ha' => ?_
    exact Option.mem_some.1 ha' ▸ ha
  | step s post pos => exact .pure fun _ ha => by cases ha

theorem lowers_finish {u : Update} {pos : Pos} {text : String} {X : Operand} {y : Option Operand}
    {t : String × Bool} (hX : X.Sound O x.site) (ht : X.target? = some t)
    (hy : ∀ a ∈ y, a.Sound O x.site) :
    Lowers O ρ (u.finish pos text X y) x fun _ _ => True := by
  cases u with
  | assign op e =>
    cases y with
    | none => exact .fail
    | some y =>
      refine .bind (lowers_assigned hX (hy y rfl)) fun v x' hlead hv => ?_
      exact .bind (.storeTo (hX.mono hlead.site) ht hv.2) fun _ _ _ _ => .pure trivial
  | step s post pos => exact (lowers_step hX).weaken fun _ _ _ _ => trivial

theorem noReturn_source {u : Update} :
    Frames (fun b b' => b.draft.NoReturn b'.draft) (u.source Γ) := by
  cases u with
  | assign op y => exact .bind framing_noReturn noReturn_expr fun _ => .pure framing_noReturn
  | step s post pos => exact .pure framing_noReturn

/-- A machine has evaluated the number of a target, and later the right side of an update. -/
structure Target.Evaluated {R : Type} (N : Arithmetic R) (m : Module) (f : Func) (T : Target)
    (sym : Symbol DataType Value) (idx : Value) (x₀ x₂ : Walk) (below : List (Activation R))
    (p : Spot) (a : Activation R) (memory : Memory R) : Prop where
  /-- the function has been written -/
  executable : f.Executable
  /-- it is one of the module -/
  func : m.func? f.id = some f
  /-- when the number is known, the target is a part of the variable; and then the machine comes to
  the end of the right side -/
  start : ∃ (a₀ : Activation R) (memory₀ : Memory R) (A : Address) (i : BitVec 32) (n : Nat),
    x₀.body.draft.AtPoint f a₀ ∧ a₀.value N sym.handle = some (.address A) ∧
    a₀.value N idx = some (.number (.word i)) ∧ T.spot? sym.type A i.toNat = some p ∧
    m.Arrives N (Machine.Stands x₂.site f below) n ⟨a₀ :: below, memory₀⟩ ⟨a :: below, memory⟩

theorem Operand.Denotes.later {R : Type} {N : Arithmetic R} {X : Operand} {d d' : Draft}
    {a a' : Activation R} {memory memory' : Memory R} {p : Spot}
    (h : X.Denotes N d (a.view memory) p) (hargs : a'.args = a.args)
    (hregs : ∀ r < d.func.regs, a'.regs r = a.regs r) (hle : d.func.regs ≤ d'.func.regs) :
    X.Denotes N d' (a'.view memory') p := by
  cases X with
  | nothing pos => exact h
  | value pos t y => exact h
  | place pos t addr name isConst => exact ⟨h.1.later hargs hregs hle, h.2⟩
  | lane pos s n addr idx name isConst =>
    obtain ⟨ha, e, i, he, hi, hl⟩ := h
    exact ⟨ha.later hargs hregs hle, e, i, he.later hargs hregs hle, hi, hl⟩

/-- At the end of the right side, the operand of the target is still the same part of the
variable. -/
theorem Target.Evaluated.denotes {R : Type} {N : Arithmetic R} {m : Module} {f : Func}
    {sym : Symbol DataType Value} {idx : Value} {x₀ x₁ x₂ : Walk} {below : List (Activation R)}
    {p : Spot} {a : Activation R} {memory : Memory R} {X : Operand}
    (hwalked : T.Walked O ρ Γ x sym idx x₀ X x₁) (hnum : x₀.site.func.Numbered)
    (hlead : x₁.site.Leads O x₁.site.realm x₂.site)
    (hstays : x₁.site.draft.NoReturn x₂.site.draft) (hle : x₂.site.func.Le f)
    (h : T.Evaluated N m f sym idx x₀ x₂ below p a memory) :
    x₂.site.draft.AtPoint f a ∧ X.Denotes N x₂.body.draft (a.view memory) p := by
  obtain ⟨a₀, memory₀, A, i, n, hpoint, hhandle, hidx, hp, harrives⟩ := h.start
  -- first the address of a column is computed
  obtain ⟨v', hev, hX⟩ := hwalked.denotes N (a₀.view memory₀) A _ _ p
    (.of_value hwalked.handle hnum hhandle) (.of_value hwalked.index hnum hidx) rfl hp
  obtain ⟨a₁, k, harrives₁, hpoint₁, hview⟩ := hev.code.arrives (s := x₂.site)
    hwalked.before.site.ready.draft_isOpen hlead.le hle hpoint rfl harrives
  -- then comes the region of the right side
  have hregion : x₁.site.Region O x₂.site f :=
    ⟨hlead, hwalked.behind.site.ready.inner, hstays, hle, h.executable⟩
  obtain ⟨a₂, hstack, hpoint₂, hargs, hregs⟩ := hregion.arrives h.func hpoint₁ harrives₁
  obtain ⟨rfl, -⟩ := List.cons.inj hstack
  exact ⟨hpoint₂, (hview ▸ hX).later hargs hregs hlead.le.regs⟩

/-- An assignment to a component, a step of one, or an assignment with an operator changes this
component in the memory as it is behind the right side, and nothing else. The value of the
expression is what has been stored, or what was there before a step that stands behind its
operand. -/
theorem updates_component {u : Update} {z : Operand} {b' : Body} (hΓ : SignaturesSound O Γ)
    (hσ : ScopesSound O x.site.func x.scopes) (hx : x.site.Ready ρ) (hnum : x.site.func.Numbered)
    (h : (expr Γ (u.expr T.expr)).run x.body = .ok (.ok z, b')) :
    ∃ sym idx x₀ X x₁ y x₂,
      (do let sym ← resolve T.base; return (sym, ← T.number Γ)).run x.body =
        .ok (.ok (sym, idx), Walk.body x₀) ∧
      (expr Γ T.expr).run x.body = .ok (.ok X, Walk.body x₁) ∧
      (u.source Γ).run x₁.body = .ok (.ok y, Walk.body x₂) ∧
      ∀ (R : Type) (N : Arithmetic R) (m : Module) (f : Func) (below : List (Activation R))
        (p : Spot) (a : Activation R) (memory : Memory R) (old new : Datum R)
        (arg : Option (DataType × Datum R)), b'.draft.func.Le f →
        T.Evaluated N m f sym idx x₀ x₂ below p a memory →
        p.read memory = some old → old.Fits X.type →
        Option.Rel (Operand.Is N x₂.body.draft (a.view memory)) y arg →
        u.stored? N X.type old arg = some new →
        ∃ a' memory', m.Reaches N ⟨a :: below, memory⟩ ⟨a' :: below, memory'⟩ ∧
          b'.draft.AtPoint f a' ∧ p.Changes new memory memory' ∧
          z.Is N b'.draft (a'.view memory') (X.type, u.result old new) := by
  obtain ⟨X, b₁, y, b₂, hX, hy, hfinish⟩ := Update.run_cases h
  obtain ⟨sym, idx, x₀, x₁, rfl, hwalked⟩ := Target.walked hΓ hσ hx hX
  have hready₁ := hwalked.behind.site.ready
  have hσ₁ := hwalked.behind.scopesSound (hwalked.before.scopesSound hσ)
  obtain ⟨x₂, rfl, hlead, hsound⟩ := (lowers_source hΓ hσ₁).succeeds hready₁.inner hy
  obtain ⟨t, ht⟩ := hwalked.target
  obtain ⟨x₃, rfl, hlead₃, -⟩ := (lowers_finish (hwalked.sound.mono hlead.site) ht hsound).succeeds
    hlead.site.ready hfinish
  refine ⟨sym, idx, x₀, X, x₁, y, x₂, hwalked.number, hX, hy,
    fun R N m f below p a memory old new arg hle hrun hold hfits harg hnew => ?_⟩
  -- numbers that were given before the right side still stand for the same behind it
  have hnum₀ := Steps.numbered hwalked.before.site.steps hx.tidy hnum
  have hopen : x₂.body.draft.IsOpen := hlead.site.ready.draft_isOpen
  obtain ⟨hpoint, hdenotes⟩ := Target.Evaluated.denotes hwalked hnum₀ hlead.site
    (noReturn_source _ _ _ hy) (hlead₃.site.le.trans hle) hrun
  obtain ⟨v', hcode, hchanges, hz⟩ := Update.finish_executes hdenotes hold hfits hwalked.flat harg
    hnew hfinish
  obtain ⟨a', hreach, hpoint', hview⟩ := hcode.reaches hopen hle hpoint rfl below
  exact ⟨a', v'.memory, hreach, hpoint', hchanges, hview.symm ▸ hz⟩

end

/-! ## A variable with two components -/

/-- A global variable of two integers. -/
def pairSymbol : Symbol DataType Value where
  name := "v"
  type := .vector .int .two
  handle := .global ⟨"v", 0⟩ (Ty.ofData (.vector .int .two))
  isConst := false

/-- What there is beside a function. -/
def pairOutside : Outside := ⟨[⟨⟨"v", 0⟩, .vector .int .two, .plain, []⟩], fun _ => none⟩

/-- The second component is stored to the first one, and meanwhile becomes the next number. -/
def pairUpdate : Update := .assign none (.postStep .inc (.member (.name ⟨"v", {}⟩) .y {}))

/-- The first component. -/
def pairTarget : Target := .member ⟨"v", {}⟩ .x {}

/-- A component of the variable. -/
def pairSpot (i : Nat) : Spot := ⟨⟨.global ⟨"v", 0⟩, none⟩, some i⟩

/-- The variable holds one and two. -/
def pairMemory : Memory Int := ⟨fun _ => some (.vector [.word 1, .word 2]), 0⟩

/-- The instructions of the update; the last three are its own. -/
def pairInsts : List Inst :=
  let pair := Ty.ofData (.vector .int .two)
  let v : Value := .global ⟨"v", 0⟩ pair
  let result (i : Nat) (τ : Ty) : Value := .result ⟨"f", 0⟩ i "" τ
  [.load pair v, .extractElement (result 0 pair) (.index 1),
    .binary .add (result 1 .i32) (.int 1), .load pair v,
    .insertElement (result 3 pair) (result 2 .i32) (.index 1), .store (result 4 pair) v,
    .load pair v, .insertElement (result 6 pair) (result 1 .i32) (.index 0),
    .store (result 7 pair) v]

/-- The block that they are in. -/
def pairLabel : Label := ⟨⟨"f", 0⟩, 0, "entry"⟩

/-- Its first instructions. -/
def pairLines (k : Nat) : List Line := (pairInsts.take k).mapIdx fun reg inst => { reg, inst }

/-- A walk after a number of instructions, and of names. -/
def pairWalk (k names : Nat) : Walk where
  body := {
    draft := {
      func := {
        id := ⟨"f", 0⟩, result := .void, params := []
        blocks := [{ label := pairLabel, lines := pairLines k }]
        regs := k, labels := 1, names := [("entry", 1)], last := some pairLabel }
      point := some pairLabel }
    scopes := { inner := [], root := [pairSymbol] }
    bound := List.replicate names (⟨"v", {}⟩, .vector .int .two) }
  given := fun _ => ∅

/-- Where the points of the walk are in the end. -/
theorem atPoint_pairWalk {a : Activation Int} {k names : Nat}
    (hk : ({ label := pairLabel, lines := pairLines k } : Block).body.length = k) :
    (pairWalk k names).body.draft.AtPoint (pairWalk 9 2).body.draft.func a ↔
      a.func = ⟨"f", 0⟩ ∧ a.block = pairLabel ∧ a.rest = (pairLines 9).drop k := by
  constructor
  · rintro ⟨hfunc, l, b, b', hl, hb, hb', hblock, hrest⟩
    obtain rfl := Option.some.inj hl
    obtain rfl := Option.some.inj hb.1
    obtain rfl := Option.some.inj hb'.1
    rw [hk] at hrest
    exact ⟨hfunc, hblock, hrest⟩
  · rintro ⟨hfunc, hblock, hrest⟩
    refine ⟨hfunc, _, _, _, rfl, ⟨rfl, rfl⟩, ⟨rfl, rfl⟩, hblock, ?_⟩
    rw [hk]
    exact hrest

/-- What the right side does to the second component is kept, and the first one becomes what the
second one was. -/
theorem updates_two_components : ∃ z b' a a' memory',
    (expr (fun _ => none) (pairUpdate.expr pairTarget.expr)).run (pairWalk 0 0).body =
      .ok (.ok z, b') ∧ b'.draft.func.activation [] = some a ∧
    Module.Reaches { funcs := [b'.draft.func] } .whole ⟨[a], pairMemory⟩ ⟨[a'], memory'⟩ ∧
    (pairSpot 0).read memory' = some (.number (.word 2)) ∧
    (pairSpot 1).read memory' = some (.number (.word 3)) ∧
    z.Is .whole b'.draft (a'.view memory') (.int, .number (.word 2)) := by
  have hdeclared : Func.Declared { id := ⟨"f", 0⟩, result := .void, params := [] } :=
    ⟨rfl, rfl, rfl, rfl, rfl⟩
  have hfresh : (pairWalk 0 0).site.Fresh := hdeclared.start.fresh rfl
  have hready : (pairWalk 0 0).site.Ready .all := hdeclared.start.ready rfl rfl
  have hσ : ScopesSound pairOutside (pairWalk 0 0).site.func (pairWalk 0 0).scopes := by
    refine List.forall_mem_singleton.2 (List.forall_mem_singleton.2 ⟨nofun, rfl, ?_, nofun⟩)
    exact ⟨_, List.mem_singleton.2 rfl, rfl, rfl⟩
  have hΓ : SignaturesSound pairOutside fun _ => none := fun _ _ h => by cases h
  have hrun : (expr (fun _ => none) (pairUpdate.expr pairTarget.expr)).run (pairWalk 0 0).body =
    .ok (.ok (.value {} .int (.result ⟨"f", 0⟩ 1 "" .i32)), (pairWalk 9 2).body) := rfl
  obtain ⟨x', hx', hlead, -⟩ := (lowers_expr hΓ _ hσ).succeeds hready hrun
  have hexecutable : x'.body.draft.func.Executable :=
    ⟨Steps.tidy hlead.site.steps hfresh.tidy,
      Steps.shaped hlead.site.steps hfresh.tidy hfresh.shaped,
      Steps.numbered hlead.site.steps hfresh.tidy hfresh.numbered,
      Steps.slotsFirst hlead.site.steps hfresh.tidy hfresh.slotsFirst⟩
  rw [hx'] at hexecutable
  obtain ⟨sym, idx, x₀, X, x₁, y, x₂, hnumber, hX, hy, hupdate⟩ :=
    updates_component hΓ hσ hready hfresh.numbered hrun
  -- the walks are known
  have hnumber' : (do
      let sym ← resolve pairTarget.base
      return (sym, ← pairTarget.number fun _ => none)).run (pairWalk 0 0).body =
    .ok (.ok (pairSymbol, .index 0), (pairWalk 0 1).body) := rfl
  obtain ⟨hsym, hx₀⟩ := Prod.mk.inj (Except.ok.inj (hnumber.symm.trans hnumber'))
  obtain ⟨rfl, rfl⟩ := Prod.mk.inj (Except.ok.inj hsym)
  have hX' : (expr (fun _ => none) pairTarget.expr).run (pairWalk 0 0).body = .ok (.ok
    (.lane {} .int .two pairSymbol.handle (.index 0) "v" false), (pairWalk 0 1).body) := rfl
  obtain ⟨hX, hx₁⟩ := Prod.mk.inj (Except.ok.inj (hX.symm.trans hX'))
  obtain rfl := Except.ok.inj hX
  rw [hx₁] at hy
  have hy' : (pairUpdate.source fun _ => none).run (pairWalk 0 1).body = .ok (.ok
    (some (.value {} .int (.result ⟨"f", 0⟩ 1 "" .i32))), (pairWalk 6 2).body) := rfl
  obtain ⟨hy, hx₂⟩ := Prod.mk.inj (Except.ok.inj (hy.symm.trans hy'))
  obtain rfl := Except.ok.inj hy
  -- and so is what the machine does until the end of the right side
  let f := (pairWalk 9 2).body.draft.func
  let m : Module := { funcs := [f] }
  let a₀ : Activation Int := ⟨⟨"f", 0⟩, [], fun _ => none, none, pairLabel, pairLines 9⟩
  obtain ⟨a, memory, hafter, hold, hreg, hother⟩ : ∃ a memory,
      m.after .whole 6 ⟨[a₀], pairMemory⟩ = some ⟨[a], memory⟩ ∧
      (pairSpot 0).read memory = some (.number (.word 1)) ∧
      a.regs 1 = some (.number (.word 2)) ∧
      (pairSpot 1).read memory = some (.number (.word 3)) := ⟨_, _, rfl, rfl, rfl, rfl⟩
  have harrives :
      m.Arrives .whole (Machine.Stands x₂.site f []) 6 ⟨[a₀], pairMemory⟩ ⟨[a], memory⟩ := by
    refine ⟨hafter, ⟨a, rfl, ?_⟩, fun k hk u hu ⟨c, hstack, hpoint⟩ => ?_⟩
    · rw [Walk.site, hx₂, atPoint_pairWalk rfl]
      cases hafter
      exact ⟨rfl, rfl, rfl⟩
    · rw [Walk.site, hx₂, atPoint_pairWalk rfl] at hpoint
      have hlen := congrArg List.length hpoint.2.2
      obtain rfl | rfl | rfl | rfl | rfl | rfl :
        k = 0 ∨ k = 1 ∨ k = 2 ∨ k = 3 ∨ k = 4 ∨ k = 5 := by omega
      all_goals cases hu; cases hstack; cases hlen
  have hstart : x₀.body.draft.AtPoint f a₀ := by
    rw [hx₀, atPoint_pairWalk rfl]
    exact ⟨rfl, rfl, rfl⟩
  have hold' : ∀ r, Value.reg? (.result ⟨"f", 0⟩ 1 "" .i32) = some r →
      r < x₂.body.draft.func.regs := by
    rw [hx₂]
    rintro _ ⟨⟩
    decide
  obtain ⟨a', memory', hreach, hpoint, hchanges, hz⟩ := hupdate Int .whole m f [] (pairSpot 0) a
    memory (.number (.word 1)) (.number (.word 2)) (some (.int, .number (.word 2))) (.refl _)
    ⟨hexecutable, rfl, a₀, pairMemory, ⟨.global ⟨"v", 0⟩, none⟩, 0, 6, hstart, rfl, rfl, rfl,
      harrives⟩
    hold ⟨1, rfl⟩ (.some ⟨rfl, ⟨hreg, hold'⟩, 2, rfl⟩) rfl
  refine ⟨_, _, a₀, a', memory', hrun, rfl, .trans ⟨6, hafter⟩ hreach, hchanges.holds, ?_, hz⟩
  exact (hchanges.others (pairSpot 1) (.lane (by decide))).trans hother

end Shader.Lowering
