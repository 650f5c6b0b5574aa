import Mathlib.Data.List.Perm.Subperm
import Shader.Proofs.Grammar.Occurrences
import Shader.Proofs.Lowering.Rounds
import Shader.Proofs.Scopes.Contents

/-!
# What walks note

A walk notes the type of every name that it resolves or declares. `Tells` says of a walk that what
it notes is about names among some atoms, each of them once, that only functions are noted without
values, and that its result has a property under every binding that agrees with the notes. It is
composed along the definition of a walk.

The property for an expression is that its type under the binding is the type of the operand. Since
the notes of a whole program are about different names, this is also so under all of them.
-/

namespace Shader.Lowering

open Ir
open scoped List

/-! ## Results -/

/-- If a walk succeeds, its result has a property. -/
def Gives {α : Type} (act : Lower α) (P : α → Prop) : Prop :=
  ∀ b a b', act.run b = .ok (.ok a, b') → P a

namespace Gives

variable {α β : Type} {act : Lower α} {f : α → Lower β} {P P' : α → Prop} {Q : β → Prop}

/-- What is given has the property. -/
theorem pure {a : α} (h : P a) : Gives (Pure.pure a) P := by
  rintro b _ _ ⟨⟩
  exact h

theorem fail {pos : Pos} {cause : Cause} : Gives (Lowering.fail pos cause) P := by
  rintro b _ _ ⟨⟩

/-- The second walk goes on from a result with the property of the first. -/
theorem bind (h : Gives act P) (hf : ∀ a, P a → Gives (f a) Q) : Gives (act >>= f) Q := by
  intro b c b' hrun
  obtain ⟨a, b₁, hact, hrest⟩ := bind_succeeds hrun
  exact hf a (h b a b₁ hact) b₁ c b' hrest

/-- The first of two walks does not matter. -/
theorem behind (hf : ∀ a, Gives (f a) Q) : Gives (act >>= f) Q :=
  bind (P := fun _ => True) (fun _ _ _ _ => trivial) fun a _ => hf a

theorem map {g : α → β} (h : ∀ a, Q (g a)) : Gives (g <$> act) Q := behind fun a => pure (h a)

/-- Less may be said of the result. -/
theorem weaken (h : Gives act P) (hP : ∀ a, P a → P' a) : Gives act P' :=
  fun b a b' hrun => hP a (h b a b' hrun)

theorem check {p : Prop} {_ : Decidable p} {pos : Pos} {cause : Cause} {rest : Unit → Lower α}
    (h : ¬ p → Gives (rest ()) P) :
    Gives (if p then Lowering.fail pos cause >>= rest else rest ()) P := by
  split
  · rintro b _ _ ⟨⟩
  next hp => exact h hp

end Gives

section

variable {pos : Pos} {x y l r : Operand}

/-- An operand without a value has no type. -/
theorem Operand.type_eq_void {x : Operand} (h : x.hasValue = false) : x.type = .void := by
  cases x with
  | nothing => rfl
  | _ => cases h

theorem gives_select {selPos : Pos} {sel : Swizzle} : Gives (select pos selPos sel x) fun a =>
    ∃ s n, x.type = .vector s n ∧ a.type = .scalar s := by
  unfold select
  split
  next s n htype =>
    split
    · exact .fail
    · split
      · exact .pure ⟨s, n, htype, rfl⟩
      · exact .behind fun _ => .behind fun _ => .pure ⟨s, n, htype, rfl⟩
  next => exact .fail

theorem gives_step {s : Step} {post : Bool} {text : String} :
    Gives (step pos s post text x) fun a =>
      a.type = x.type ∧ x.type.isScalar = true ∧ x.type.isInteger = true := by
  unfold step
  split
  · exact .fail
  · refine .check fun _ => .check fun hinteger => ?_
    refine .behind fun _ => .behind fun _ => .behind fun _ => .pure ⟨rfl, ?_⟩
    simpa using hinteger

theorem gives_unary {op : UnaryOp} : Gives (unary pos op x) fun a =>
    a.type = (if op = .not then .int else x.type) ∧ x.type.isNumeric = true := by
  unfold unary
  dsimp only
  split
  · exact .fail
  next hnumeric =>
    have hnumeric : x.type.isNumeric = true := by simpa using hnumeric
    split
    · split
      · exact .fail
      · exact .behind fun _ => .behind fun _ => .pure ⟨rfl, hnumeric⟩
    · split
      · exact .fail
      · exact .behind fun _ => .behind fun _ => .pure ⟨rfl, hnumeric⟩
    · refine .behind fun _ => ?_
      split
      next htype => exact .behind fun _ => .pure ⟨htype.symm ▸ rfl, hnumeric⟩
      next => exact .behind fun _ => .pure ⟨rfl, hnumeric⟩
    next hnot _ _ => exact .behind fun _ => .pure ⟨(if_neg hnot).symm, hnumeric⟩

theorem gives_arith {op : ArithOp} : Gives (arith pos op l r) fun _ =>
    l.type.isNumeric = true ∧ r.type.isNumeric = true := by
  unfold arith
  refine .check fun hnumeric => fun _ _ _ _ => ?_
  simp only [Bool.or_eq_true, Bool.not_eq_true', not_or, Bool.not_eq_false] at hnumeric
  exact hnumeric.1

theorem gives_arithExpr {op : ArithOp} : Gives (arithExpr pos op l r) fun a =>
    a.type = op.resultType l.type r.type ∧ l.type.isNumeric = true ∧ r.type.isNumeric = true :=
  .bind gives_arith fun _ h => .behind fun _ => .pure ⟨rfl, h⟩

theorem gives_comparison {op : RelOp} : Gives (comparison pos op l r) fun a => a.type = .int := by
  unfold comparison
  split
  · exact .fail
  · exact .fail
  · exact .check fun _ => .behind fun _ => .behind fun _ => .behind fun _ => .pure rfl

theorem gives_alternative : Gives (alternative? x) fun v => v.isSome = x.hasValue := by
  unfold alternative?
  split
  next h => exact .map fun _ => h.symm
  next h => exact .pure (by simpa using h)

theorem gives_otherwise : Gives (otherwise? pos x y) fun v => v.isSome = x.hasValue := by
  unfold otherwise?
  dsimp only
  split
  next h => exact .map fun _ => h.symm
  next h =>
    split
    · exact .fail
    · exact .pure (by simpa using h)

theorem gives_callResult {sig : Signature} {args : List Value} :
    Gives (callResult pos sig args) fun a => a.type = sig.result ∧
      (a.hasValue = true → a.type ≠ .void) := by
  refine .behind fun _ => .pure ?_
  split
  next h => exact ⟨h.symm, nofun⟩
  next h => exact ⟨rfl, fun _ => h⟩

end

/-! ## Notes -/

/-- No variable in scope is without values. -/
def Solid (σ : Scopes DataType Value) : Prop := ∀ f ∈ σ.frames, ∀ sym ∈ f, sym.type ≠ .void

theorem Solid.lookup? {σ : Scopes DataType Value} (h : Solid σ) {name : String}
    {sym : Symbol DataType Value} (hsym : σ.lookup? name = some sym) : sym.type ≠ .void :=
  Scopes.All.lookup? h hsym

theorem Solid.enter {σ : Scopes DataType Value} (h : Solid σ) : Solid σ.enter := Scopes.All.enter h

theorem Solid.exit? {σ σ' : Scopes DataType Value} (h : Solid σ) (hexit : σ.exit? = some σ') :
    Solid σ' := Scopes.All.exit? h hexit

theorem Solid.declare {σ σ' : Scopes DataType Value} {sym : Symbol DataType Value} (h : Solid σ)
    (hsym : sym.type ≠ .void) (hdeclare : σ.declare sym = .ok σ') : Solid σ' :=
  Scopes.All.declare h hsym hdeclare

/-- What has been noted from one state to another is about names among some atoms, each of them
once; only functions are noted without values. -/
structure Notes (as : List Atom) (b b' : Body) (notes : List (Name × DataType)) : Prop where
  /-- the notes are added -/
  bound : b'.bound = notes ++ b.bound
  /-- they are about names among the atoms -/
  items : (notes.map fun x => x.1.item) <+~ as.map Atom.item
  /-- no variable without values is declared -/
  solid : Solid b.scopes → Solid b'.scopes
  /-- only functions have no values -/
  typed : Solid b.scopes → ∀ x ∈ notes, x.2 = .void → .func x.1 ∈ as

namespace Notes

variable {as bs : List Atom} {b b' b'' : Body} {l m : List (Name × DataType)}

/-- Notes of two walks one after the other. -/
theorem trans (h : Notes as b b' l) (h' : Notes bs b' b'' m) : Notes (as ++ bs) b b'' (m ++ l) where
  bound := by rw [h'.bound, h.bound, List.append_assoc]
  items := by
    rw [List.map_append, List.map_append]
    exact List.perm_append_comm.subperm.trans (h.items.append h'.items)
  solid hb := h'.solid (h.solid hb)
  typed hb x hx hvoid := by
    rcases List.mem_append.1 hx with hx | hx
    · exact List.mem_append_right _ (h'.typed (h.solid hb) x hx hvoid)
    · exact List.mem_append_left _ (h.typed hb x hx hvoid)

/-- Among more atoms, all the more. -/
theorem mono (h : Notes as b b' l) (hitems : as.map Atom.item <+~ bs.map Atom.item)
    (hsubset : as ⊆ bs) : Notes bs b b' l :=
  ⟨h.bound, h.items.trans hitems, h.solid, fun hb x hx hvoid => hsubset (h.typed hb x hx hvoid)⟩

/-- The order of the atoms does not matter. -/
theorem perm (h : Notes as b b' l) (hperm : as ~ bs) : Notes bs b b' l :=
  h.mono (hperm.map _).subperm hperm.subset

end Notes

/-- Neither scopes nor notes change. -/
structure Quiet (b b' : Body) : Prop where
  /-- nothing is declared -/
  scopes : b'.scopes = b.scopes
  /-- nothing is noted -/
  bound : b'.bound = b.bound

/-- Code of any kind neither declares nor notes names. -/
theorem forking_quiet : Forking Quiet where
  refl _ := ⟨rfl, rfl⟩
  trans h₁ h₂ := ⟨h₂.scopes.trans h₁.scopes, h₂.bound.trans h₁.bound⟩
  append _ _ _ _ := ⟨rfl, rfl⟩
  draft _ _ := ⟨rfl, rfl⟩

theorem framing_quiet : Framing Quiet := forking_quiet.toFraming

theorem stepwise_quiet : Stepwise (Frames Quiet) := framing_quiet.stepwise

theorem evaluating_quiet : Evaluating (Frames Quiet) := stepwise_quiet.evaluating

/-- A quiet walk notes nothing. -/
theorem Quiet.notes {b b' : Body} (h : Quiet b b') : Notes [] b b' [] where
  bound := h.bound
  items := List.nil_subperm
  solid hb := h.scopes ▸ hb
  typed _ := nofun

/-! ## Walks -/

/-- A walk notes types of names among some atoms, and if it succeeds, its result has a property
under every binding that agrees with its notes. -/
def Tells {α : Type} (as : List Atom) (act : Lower α) (Q : Binding → α → Prop) : Prop :=
  ∀ b r b', act.run b = .ok (r, b') → ∃ notes, Notes as b b' notes ∧
    ∀ a, r = .ok a → ∀ β : Binding, (∀ x ∈ notes, β x.1 = some x.2) → Q β a

namespace Tells

variable {α β : Type} {act : Lower α} {f : α → Lower β} {as bs : List Atom}
  {P P' : Binding → α → Prop} {Q : Binding → β → Prop}

theorem mono (h : Tells as act P) (hitems : as.map Atom.item <+~ bs.map Atom.item)
    (hsubset : as ⊆ bs) : Tells bs act P := by
  intro b r b' hrun
  obtain ⟨notes, hnotes, hresult⟩ := h b r b' hrun
  exact ⟨notes, hnotes.mono hitems hsubset, hresult⟩

/-- The order of the atoms does not matter. -/
theorem perm (h : Tells as act P) (hperm : as ~ bs) : Tells bs act P :=
  h.mono (hperm.map _).subperm hperm.subset

theorem weaken (h : Tells as act P) (hP : ∀ γ a, P γ a → P' γ a) : Tells as act P' := by
  intro b r b' hrun
  obtain ⟨notes, hnotes, hresult⟩ := h b r b' hrun
  exact ⟨notes, hnotes, fun a ha γ hγ => hP γ a (hresult a ha γ hγ)⟩

/-- A walk behind another: what it says of its result may rest on what is known of the first one,
since the binding that agrees with all the notes agrees with those of the first. -/
theorem bind (h : Tells as act P) (hf : ∀ a, Tells bs (f a) fun γ c => P γ a → Q γ c) :
    Tells (as ++ bs) (act >>= f) Q := by
  intro b r b' hrun
  obtain ⟨e, hact, rfl⟩ | ⟨a, b₁, hact, hrest⟩ := bind_cases hrun
  · obtain ⟨notes, hnotes, -⟩ := h b _ b' hact
    refine ⟨notes, hnotes.mono ?_ (List.subset_append_left as bs), nofun⟩
    rw [List.map_append]
    exact (List.sublist_append_left _ _).subperm
  · obtain ⟨notes, hnotes, hresult⟩ := h b _ b₁ hact
    obtain ⟨notes', hnotes', hresult'⟩ := hf a b₁ r b' hrest
    refine ⟨notes' ++ notes, hnotes.trans hnotes', fun c hc γ hγ => ?_⟩
    rw [List.forall_mem_append] at hγ
    exact hresult' c hc γ hγ.1 (hresult a rfl γ hγ.2)

/-- A quiet walk tells what its result is like. -/
theorem quiet {P : α → Prop} (h : Frames Quiet act) (hgives : Gives act P) :
    Tells [] act fun _ => P := by
  intro b r b' hrun
  refine ⟨[], (h b r b' hrun).notes, ?_⟩
  rintro a rfl γ -
  exact hgives b a b' hrun

/-- A quiet walk in front of another that depends on its result. -/
theorem quietWith {P : α → Prop} (h : Frames Quiet act) (hgives : Gives act P)
    (hf : ∀ a, Tells bs (f a) fun γ c => P a → Q γ c) : Tells bs (act >>= f) Q :=
  (quiet h hgives).bind hf

/-- A quiet walk in front of another. -/
theorem quietThen (h : Frames Quiet act) (hf : ∀ a, Tells bs (f a) Q) : Tells bs (act >>= f) Q :=
  quietWith (P := fun _ => True) h (fun _ _ _ _ => trivial) fun a =>
    (hf a).weaken fun _ _ h _ => h

/-- A quiet walk behind another. -/
theorem thenQuiet (h : Tells as act P) (hf : ∀ a, Frames Quiet (f a))
    (hgives : ∀ a, Gives (f a) fun c => ∀ γ, P γ a → Q γ c) : Tells as (act >>= f) Q := by
  have hbind := h.bind fun a => (quiet (hf a) (hgives a)).weaken fun γ c hc => hc γ
  rwa [List.append_nil] at hbind

theorem fail {pos : Pos} {cause : Cause} : Tells as (Lowering.fail pos cause) P := by
  rintro b _ _ ⟨⟩
  exact ⟨[], ⟨rfl, List.nil_subperm, id, fun _ => nofun⟩, nofun⟩

theorem pure {a : α} (h : ∀ γ, P γ a) : Tells as (Pure.pure a) P := by
  rintro b _ _ ⟨⟩
  refine ⟨[], ⟨rfl, List.nil_subperm, id, fun _ => nofun⟩, ?_⟩
  rintro _ ⟨⟩ γ -
  exact h γ

theorem check {p : Prop} {_ : Decidable p} {pos : Pos} {cause : Cause} {rest : Unit → Lower α}
    (h : ¬ p → Tells as (rest ()) P) :
    Tells as (if p then Lowering.fail pos cause >>= rest else rest ()) P := by
  split
  · rintro b _ _ ⟨⟩
    exact ⟨[], ⟨rfl, List.nil_subperm, id, fun _ => nofun⟩, nofun⟩
  next hp => exact h hp

/-- The type of the name of a function, or of a variable with values. -/
theorem bindName {n : Name} {t : DataType} {a : Atom} (ha : a.item = n.item)
    (ht : t = .void → a = .func n) :
    Tells [a] (Lowering.bindName n t) fun γ _ => γ n = some t := by
  rintro b _ _ ⟨⟩
  refine ⟨[(n, t)], ⟨rfl, ?_, id, fun _ => ?_⟩, fun _ _ γ hγ => hγ _ (List.mem_singleton_self _)⟩
  · rw [List.map_singleton, List.map_singleton, ha]
  · exact List.forall_mem_singleton.2 fun hvoid => List.mem_singleton.2 (ht hvoid).symm

/-- Notes outlive their scope. -/
theorem inScope (h : Tells as act P) : Tells as (Lowering.inScope act) P := by
  intro b r b' hrun
  obtain ⟨b₁, σ, hact, hexit, rfl⟩ := inScope_cases hrun
  obtain ⟨notes, hnotes, hresult⟩ := h _ _ _ hact
  refine ⟨notes, ⟨hnotes.bound, hnotes.items, fun hb => ?_, fun hb => ?_⟩, hresult⟩
  · exact (hnotes.solid hb.enter).exit? hexit
  · exact hnotes.typed hb.enter

end Tells

/-! ## Operations that walk -/

/-- The declaration that a name refers to. -/
theorem tells_resolve {n : Name} : Tells [.var n] (resolve n) fun γ sym => γ n = some sym.type := by
  intro b r b' hrun
  rw [ExceptT.run, resolve, get_bind] at hrun
  rcases hsym : b.scopes.lookup? n.text with _ | sym
  · rw [hsym] at hrun
    exact Tells.fail b r b' hrun
  · rw [hsym] at hrun
    cases hrun
    refine ⟨[(n, sym.type)], ⟨rfl, ?_, id, fun hb => ?_⟩, ?_⟩
    · rfl
    · exact List.forall_mem_singleton.2 fun hvoid => absurd hvoid (hb.lookup? hsym)
    · rintro _ ⟨⟩ γ hγ
      exact hγ _ (List.mem_singleton_self _)

section

variable {pos : Pos} {as bs : List Atom}

/-- Logical operators give truth values as numbers. -/
theorem tells_logical {op : LogicOp} {l : Operand} {rhs : Lower Operand}
    (h : Tells as rhs fun _ _ => True) :
    Tells as (logical pos op l rhs) fun _ a => a.type = .int := by
  have hemit : ∀ {α : Type} {act : Emit α}, Frames Quiet (emit act) := .fork forking_quiet
  have hquiet := framing_quiet
  refine .quietThen (stepwise_truthOf evaluating_quiet) fun lc => ?_
  split
  · refine h.thenQuiet (fun _ => ?_) fun _ => ?_
    · refine .bind hquiet (stepwise_truthOf evaluating_quiet) fun _ => ?_
      refine .bind hquiet hemit fun _ => ?_
      exact .pure hquiet
    · exact .behind fun _ => .behind fun _ => .pure fun _ _ => rfl
  · refine .quietThen hemit fun _ => .quietThen hemit fun _ => .quietThen hemit fun _ => ?_
    refine .quietThen hemit fun _ => .quietThen hemit fun _ => h.thenQuiet (fun _ => ?_) fun _ => ?_
    · refine .bind hquiet (stepwise_truthOf evaluating_quiet) fun _ => ?_
      refine .bind hquiet hemit fun _ => ?_
      refine .bind hquiet hemit fun _ => .bind hquiet hemit fun _ => ?_
      exact .bind hquiet hemit fun _ => .pure hquiet
    · refine .behind fun _ => .behind fun _ => .behind fun _ => .behind fun _ => .behind fun _ => ?_
      exact .pure fun _ _ => rfl

/-- An assignment has the type of its target, which has a value. -/
theorem tells_assign {op : Option ArithOp} {text : String} {x : Operand} {rhs : Lower Operand}
    (h : Tells as rhs fun _ _ => True) : Tells as (assign pos op text x rhs) fun _ a =>
      a.type = x.type ∧ x.hasValue = true := by
  have hquiet := framing_quiet
  unfold assign
  split
  · exact .fail
  next name isConst htarget =>
    have hvalue : x.hasValue = true := by
      cases x with
      | nothing => cases htarget
      | _ => rfl
    refine .check fun _ => h.thenQuiet (fun y => ?_) fun y => ?_
    · refine .bind hquiet (stepwise_assigned evaluating_quiet) fun _ => ?_
      exact .bind hquiet (stepwise_storeTo stepwise_quiet) fun _ => .pure hquiet
    · exact .behind fun _ => .behind fun _ => .pure fun _ _ => ⟨rfl, hvalue⟩

/-- A choice has the type of its first alternative, and a value only if that has one. -/
theorem tells_choice {c : Value} {yes no : Lower Operand} {P : Binding → Operand → Prop}
    (hyes : Tells as yes P) (hno : Tells bs no fun _ _ => True) :
    Tells (as ++ bs) (choice pos c yes no) fun γ a =>
      ∃ x, P γ x ∧ a.type = x.type ∧ (a.hasValue = true → x.hasValue = true) := by
  have hemit : ∀ {α : Type} {act : Emit α}, Frames Quiet (emit act) := .fork forking_quiet
  have hquiet := framing_quiet
  refine .quietThen hemit fun _ => .quietThen hemit fun _ => .quietThen hemit fun _ => ?_
  refine .quietThen hemit fun _ => .quietThen hemit fun _ => hyes.bind fun x => ?_
  refine .quietWith (stepwise_alternative evaluating_quiet) gives_alternative fun xv => ?_
  refine .quietThen hemit fun _ => .quietThen hemit fun _ => .quietThen hemit fun _ => ?_
  refine hno.thenQuiet (fun y => ?_) fun y => ?_
  · refine .bind hquiet (stepwise_otherwise evaluating_quiet) fun _ => ?_
    refine .bind hquiet hemit fun _ => ?_
    refine .bind hquiet hemit fun _ => .bind hquiet hemit fun _ => ?_
    split
    · exact .bind hquiet hemit fun _ => .pure hquiet
    · exact .pure hquiet
  · refine .bind gives_otherwise fun yv hyv => ?_
    refine .behind fun _ => .behind fun _ => .behind fun _ => ?_
    split
    · exact .behind fun _ => .pure fun γ _ hxv hx => ⟨x, hx, rfl, fun _ => hxv.symm⟩
    next hnone =>
      refine .pure fun γ _ hxv hx => ⟨x, hx, ?_, nofun⟩
      -- the alternatives have values both or neither
      have hvalue : x.hasValue = false := by
        by_contra hvalue
        rw [Bool.not_eq_false] at hvalue
        obtain ⟨v, rfl⟩ := Option.isSome_iff_exists.1 (hxv.trans hvalue)
        obtain ⟨w, rfl⟩ := Option.isSome_iff_exists.1 (hyv.trans hvalue)
        exact hnone v w rfl rfl
      exact (Operand.type_eq_void hvalue).symm

/-- An element of a variable has the type that indexing gives. -/
theorem tells_element {base : Name} {sym : Symbol DataType Value} {index : Lower Value}
    (h : Tells as index fun _ _ => True) : Tells as (element base sym index) fun _ a =>
      sym.type.indexed? = some a.type ∧ a.type ≠ .void := by
  unfold element
  split
  next s n htype =>
    refine h.thenQuiet (fun _ => .pure framing_quiet) fun _ => .pure fun _ _ => ?_
    rw [htype]
    exact ⟨rfl, nofun⟩
  next n htype =>
    refine h.thenQuiet (fun _ => ?_) fun _ => .behind fun _ => .pure fun _ _ => ?_
    · exact .bind framing_quiet (.fork forking_quiet) fun _ => .pure framing_quiet
    · rw [htype]
      exact ⟨rfl, nofun⟩
  next => exact .fail

end

/-! ## Expressions -/

/-- No variable among the atoms is without values. -/
def Valued (γ : Binding) (as : List Atom) : Prop := ∀ n, .var n ∈ as → γ n ≠ some .void

theorem Valued.mono {γ : Binding} {as bs : List Atom} (h : Valued γ bs) (hsubset : as ⊆ bs) :
    Valued γ as := fun n hn => h n (hsubset hn)

/-- The type of an expression under a binding is that of an operand, which has one if it has a
value. -/
structure Fits (γ : Binding) (e : Expr) (a : Operand) : Prop where
  /-- the types are the same -/
  type : e.type? γ = some a.type
  /-- a value has a type -/
  value : Valued γ e.atoms → a.hasValue = true → a.type ≠ .void

/-- A type with values is all that has to be known. -/
theorem Fits.of_type {γ : Binding} {e : Expr} {a : Operand} {t : DataType}
    (htype : e.type? γ = some t)
    (ha : a.type = t) (ht : t ≠ .void) : Fits γ e a :=
  ⟨ha ▸ htype, fun _ _ => ha ▸ ht⟩

/-- Numeric types have values. -/
theorem ne_void_of_isNumeric {t : DataType} (h : t.isNumeric = true) : t ≠ .void := by
  rintro rfl
  cases h

/-- A step behind an integer has the type of the integer. -/
theorem stepType_eq {t : DataType} (hscalar : t.isScalar = true) (hinteger : t.isInteger = true) :
    DataType.stepType (some t) = t := by
  cases t with
  | scalar s =>
    cases s with
    | int => rfl
    | uint => rfl
    | _ => cases hinteger
  | _ => cases hscalar

theorem ne_void_of_isScalar {t : DataType} (h : t.isScalar = true) : t ≠ .void := by
  rintro rfl
  cases h

/-- The type of an arithmetic operation is that of one of its operands. -/
theorem isNumeric_resultType {op : ArithOp} {l r : DataType} (hl : l.isNumeric = true)
    (hr : r.isNumeric = true) : (op.resultType l r).isNumeric = true := by
  unfold ArithOp.resultType
  split
  · exact hr
  · exact hr
  · split
    · exact hr
    · exact hl
  · exact hl

section

variable {Γ : Signatures}

mutual

/-- A walk over an expression notes types of its names, and the operand has the type of the
expression under them. -/
theorem tells_expr : ∀ e : Expr, Tells e.atoms (expr Γ e) fun γ a => Fits γ e a
  | .name n => by
    unfold expr
    refine tells_resolve.thenQuiet (fun _ => .pure framing_quiet) fun sym => .pure fun γ hsym => ?_
    refine ⟨hsym, fun hvalued _ hvoid => hvalued n List.mem_cons_self ?_⟩
    rw [hsym]
    exact congrArg some hvoid
  | .number pos kind text => by
    unfold expr
    split
    · exact .fail
    · exact .pure fun γ => .of_type rfl rfl nofun
  | .bool pos value => by
    unfold expr
    exact .pure fun γ => .of_type rfl rfl nofun
  | .call fn args => by
    unfold expr
    split
    · exact .fail
    next sig _ =>
      -- the name of a function is noted with its result, which is what the call is typed by
      have hfn : Tells [.func fn] (bindName fn sig.result) fun γ _ => γ fn = some sig.result :=
        .bindName rfl fun _ => rfl
      refine hfn.bind fun _ => .check fun _ => ?_
      refine (tells_arguments args sig.params).thenQuiet (fun _ => ?_) fun _ => ?_
      · exact .bind framing_quiet (.fork forking_quiet) fun _ => .pure framing_quiet
      · refine gives_callResult.weaken fun a ha γ _ hfn => ⟨?_, fun _ => ha.2⟩
        rw [ha.1]
        exact hfn
  | .construct pos type args => by
    unfold expr
    refine .check fun hvoid => .check fun _ => ?_
    refine (tells_exprs args).thenQuiet (fun _ => ?_) fun _ => ?_
    · exact .bind framing_quiet (stepwise_build evaluating_quiet) fun _ => .pure framing_quiet
    · exact .behind fun _ => .pure fun γ _ => .of_type rfl rfl hvoid
  | .index base i => by
    unfold expr
    refine tells_resolve.bind fun sym => (tells_element ?_).weaken fun γ a ha hsym => ?_
    · exact (tells_expr i).thenQuiet (fun _ => stepwise_indexValue evaluating_quiet)
        fun _ _ _ _ _ _ _ => trivial
    · refine .of_type ?_ rfl ha.2
      rw [Expr.type?, hsym]
      exact ha.1
  | .member x sel selPos => by
    unfold expr
    refine (tells_expr x).thenQuiet (fun _ => stepwise_select evaluating_quiet) fun a => ?_
    refine gives_select.weaken fun c hc γ hx => ?_
    obtain ⟨s, n, htype, hc⟩ := hc
    refine .of_type ?_ hc nofun
    rw [Expr.type?, hx.type, htype]
    rfl
  | .unary pos op x => by
    unfold expr
    refine (tells_expr x).thenQuiet (fun a => ?_) fun a => ?_
    · cases op with
      | step s => exact stepwise_step stepwise_quiet
      | _ => exact stepwise_unary evaluating_quiet
    · cases op with
      | step s =>
        refine gives_step.weaken fun c hc γ hx => ?_
        exact ⟨hc.1 ▸ hx.type, fun _ _ => hc.1 ▸ ne_void_of_isScalar hc.2.1⟩
      | not =>
        exact gives_unary.weaken fun c hc γ hx => .of_type rfl hc.1 nofun
      | _ =>
        refine gives_unary.weaken fun c hc γ hx => .of_type hx.type hc.1 ?_
        exact ne_void_of_isNumeric hc.2
  | .postStep s x => by
    unfold expr
    refine (tells_expr x).thenQuiet (fun _ => stepwise_step stepwise_quiet) fun a => ?_
    refine gives_step.weaken fun c hc γ hx => .of_type ?_ hc.1 (ne_void_of_isScalar hc.2.1)
    rw [Expr.type?, hx.type, stepType_eq hc.2.1 hc.2.2]
  | .binary op x y => by
    unfold expr
    cases op with
    | arith op =>
      refine (tells_expr x).bind fun l => (tells_expr y).thenQuiet (fun r => ?_) fun r => ?_
      · exact stepwise_arithExpr evaluating_quiet
      · refine gives_arithExpr.weaken fun a ha γ hy hx => .of_type ?_ ha.1 ?_
        · rw [Expr.type?, hx.type, hy.type]
          rfl
        · exact ne_void_of_isNumeric (isNumeric_resultType ha.2.1 ha.2.2)
    | rel op =>
      refine (tells_expr x).bind fun l => (tells_expr y).thenQuiet (fun r => ?_) fun r => ?_
      · exact stepwise_comparison evaluating_quiet
      · exact gives_comparison.weaken fun a ha γ _ _ => .of_type rfl ha nofun
    | logic op =>
      refine (tells_expr x).bind fun l => ?_
      refine (tells_logical ((tells_expr y).weaken fun _ _ _ => trivial)).weaken fun γ a ha _ => ?_
      exact .of_type rfl ha nofun
  | .assign op x y => by
    unfold expr
    refine (tells_expr x).bind fun l => ?_
    refine (tells_assign ((tells_expr y).weaken fun _ _ _ => trivial)).weaken fun γ a ha hx => ?_
    refine ⟨ha.1 ▸ hx.type, fun hvalued _ => ha.1 ▸ hx.value (hvalued.mono ?_) ha.2⟩
    exact List.subset_append_left _ _
  | .cond c x y => by
    unfold expr
    refine (tells_expr c).bind fun b => .quietThen (stepwise_truthOf evaluating_quiet) fun bit => ?_
    refine (tells_choice (tells_expr x) ((tells_expr y).weaken fun _ _ _ => trivial)).weaken ?_
    -- the type of a choice is that of its first operand
    rintro γ a ⟨l, hl, htype, hvalue⟩ -
    refine ⟨htype ▸ hl.type, fun hvalued ha => htype ▸ hl.value (hvalued.mono ?_) (hvalue ha)⟩
    exact List.subset_append_of_subset_right _ (List.subset_append_left _ _)
  | .seq first rest => by
    unfold expr
    refine (tells_expr first).bind fun b => (tells_sequence rest).weaken fun γ a ha hb => ?_
    refine ⟨ha.1 _ hb.type, fun hvalued => ha.2 (hb.value ?_) ?_⟩
    · exact hvalued.mono (List.subset_append_left _ _)
    · exact hvalued.mono (List.subset_append_right _ _)

/-- Several expressions note types of names in all of them. -/
theorem tells_exprs : ∀ es : List Expr, Tells (Expr.allAtoms es) (exprs Γ es) fun _ _ => True
  | [] => by
    unfold exprs
    exact .pure fun _ => trivial
  | e :: es => by
    unfold exprs
    refine (tells_expr e).bind fun _ => (tells_exprs es).thenQuiet (fun _ => .pure framing_quiet) ?_
    exact fun _ _ _ _ _ _ _ _ => trivial

/-- The arguments of a call note types of names in them. -/
theorem tells_arguments {func : String} : ∀ (es : List Expr) (ps : List Passing),
    Tells (Expr.allAtoms es) (arguments Γ func es ps) fun _ _ => True
  | [], _ => by
    unfold arguments
    exact .pure fun _ => trivial
  | e :: es, [] => by
    unfold arguments
    exact .pure fun _ => trivial
  | e :: es, p :: ps => by
    unfold arguments
    refine (tells_expr e).bind fun _ => .quietThen (stepwise_argument evaluating_quiet) fun _ => ?_
    refine (tells_arguments es ps).thenQuiet (fun _ => .pure framing_quiet) ?_
    exact fun _ _ _ _ _ _ _ _ => trivial

/-- The last of some expressions has the type of the whole, and the operand before them if there is
none. -/
theorem tells_sequence {before : Operand} : ∀ es : List Expr,
    Tells (Expr.allAtoms es) (sequence Γ before es) fun γ a =>
      (∀ t, t = some before.type → Expr.lastType? γ t es = some a.type) ∧
      ((before.hasValue = true → before.type ≠ .void) → Valued γ (Expr.allAtoms es) →
        a.hasValue = true → a.type ≠ .void)
  | [] => by
    unfold sequence
    exact .pure fun γ => ⟨fun _ ht => ht, fun h _ => h⟩
  | e :: es => by
    unfold sequence
    refine (tells_expr e).bind fun b => (tells_sequence es).weaken fun γ a ha hb => ?_
    refine ⟨fun _ _ => ha.1 _ hb.type, fun _ hvalued => ha.2 (hb.value ?_) ?_⟩
    · exact hvalued.mono (List.subset_append_left _ _)
    · exact hvalued.mono (List.subset_append_right _ _)

end

end

end Shader.Lowering
