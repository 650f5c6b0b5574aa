import Shader.Proofs.Grammar.Occurrences
import Shader.Proofs.Lowering.Frames
import Shader.Proofs.Lowering.Progress

/-!
# Properties of walks over statements that are shown step by step

Besides what expressions do, a walk over statements asks whether there is a point, reserves room for
variables, leaves the function, declares names and opens scopes. What holds of these steps and is
kept when they are composed holds of the walk over every statement and over the body of every
function, and `Walking` collects what has to be shown for it.

Room is reserved under the names of variables, so that a property of walks may depend on what
variables are called.
-/

namespace Shader.Lowering

open Ir

/-! ## Composition -/

/-- A property of walks that is shown step by step of the declarations of variables, if they are
called by names of a kind. -/
structure Declaring (W : String → Prop) (C : {α : Type} → Lower α → Prop) : Prop
    extends Splitting C, Resolving C where
  /-- room may be reserved for a variable -/
  alloca : ∀ {t : DataType} {name : String}, W name → C (Lowering.emit (Emit.alloca t name))
  /-- names may be declared -/
  declare : ∀ {n : Name} {t : DataType} {addr : Value} {isConst : Bool},
    C (Lowering.declare n t addr isConst)

/-- A property of walks over statements that is shown step by step, if variables are called by names
of a kind. -/
structure Walking (W : String → Prop) (C : {α : Type} → Lower α → Prop) : Prop
    extends Jumping C, Resolving C where
  /-- it may be asked whether there is a point -/
  isReachable : C (Lowering.emit Emit.isReachable)
  /-- and which blocks are open -/
  openBlocks : C (Lowering.emit Emit.openBlocks)
  /-- writing may go on nowhere -/
  setNone : C (Lowering.emit (Emit.setPoint none))
  /-- room may be reserved for a variable -/
  alloca : ∀ {t : DataType} {name : String}, W name → C (Lowering.emit (Emit.alloca t name))
  /-- control may leave the function -/
  ret : ∀ {v : Option Value}, C (Lowering.emit (Emit.ret v))
  /-- names may be declared -/
  declare : ∀ {n : Name} {t : DataType} {addr : Value} {isConst : Bool},
    C (Lowering.declare n t addr isConst)
  /-- and scopes opened -/
  inScope : ∀ {α : Type} {act : Lower α}, C act → C (Lowering.inScope act)

section

variable {α β : Type} {W : String → Prop} {C : {α : Type} → Lower α → Prop} {Γ : Signatures}

/-! ### Declarations -/

namespace Declaring

variable (hD : Declaring W C)
include hD

theorem expr {e : Expr} : C (Lowering.expr Γ e) :=
  stepwise_expr hD.toStepwise hD.toResolving (.inr hD.toSplitting)

theorem discard {act : Lower α} (h : C act) : C (Functor.discard act) :=
  hD.bind h fun _ => hD.pure

theorem varDecl {d : VarDecl} (h : W d.name.text) : C (Lowering.varDecl Γ d) := by
  have hkeep : ∀ v, C (do
      let addr ← emit (Emit.alloca d.type d.name.text)
      emit (Emit.store v addr)
      Lowering.declare d.name d.type addr d.isConst) := fun v =>
    hD.bind (hD.alloca h) fun _ => hD.bind (hD.emit .store) fun _ => hD.declare
  unfold Lowering.varDecl
  refine hD.check (hD.check ?_)
  dsimp only
  split
  · exact hD.bind hD.pure hkeep
  · refine hD.bind hD.expr fun x => ?_
    exact hD.bind (stepwise_initialValue hD.evaluating) hkeep

theorem condition {c : Expr} : C (Lowering.condition Γ c) :=
  hD.bind hD.expr fun _ => stepwise_truthOf hD.evaluating

theorem forInit {i : ForInit} (h : ∀ n, Atom.var n ∈ i.atoms → W n.text) :
    C (Lowering.forInit Γ i) := by
  cases i with
  | nothing => exact hD.pure
  | var d => exact hD.varDecl (h _ List.mem_cons_self)
  | expr x => exact hD.discard hD.expr

theorem bindParams {id : FuncId} : ∀ {ps : List Param} {i : Nat},
    (∀ p ∈ ps, W p.name.text) → C (Lowering.bindParams id i ps)
  | [], _, _ => hD.pure
  | p :: ps, i, h => by
    obtain ⟨hp, hps⟩ := List.forall_mem_cons.1 h
    have hrest : ∀ addr, C (do
        Lowering.declare p.name p.type addr false
        Lowering.bindParams id (i + 1) ps) := fun _ =>
      hD.bind hD.declare fun _ => bindParams hps
    unfold Lowering.bindParams
    dsimp only
    split
    · exact hD.bind hD.pure hrest
    · rw [emit_bind]
      refine hD.bind (hD.bind (hD.alloca hp) fun addr => ?_) hrest
      rw [emit_bind]
      exact hD.bind (hD.emit .store) fun _ => hD.emit .pure

/-- The body of a function, if it holds of its statements. -/
theorem bodyCode {c : Context} {f : FuncDecl} (hparams : ∀ p ∈ f.params, W p.name.text)
    (hstmts : C (stmts c.sigs f.result none f.body)) : C (Lowering.bodyCode c f) := by
  unfold Lowering.bodyCode
  refine hD.bind (hD.bindParams hparams) fun _ => ?_
  split
  · exact hD.bind (hD.discard (hD.emit .append)) fun _ => hstmts
  · exact hstmts

end Declaring

variable (hW : Walking W C)
include hW

namespace Walking

theorem declaring : Declaring W C where
  toSplitting := hW.toJumping.splitting
  toResolving := hW.toResolving
  alloca := hW.alloca
  declare := hW.declare

theorem expr {e : Expr} : C (Lowering.expr Γ e) := hW.declaring.expr

theorem discard {act : Lower α} (h : C act) : C (Functor.discard act) := hW.declaring.discard h

/-- Writing one thing after another. -/
theorem emitBind {act : Emit α} {f : α → Emit β} (h : C (emit act)) (hf : ∀ a, C (emit (f a))) :
    C (emit (act >>= f)) := by
  rw [emit_bind]
  exact hW.bind h hf

theorem move {p : Option Label} : C (emit (Emit.setPoint p)) := by
  cases p with
  | none => exact hW.setNone
  | some l => exact hW.setPoint

theorem emitPure {a : α} : C (emit (Pure.pure a)) := hW.emit .pure

end Walking

/-! ### Parts of statements -/

theorem walking_brIfReachable {l : Label} : C (brIfReachable l) := by
  refine hW.emitBind hW.isReachable fun here => ?_
  split
  · exact hW.emitBind hW.br fun _ => hW.emitPure
  · exact hW.emitPure

theorem walking_branchTo {pos : Pos} {token : Token} {loop : Option Loop} :
    C (branchTo pos token loop) := by
  cases loop with
  | none => exact hW.fail
  | some loop => exact hW.emitBind hW.br fun _ => hW.move

theorem walking_returnFrom {want : DataType} {pos : Pos} {result : Option Expr} :
    C (returnFrom Γ want pos result) := by
  unfold returnFrom
  cases result with
  | none =>
    refine hW.check ?_
    exact hW.bind hW.ret fun _ => hW.move
  | some x =>
    refine hW.check ?_
    refine hW.bind hW.expr fun _ => ?_
    exact hW.bind (stepwise_valueAs hW.evaluating) fun _ => hW.bind hW.ret fun _ => hW.move

theorem walking_loopTest {c : Option Expr} {body leave : Label} :
    C (loopTest Γ c body leave) := by
  cases c with
  | none => exact hW.br
  | some c => exact hW.bind hW.declaring.condition fun _ => hW.condBr

/-! ### Statements -/

variable {want : DataType}

mutual

/-- What holds of the steps holds of the walk over a statement. -/
theorem walking_stmt : ∀ {loop : Option Loop} {s : Stmt}, (∀ n, Atom.var n ∈ s.atoms → W n.text) →
    C (stmt Γ want loop s)
  | _, .empty _, _ => by
    unfold stmt
    exact hW.pure
  | _, .expr x, _ => by
    unfold stmt
    exact hW.discard hW.expr
  | _, .var d, h => by
    unfold stmt
    exact hW.declaring.varDecl (h _ List.mem_cons_self)
  | _, .block _ body, h => by
    unfold stmt
    exact hW.inScope (walking_stmts h)
  | _, .ifThen _ c yes, h => by
    unfold stmt
    refine hW.bind hW.declaring.condition fun bit => hW.bind (hW.newBlock (by decide)) fun yes => ?_
    refine hW.bind (hW.newBlock (by decide)) fun done => ?_
    refine hW.bind (hW.emitBind hW.condBr fun _ => hW.move) fun _ => ?_
    refine hW.bind (hW.inScope (walking_stmt fun n hn => ?_)) fun _ => ?_
    · exact h n (List.mem_append_right _ hn)
    · exact hW.bind (hW.discard (walking_brIfReachable hW)) fun _ => hW.move
  | _, .ifElse _ c yes no, h => by
    have hyes : ∀ n, Atom.var n ∈ yes.atoms → W n.text := fun n hn =>
      h n (List.mem_append_right _ (List.mem_append_left _ hn))
    have hno : ∀ n, Atom.var n ∈ no.atoms → W n.text := fun n hn =>
      h n (List.mem_append_right _ (List.mem_append_right _ hn))
    unfold stmt
    refine hW.bind hW.declaring.condition fun bit => hW.bind (hW.newBlock (by decide)) fun yes => ?_
    refine hW.bind (hW.newBlock (by decide)) fun no => ?_
    refine hW.bind (hW.newBlock (by decide)) fun done => ?_
    refine hW.bind (hW.emitBind hW.condBr fun _ => hW.move) fun _ => ?_
    refine hW.bind (hW.inScope (walking_stmt hyes)) fun _ => ?_
    refine hW.bind (walking_brIfReachable hW) fun _ => hW.bind hW.move fun _ => ?_
    refine hW.bind (hW.inScope (walking_stmt hno)) fun _ => ?_
    exact hW.bind (walking_brIfReachable hW) fun _ => hW.move
  | _, .forLoop _ init c post body, h => by
    have hinit : ∀ n, Atom.var n ∈ init.atoms → W n.text := fun n hn =>
      h n (List.mem_append_left _ hn)
    have hbody : ∀ n, Atom.var n ∈ body.atoms → W n.text := fun n hn =>
      h n (List.mem_append_right _ (List.mem_append_right _ (List.mem_append_right _ hn)))
    unfold stmt
    refine hW.inScope (hW.bind (hW.declaring.forInit hinit) fun _ => ?_)
    refine hW.bind (hW.newBlock (by decide)) fun _ => hW.bind (hW.newBlock (by decide)) fun _ => ?_
    refine hW.bind (hW.newBlock (by decide)) fun _ => hW.bind (hW.newBlock (by decide)) fun _ => ?_
    refine hW.bind (hW.emitBind hW.br fun _ => hW.move) fun _ => ?_
    refine hW.bind (walking_loopTest hW) fun _ => hW.bind hW.move fun _ => ?_
    refine hW.bind (hW.inScope (walking_stmt hbody)) fun _ => ?_
    refine hW.bind (hW.discard (walking_brIfReachable hW)) fun _ => hW.bind hW.move fun _ => ?_
    cases post with
    | none => exact hW.emitBind hW.br fun _ => hW.move
    | some post =>
      exact hW.bind (hW.discard hW.expr) fun _ => hW.emitBind hW.br fun _ => hW.move
  | _, .whileLoop _ c body, h => by
    unfold stmt
    refine hW.bind (hW.newBlock (by decide)) fun _ => hW.bind (hW.newBlock (by decide)) fun _ => ?_
    refine hW.bind (hW.newBlock (by decide)) fun _ => ?_
    refine hW.bind (hW.emitBind hW.br fun _ => hW.move) fun _ => ?_
    refine hW.bind (walking_loopTest hW) fun _ => hW.bind hW.move fun _ => ?_
    refine hW.bind (hW.inScope (walking_stmt fun n hn => ?_)) fun _ => ?_
    · exact h n (List.mem_append_right _ hn)
    · exact hW.bind (hW.discard (walking_brIfReachable hW)) fun _ => hW.move
  | _, .doLoop _ body c, h => by
    unfold stmt
    refine hW.bind (hW.newBlock (by decide)) fun _ => hW.bind (hW.newBlock (by decide)) fun _ => ?_
    refine hW.bind (hW.newBlock (by decide)) fun _ => ?_
    refine hW.bind (hW.emitBind hW.br fun _ => hW.move) fun _ => ?_
    refine hW.bind (hW.inScope (walking_stmt fun n hn => ?_)) fun _ => ?_
    · exact h n (List.mem_append_left _ hn)
    refine hW.bind (hW.discard (walking_brIfReachable hW)) fun _ => hW.bind hW.move fun _ => ?_
    exact hW.bind (walking_loopTest hW) fun _ => hW.move
  | _, .branch pos token, _ => by
    unfold stmt
    exact walking_branchTo hW
  | _, .ret pos result, _ => by
    unfold stmt
    exact walking_returnFrom hW

theorem walking_stmts : ∀ {loop : Option Loop} {ss : List Stmt},
    (∀ n, Atom.var n ∈ Stmt.allAtoms ss → W n.text) → C (stmts Γ want loop ss)
  | _, [], _ => by
    unfold stmts
    exact hW.pure
  | _, s :: ss, h => by
    unfold stmts
    refine hW.bind hW.isReachable fun here => ?_
    split
    · refine hW.bind (walking_stmt fun n hn => ?_) fun _ => walking_stmts fun n hn => ?_
      · exact h n (List.mem_append_left _ hn)
      · exact h n (List.mem_append_right _ hn)
    · exact hW.pure

end

/-! ### Bodies -/

/-- What holds of the steps holds of the walk over the body of a function. -/
theorem walking_bodyCode {c : Context} {f : FuncDecl}
    (h : ∀ n, Atom.var n ∈ (Def.func f).atoms → W n.text) : C (bodyCode c f) := by
  have hparams : ∀ p ∈ f.params, W p.name.text := fun p hp =>
    h p.name (List.mem_cons_of_mem _ (List.mem_append_left _ (List.mem_map.2 ⟨p, hp, rfl⟩)))
  have hstmts : C (stmts c.sigs f.result none f.body) := walking_stmts hW fun n hn =>
    h n (List.mem_cons_of_mem _ (List.mem_append_right _ hn))
  exact hW.declaring.bodyCode hparams hstmts

/-- The end of a function, where every open block returns. -/
theorem walking_closeBlocks {t : DataType} : C (emit (closeBlocks t)) := by
  refine hW.emitBind hW.openBlocks fun ls => ?_
  induction ls with
  | nil => exact hW.emitPure
  | cons l ls ih =>
    exact hW.emitBind (hW.emitBind hW.move fun _ => hW.ret) fun _ => ih

end

/-! ## Relations between drafts -/

/-- A relation between drafts that all steps of writing keep. -/
structure Drafting (W : String → Prop) (R : Draft → Draft → Prop) : Prop where
  /-- nothing needs to be written -/
  refl : ∀ d, R d d
  /-- it goes on -/
  trans : ∀ {d d' d''}, R d d' → R d' d'' → R d d''
  /-- the point does not matter -/
  move : ∀ d p, R d { d with point := p }
  /-- it holds of instructions -/
  append : ∀ {inst d v d'}, Emit.append inst d = .ok (v, d') → R d d'
  /-- of terminators -/
  terminate : ∀ {term d u d'}, Emit.terminate term d = .ok (u, d') → R d d'
  /-- of blocks -/
  newBlock : ∀ {hint d l d'}, hint ∈ blockHints → Emit.newBlock hint d = .ok (l, d') → R d d'
  /-- and of the room of variables -/
  alloca : ∀ {t name d v d'}, W name → Emit.alloca t name d = .ok (v, d') → R d d'

theorem Drafting.framing {W : String → Prop} {R : Draft → Draft → Prop} (hR : Drafting W R) :
    Framing fun b b' => R b.draft b'.draft :=
  ⟨fun b => hR.refl b.draft, hR.trans, fun _ _ _ => hR.append⟩

/-- What all steps of writing keep is kept by walks over statements. -/
theorem Drafting.walking {W : String → Prop} {R : Draft → Draft → Prop} (hR : Drafting W R) :
    Walking W (Frames fun b b' => R b.draft b'.draft) where
  toStepwise := hR.framing.stepwise
  toResolving := hR.framing.resolving fun b _ _ => hR.refl b.draft
  openPoint := .of_draft fun b _ _ h => draft_openPoint h ▸ hR.refl b.draft
  newBlock hint := .of_draft fun _ _ _ => hR.newBlock hint
  setPoint := .of_draft fun b _ _ h => by
    cases h
    exact hR.move b.draft _
  br := .of_draft fun _ _ _ => hR.terminate
  condBr := .of_draft fun _ _ _ => hR.terminate
  setNone := .of_draft fun b _ _ h => by
    cases h
    exact hR.move b.draft _
  isReachable := .of_draft fun b _ _ h => by
    cases h
    exact hR.refl b.draft
  openBlocks := .of_draft fun b _ _ h => by
    cases h
    exact hR.refl b.draft
  alloca hname := .of_draft fun _ _ _ => hR.alloca hname
  ret := .of_draft fun _ _ _ => hR.terminate
  declare b _ _ h := by
    obtain ⟨-, rfl⟩ | ⟨σ, -, -, rfl⟩ := declare_cases h <;> exact hR.refl _
  inScope hact b r b' h := by
    obtain ⟨b₁, σ, hrun, -, rfl⟩ := inScope_cases h
    exact hact { b with scopes := b.scopes.enter } r b₁ hrun

end Shader.Lowering
