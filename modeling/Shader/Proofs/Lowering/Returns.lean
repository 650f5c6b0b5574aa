import Shader.Proofs.Lowering.Bodies
import Shader.Proofs.Lowering.Frontier
import Shader.Proofs.Lowering.Rounds
import Shader.Proofs.Lowering.Soundness

/-!
# Statements that always return

Whether a statement always returns is read off its form, and a walk finds out for itself whether
there is a point behind it. The two agree if control cannot leave the statement in another way. A
loop makes the only difference: it is taken to run at least once when its form is read, while there
is always a point behind it.

At the end of a function without a loop, control can be at the point and nowhere else: the blocks
behind statements that always return stay open, but control is not sent to them. So the return that
is put in the place of a missing one is carried out exactly if the statements do not always return.
-/

namespace Shader

namespace Stmt

mutual

/-- Whether a `break` or a `continue` of a statement goes out of it. -/
def strays : Stmt → Bool
  | block _ body => someStrays body
  | ifThen _ _ yes => strays yes
  | ifElse _ _ yes no => strays yes || strays no
  | branch _ _ => true
  | _ => false

/-- Whether a `break` or a `continue` goes out of one of the statements. -/
def someStrays : List Stmt → Bool
  | [] => false
  | s :: ss => strays s || someStrays ss

end

mutual

/-- Whether a statement has a loop. -/
def loops : Stmt → Bool
  | block _ body => someLoops body
  | ifThen _ _ yes => loops yes
  | ifElse _ _ yes no => loops yes || loops no
  | forLoop _ _ _ _ _ => true
  | whileLoop _ _ _ => true
  | doLoop _ _ _ => true
  | _ => false

/-- Whether one of the statements has a loop. -/
def someLoops : List Stmt → Bool
  | [] => false
  | s :: ss => loops s || someLoops ss

end

end Stmt

namespace Lowering

open Ir

variable {α β : Type} {Γ : Signatures} {want : DataType}

/-! ## The point behind a statement -/

/-- There is a point. -/
def Standing (d : Draft) : Prop := d.point.isSome = true

theorem jumping_standing : Jumping (Maintains Standing) where
  toStepwise := stepwise_maintains fun h hrun => by
    obtain ⟨l, _, -, -, -, rfl⟩ := Emit.append_cases hrun
    exact h
  openPoint := maintains_openPoint
  newBlock _ := .emit fun _ _ _ h hrun => by
    obtain ⟨-, rfl⟩ := Emit.newBlock_cases hrun
    exact h
  setPoint := .emit fun _ _ _ _ hrun => by
    cases hrun
    rfl
  br := .emit fun _ _ _ h hrun => by
    obtain ⟨l, -, rfl⟩ := Emit.terminate_cases hrun
    exact h
  condBr := .emit fun _ _ _ h hrun => by
    obtain ⟨l, -, rfl⟩ := Emit.terminate_cases hrun
    exact h

theorem declaring_standing : Declaring (fun _ => True) (Maintains Standing) where
  toSplitting := jumping_standing.splitting
  toResolving := resolving_maintains
  alloca _ := .emit fun _ _ _ h hrun => by
    obtain ⟨-, -, rfl⟩ := Emit.alloca_cases hrun
    exact h
  declare := maintains_declare

/-- Writing goes on at a block. -/
theorem standing_setPoint {P : Body → Prop} {l : Label} :
    Brings P (emit (Emit.setPoint (some l))) fun _ b => Standing b.draft :=
  .emit fun _ _ _ _ hrun => by
    cases hrun
    rfl

/-- It may be asked whether there is a point. -/
theorem brings_isReachable {P : Body → Prop} :
    Brings P (emit Emit.isReachable) fun here b => here = b.draft.point.isSome ∧ P b :=
  .emit fun _ _ _ hb hrun => by
    cases hrun
    exact ⟨rfl, hb⟩

/-- Whatever is done first does not matter if what follows needs nothing. -/
theorem Brings.after {P : Body → Prop} {Q : β → Body → Prop} {act : Lower α} {f : α → Lower β}
    (h : ∀ a, Brings (fun _ => True) (f a) Q) : Brings P (act >>= f) Q :=
  .bind (Q := fun _ _ => True) (fun _ _ _ _ _ => trivial) h

/-- Whether there is a point behind code agrees with whether it always returns: there is none only
if it does, and if it does and has no loop there is none. -/
structure Settled (returns loops here : Bool) : Prop where
  /-- it returns if there is no point -/
  returning : here = false → returns = true
  /-- and without a loop there is no point if it returns -/
  ending : loops = false → returns = true → here = false

namespace Settled

variable {returns loops here returns' loops' here' : Bool}

/-- There is a point behind what does not always return and behind loops. -/
theorem standing (hloops : returns = true → loops = true) (h : here = true) :
    Settled returns loops here where
  returning hnone := by simp [h] at hnone
  ending hloop hreturns := by simp [hloops hreturns] at hloop

/-- Code that is skipped behind what always returns. -/
theorem seq (h : Settled returns loops here) (hthen : here = true → Settled returns' loops' here')
    (hskip : here = false → here' = false) :
    Settled (returns || returns') (loops || loops') here' where
  returning hnone := by
    cases hhere : here with
    | false => rw [h.returning hhere, Bool.true_or]
    | true => rw [(hthen hhere).returning hnone, Bool.or_true]
  ending hloop hreturns := by
    obtain ⟨hloop, hloop'⟩ := Bool.or_eq_false_iff.1 hloop
    cases hhere : here with
    | false => exact hskip hhere
    | true =>
      rcases Bool.or_eq_true_iff.1 hreturns with hreturns | hreturns
      · rw [h.ending hloop hreturns] at hhere
        cases hhere
      · exact (hthen hhere).ending hloop' hreturns

/-- Two branches that go on at the same place. -/
theorem both (h : Settled returns loops here) (h' : Settled returns' loops' here') :
    Settled (returns && returns') (loops || loops') (here || here') where
  returning hnone := by
    obtain ⟨hnone, hnone'⟩ := Bool.or_eq_false_iff.1 hnone
    rw [h.returning hnone, h'.returning hnone', Bool.and_true]
  ending hloop hreturns := by
    obtain ⟨hloop, hloop'⟩ := Bool.or_eq_false_iff.1 hloop
    obtain ⟨hreturns, hreturns'⟩ := Bool.and_eq_true_iff.1 hreturns
    rw [h.ending hloop hreturns, h'.ending hloop' hreturns', Bool.or_false]

end Settled

/-- Where there is no point, statements are not walked over. -/
theorem maintains_stmts_none {loop : Option Loop} {ss : List Stmt} :
    Maintains (fun d => d.point.isSome = false) (stmts Γ want loop ss) := by
  cases ss with
  | nil =>
    unfold stmts
    exact .pure fun _ hb => hb
  | cons s ss =>
    unfold stmts
    refine .bind brings_isReachable fun here => ?_
    split
    next hhere => exact fun b _ _ hb _ => by simp [hhere, hb.2] at hb
    next => exact .pure fun _ hb => hb.2

theorem brings_returnFrom {P : Body → Prop} {pos : Pos} {result : Option Expr} :
    Brings P (returnFrom Γ want pos result) fun _ b => b.draft.point.isSome = false := by
  have hnone : ∀ {P : Body → Prop}, Brings P (emit (Emit.setPoint none)) fun _ b =>
      b.draft.point.isSome = false := .emit fun _ _ _ _ hrun => by
    cases hrun
    rfl
  unfold returnFrom
  cases result with
  | none => exact .check fun _ => .after fun _ => hnone
  | some x => exact .check fun _ => .after fun _ => .after fun _ => .after fun _ => hnone

/-- Control goes behind a branch if there is a point. -/
theorem brings_merge {returns loops : Bool} {target : Label} :
    Brings (fun b => Settled returns loops b.draft.point.isSome) (brIfReachable target)
      fun here _ => Settled returns loops here ∧ True := by
  unfold brIfReachable
  rw [emit_bind]
  refine .bind brings_isReachable fun here b a b' hb hrun => ?_
  obtain ⟨a', d, hwritten, heq, -⟩ := emit_cases hrun
  cases heq
  have hsame : a = here := by
    cases here with
    | false =>
      cases hwritten
      rfl
    | true =>
      obtain ⟨_, d₁, -, hpure⟩ := Emit.bind_cases hwritten
      cases hpure
      rfl
  exact ⟨hsame ▸ hb.1 ▸ hb.2, trivial⟩

/-- A scope does not matter for the point. -/
theorem settled_inScope {returns loops : Bool} {act : Lower α}
    (h : Brings (fun b => Standing b.draft) act fun _ b =>
      Settled returns loops b.draft.point.isSome) :
    Brings (fun b => Standing b.draft) (inScope act) fun _ b =>
      Settled returns loops b.draft.point.isSome := by
  refine .inScope (h.weaken ?_ fun _ _ hb _ _ => hb)
  rintro _ ⟨b, hb, rfl⟩
  exact hb

mutual

/-- Whether there is a point behind a statement agrees with whether it always returns. -/
theorem settled_stmt : ∀ {loop : Option Loop} {s : Stmt}, loop = none ∨ s.strays = false →
    Brings (fun b => Standing b.draft) (stmt Γ want loop s) fun _ b =>
      Settled s.alwaysReturns s.loops b.draft.point.isSome
  | _, .empty _, _ => by
    unfold stmt
    exact .pure fun _ hb => .standing nofun hb
  | _, .expr x, _ => by
    unfold stmt
    exact (declaring_standing.discard declaring_standing.expr).weaken (fun _ hb => hb)
      fun _ _ hb => .standing nofun hb
  | _, .var d, _ => by
    unfold stmt
    exact (declaring_standing.varDecl trivial).weaken (fun _ hb => hb)
      fun _ _ hb => .standing nofun hb
  | _, .block _ body, h => by
    unfold stmt
    exact settled_inScope (settled_stmts h)
  | _, .ifThen _ _ yes, _ => by
    unfold stmt
    refine .after fun _ => .after fun _ => .after fun done => .after fun _ => .after fun _ => ?_
    exact .after fun _ => standing_setPoint.weaken (fun _ hb => hb) fun _ _ hb =>
      .standing nofun hb
  | _, .ifElse _ _ yes no, h => by
    have hyes : _ = none ∨ yes.strays = false := h.imp_right fun h => (Bool.or_eq_false_iff.1 h).1
    have hno : _ = none ∨ no.strays = false := h.imp_right fun h => (Bool.or_eq_false_iff.1 h).2
    unfold stmt
    refine .after fun _ => .after fun whenTrue => .after fun whenFalse => .after fun done => ?_
    rw [emit_bind]
    refine .bind (.after fun _ => standing_setPoint) fun _ => ?_
    refine .bind (settled_inScope (settled_stmt hyes)) fun _ => .bind brings_merge fun merged => ?_
    refine .assuming fun hmerged => .bind standing_setPoint fun _ => ?_
    refine .bind (settled_inScope (settled_stmt hno)) fun _ => .bind brings_merge fun merged' => ?_
    refine .assuming fun hmerged' => .emit fun _ _ _ _ hrun => ?_
    cases hrun
    have hboth := hmerged.both hmerged'
    cases merged <;> cases merged' <;> exact hboth
  | _, .forLoop _ _ _ post body, _ => by
    unfold stmt
    refine settled_inScope ?_
    refine .after fun _ => .after fun head => .after fun _ => .after fun _ => .after fun leave => ?_
    refine .after fun _ => .after fun _ => .after fun _ => .after fun _ => .after fun _ => ?_
    refine .after fun _ => ?_
    -- behind a loop there is a point, whatever its step does
    have hend : Brings (fun _ => True) (emit do
        Emit.br head
        Emit.setPoint (some leave)) fun _ b =>
          Settled body.alwaysReturns true b.draft.point.isSome := by
      rw [emit_bind]
      exact .after fun _ => standing_setPoint.weaken (fun _ hb => hb) fun _ _ hb =>
        .standing (fun _ => rfl) hb
    cases post with
    | none => exact hend
    | some post => exact .after fun _ => hend
  | _, .whileLoop _ _ _, _ => by
    unfold stmt
    refine .after fun _ => .after fun _ => .after fun leave => .after fun _ => .after fun _ => ?_
    refine .after fun _ => .after fun _ => .after fun _ => ?_
    exact standing_setPoint.weaken (fun _ hb => hb) fun _ _ hb => .standing (fun _ => rfl) hb
  | _, .doLoop _ _ _, _ => by
    unfold stmt
    refine .after fun _ => .after fun _ => .after fun leave => .after fun _ => .after fun _ => ?_
    refine .after fun _ => .after fun _ => .after fun _ => ?_
    exact standing_setPoint.weaken (fun _ hb => hb) fun _ _ hb => .standing (fun _ => rfl) hb
  | loop, .branch pos token, h => by
    unfold stmt
    obtain rfl := h.resolve_right nofun
    exact .fail
  | _, .ret _ _, _ => by
    unfold stmt
    exact brings_returnFrom.weaken (fun _ hb => hb) fun _ _ hb => ⟨fun _ => rfl, fun _ _ => hb⟩

theorem settled_stmts : ∀ {loop : Option Loop} {ss : List Stmt},
    loop = none ∨ Stmt.someStrays ss = false →
    Brings (fun b => Standing b.draft) (stmts Γ want loop ss) fun _ b =>
      Settled (Stmt.someReturns ss) (Stmt.someLoops ss) b.draft.point.isSome
  | _, [], _ => by
    unfold stmts
    exact .pure fun _ hb => .standing nofun hb
  | _, s :: ss, h => by
    have hs : _ = none ∨ s.strays = false := h.imp_right fun h => (Bool.or_eq_false_iff.1 h).1
    have hss : _ = none ∨ Stmt.someStrays ss = false :=
      h.imp_right fun h => (Bool.or_eq_false_iff.1 h).2
    unfold stmts
    refine .bind brings_isReachable fun here => ?_
    split
    · refine .bind ((settled_stmt hs).weaken (fun _ hb => hb.2) fun _ _ hb => hb) fun _ => ?_
      intro b r b' hb hrun
      exact hb.seq (fun hhere => settled_stmts hss b r b' hhere hrun)
        fun hhere => maintains_stmts_none b r b' hhere hrun
    next hhere => exact .pure fun _ hb => absurd (hb.1.trans hb.2) hhere

end

/-! ## Where control can be behind statements -/

theorem declaring_fronts : Declaring (fun _ => True) Fronts where
  toSplitting := splitting_fronts
  toResolving := resolving_fronts
  alloca _ _ _ := .emit fun _ _ _ hb hrun => hb.alloca hrun
  declare _ _ := maintains_declare

section

variable {E W : Set Label}

/-- Control goes behind a branch if there is a point, and can be there in addition. -/
theorem fronted_merge {target : Label} (htarget : target ∈ E ∨ target ∈ W) :
    Brings (fun b => Fronted E W b.draft) (brIfReachable target) fun here b =>
      b.draft.func.Frontier (E ∪ {l | here = true ∧ l = target}) W := by
  unfold brIfReachable
  rw [emit_bind]
  refine .bind brings_isReachable fun here => ?_
  cases here with
  | true =>
    rw [if_pos rfl, emit_bind]
    refine .bind ((fronted_terminate (t := .br target) ?_).weaken (fun _ hb => hb.2)
      fun _ _ hb => hb) fun _ => .emit fun b _ _ hb hrun => ?_
    · simpa [Term.successors] using htarget
    · cases hrun
      have hsame : (E ∪ {m | m ∈ (Term.br target).successors}) =
          E ∪ {l | true = true ∧ l = target} := by simp [Term.successors]
      exact hsame ▸ hb
  | false =>
    refine .emit fun b _ _ hb hrun => ?_
    cases hrun
    have hnone : b.draft.point = none := Option.isNone_iff_eq_none.1 (by simpa using hb.1.symm)
    have hfrontier := hb.2.frontier
    simpa [hnone] using hfrontier

theorem fronts_returnFrom {pos : Pos} {result : Option Expr} :
    Fronts (returnFrom Γ want pos result) := by
  intro E W
  have hret : ∀ v, Brings (fun b => Fronted E W b.draft) (do
      emit (Emit.ret v)
      emit (Emit.setPoint none)) fun _ b => Fronted E W b.draft := fun v => by
    refine .bind (fronted_terminate (t := .ret v) (by simp [Term.successors])) fun _ => ?_
    exact fronted_setPoint (by simp [Term.successors]) (fun _ h => h) nofun
  have hsteps := stepwise_fronts.evaluating
  unfold returnFrom
  cases result with
  | none => exact .check fun _ => hret none
  | some x =>
    refine .check fun _ => .bind (fronts_expr E W) fun _ => ?_
    exact .bind (stepwise_valueAs hsteps E W) fun v => hret (some v)

end

theorem fronts_inScope {act : Lower α} (h : Fronts act) : Fronts (inScope act) :=
  fun E W => .inScope_draft (h E W)

mutual

/-- A statement without a loop moves the point, and control can be nowhere else behind it. -/
theorem fronts_stmt : ∀ {loop : Option Loop} {s : Stmt}, loop = none ∨ s.strays = false →
    s.loops = false → Fronts (stmt Γ want loop s)
  | _, .empty _, _, _ => by
    unfold stmt
    exact stepwise_fronts.pure
  | _, .expr x, _, _ => by
    unfold stmt
    exact declaring_fronts.discard declaring_fronts.expr
  | _, .var d, _, _ => by
    unfold stmt
    exact declaring_fronts.varDecl trivial
  | _, .block _ body, h, hloops => by
    unfold stmt
    exact fronts_inScope (fronts_stmts h hloops)
  | _, .ifThen _ c yes, h, hloops => by
    have hyes : Fronts (stmt Γ want _ yes) := fronts_stmt h hloops
    intro E W
    unfold stmt
    refine .bind (declaring_fronts.condition E W) fun bit => ?_
    refine .bind fronted_newBlock fun whenTrue => .assuming fun htrue => ?_
    refine .bind fronted_newBlock fun done => .assuming fun hdone => ?_
    rw [emit_bind]
    refine .bind (fronted_jump (t := .condBr bit whenTrue done) (F := insert done E) (V := W)
      ?_ ?_ ?_ ?_) fun _ => ?_
    · simp [Term.successors]
    · ext m
      grind [Term.successors]
    · grind
    · grind
    refine .bind (fronts_inScope hyes _ _) fun _ => ?_
    -- the condition has already sent control to the end, so another way there adds nothing
    have hmerge : Brings (fun b => Fronted (insert done E) W b.draft) (brIfReachable done)
        fun _ b => b.draft.func.Frontier (insert done E) W := by
      refine (fronted_merge (.inl (by simp))).weaken (fun _ hb => hb) fun here b hb => ?_
      have hsame : insert done E ∪ {l | here = true ∧ l = done} = insert done E := by
        ext m
        grind
      exact hsame ▸ hb
    refine .bind (.discard hmerge) fun _ => fronted_setPoint ?_ ?_ ?_
    · ext m
      grind
    · exact fun _ hm => hm
    · grind
  | _, .ifElse _ c yes no, h, hloops => by
    obtain ⟨hyesLoops, hnoLoops⟩ := Bool.or_eq_false_iff.1 hloops
    have hyes : Fronts (stmt Γ want _ yes) :=
      fronts_stmt (h.imp_right fun h => (Bool.or_eq_false_iff.1 h).1) hyesLoops
    have hno : Fronts (stmt Γ want _ no) :=
      fronts_stmt (h.imp_right fun h => (Bool.or_eq_false_iff.1 h).2) hnoLoops
    intro E W
    unfold stmt
    refine .bind (declaring_fronts.condition E W) fun bit => ?_
    refine .bind fronted_newBlock fun whenTrue => .assuming fun htrue => ?_
    refine .bind fronted_newBlock fun whenFalse => .assuming fun hfalse => ?_
    refine .bind fronted_newBlock fun done => .assuming fun hdone => ?_
    rw [emit_bind]
    refine .bind (fronted_jump (t := .condBr bit whenTrue whenFalse) (F := insert whenFalse E)
      (V := insert done W) ?_ ?_ ?_ ?_) fun _ => ?_
    · simp [Term.successors]
    · ext m
      grind [Term.successors]
    · grind
    · grind
    refine .bind (fronts_inScope hyes _ _) fun _ => ?_
    refine .bind (fronted_merge (.inr (by simp))) fun merged => ?_
    refine .bind (fronted_setPoint (F := E ∪ {l | merged = true ∧ l = done})
      (V := insert done W) ?_ ?_ ?_) fun _ => ?_
    · ext m
      grind
    · grind
    · grind
    refine .bind (fronts_inScope hno _ _) fun _ => ?_
    refine .bind (fronted_merge (.inr (by simp))) fun merged' => ?_
    refine fronted_setPoint ?_ ?_ ?_
    · ext m
      grind
    · grind
    · grind
  | _, .forLoop _ _ _ _ _, _, hloops => by cases hloops
  | _, .whileLoop _ _ _, _, hloops => by cases hloops
  | _, .doLoop _ _ _, _, hloops => by cases hloops
  | loop, .branch pos token, h, _ => by
    unfold stmt
    obtain rfl := h.resolve_right nofun
    exact stepwise_fronts.fail
  | _, .ret _ _, _, _ => by
    unfold stmt
    exact fronts_returnFrom

theorem fronts_stmts : ∀ {loop : Option Loop} {ss : List Stmt},
    loop = none ∨ Stmt.someStrays ss = false → Stmt.someLoops ss = false →
    Fronts (stmts Γ want loop ss)
  | _, [], _, _ => by
    unfold stmts
    exact stepwise_fronts.pure
  | _, s :: ss, h, hloops => by
    obtain ⟨hs, hss⟩ := Bool.or_eq_false_iff.1 hloops
    intro E W
    unfold stmts
    refine .bind brings_isReachable fun here => ?_
    split
    · refine .bind ((fronts_stmt (h.imp_right fun h => (Bool.or_eq_false_iff.1 h).1) hs E W).weaken
        (fun _ hb => hb.2) fun _ _ hb => hb) fun _ => ?_
      exact fronts_stmts (h.imp_right fun h => (Bool.or_eq_false_iff.1 h).2) hss E W
    · exact .pure fun _ hb => hb.2

end

/-! ## Bodies -/

section

variable {o : Options} {c : Context} {f : FuncDecl}

theorem settled_bodyCode : Brings (fun b => Standing b.draft) (bodyCode c f) fun _ b =>
    Settled (Stmt.someReturns f.body) (Stmt.someLoops f.body) b.draft.point.isSome := by
  have hparams : Maintains Standing (bindParams ⟨f.name.text, 0⟩ 0 f.params) :=
    declaring_standing.bindParams fun _ _ => trivial
  unfold bodyCode
  refine .bind hparams fun _ => ?_
  split
  · refine .bind (declaring_standing.discard (declaring_standing.emit .append)) fun _ => ?_
    exact settled_stmts (.inl rfl)
  · exact settled_stmts (.inl rfl)

/-- At the start of a function control can be at the entry. -/
theorem fronted_start : Fronted ∅ ∅ (startDraft o (declaration f)) := by
  have hopened := (declared_declaration f).start
  have hentry : (startDraft o (declaration f)).func.At ((declaration f).start []).1
      { label := ((declaration f).start []).1 } := hopened.at_iff.2 ⟨rfl, rfl⟩
  refine ⟨⟨(hopened.fresh rfl).tidy, fun k b hb m hm => ?_, fun k hk => ?_, fun k hk => ?_,
    fun k b hb _ _ => ?_⟩, fun _ _ => ⟨nofun, nofun⟩⟩
  · obtain ⟨-, rfl⟩ := hopened.at_iff.1 hb
    simp [Block.successors] at hm
  · obtain rfl : _ = k := Option.some.inj ((hk.resolve_right nofun).resolve_left nofun)
    exact ⟨_, hentry, rfl⟩
  · obtain rfl : _ = k := Option.some.inj (hk.resolve_left nofun)
    exact ⟨[], .entry (hentry.head hopened.index)⟩
  · obtain ⟨rfl, -⟩ := hopened.at_iff.1 hb
    exact .inr rfl

/-- Writing does not change the result of a function. -/
theorem drafting_result : Drafting (fun _ => True) fun d d' => d'.func.result = d.func.result where
  refl _ := rfl
  trans h h' := h'.trans h
  move _ _ := rfl
  append hrun := by
    obtain ⟨_, _, -, -, -, rfl⟩ := Emit.append_cases hrun
    rfl
  terminate hrun := by
    obtain ⟨_, -, rfl⟩ := Emit.terminate_cases hrun
    rfl
  newBlock _ hrun := by
    obtain ⟨-, rfl⟩ := Emit.newBlock_cases hrun
    rfl
  alloca _ hrun := by
    obtain ⟨-, -, rfl⟩ := Emit.alloca_cases hrun
    rfl

end

theorem mem_openLabels {f : Func} (htidy : f.Tidy) {l : Label} :
    l ∈ (f.blocks.filter fun b => b.term.isNone).map Block.label ↔
      ∃ b, f.At l b ∧ b.term = none := by
  simp only [List.mem_map, List.mem_filter, Option.isNone_iff_eq_none]
  constructor
  · rintro ⟨b, ⟨hb, ho⟩, rfl⟩
    exact ⟨b, htidy.at_of_mem hb, ho⟩
  · rintro ⟨b, hb, ho⟩
    exact ⟨b, ⟨hb.mem, ho⟩, hb.2⟩

/-- Where code goes only forward, control can come to an open block only at the point. -/
theorem Fronted.reachable_iff {d : Draft} (h : Fronted ∅ ∅ d) :
    (∃ l, (∃ b, d.func.At l b ∧ b.term = none) ∧ d.func.Reachable l) ↔ d.point.isSome = true := by
  rw [Option.isSome_iff_exists]
  constructor
  · rintro ⟨l, ⟨b, hb, ho⟩, hl⟩
    exact ⟨l, ((h.frontier.reachable_iff hb ho).1 hl).resolve_left nofun⟩
  · rintro ⟨l, hl⟩
    exact ⟨l, h.frontier.isOpen l (.inl (.inr hl)), h.frontier.reached l (.inr hl)⟩

/-- What is done at the end of a body opens no ways, and every block that is open returns. -/
theorem closeBlocks_ways {d d' : Draft} {t : DataType} (htidy : d.func.Tidy)
    (hresult : d.func.result = Ty.ofData t) (h : (closeBlocks t).run d = .ok ((), d')) :
    d'.func.Tidy ∧
    (∀ l b, d.func.At l b → b.term = none →
      d'.func.At l { b with term := some (.ret (defaultResult t)) }) ∧
    ∀ l b, d.func.At l b → ∃ c, d'.func.At l c ∧ c.successors = b.successors := by
  obtain ⟨s', hrun, hw, -, hends⟩ := closeBlocks_run (O := ⟨[], fun _ => none⟩)
    (s := ⟨d, fun _ => ∅⟩) htidy hresult
  obtain ⟨-, rfl⟩ := Prod.mk.inj (Except.ok.inj (h.symm.trans hrun))
  refine ⟨Steps.tidy hw htidy, hends, fun l b hb => ?_⟩
  rcases hterm : b.term with _ | term
  · exact ⟨_, hends l b hb hterm, by simp [Block.successors, hterm, Term.successors]⟩
  · obtain ⟨c, hc, hle⟩ := (Steps.le hw).blocks l b hb
    exact ⟨c, hc, by rw [Block.successors, Block.successors, hterm, (hle.closed term hterm).1]⟩

/-- Whether there is a point behind a statement that control leaves in no other way agrees with
whether it always returns, a loop apart. So the return that ends a function without a loop, in the
place of one that is missing, can be reached exactly if its statements do not always return. -/
theorem point_agrees_alwaysReturns :
    (∀ Γ want loop s b b', (stmt Γ want loop s).run b = .ok (.ok (), b') →
      b.draft.point.isSome = true → s.strays = false →
      (b'.draft.point = none → s.alwaysReturns = true) ∧
      (s.loops = false → (b'.draft.point = none ↔ s.alwaysReturns = true))) ∧
    ∀ o c f g bound, lowerBody o c f = .ok (.ok (), g, bound) → Stmt.someLoops f.body = false →
      ∃ b ls, (inScope (bodyCode c f)).run
          { draft := startDraft o (declaration f), scopes := c.scopes } = .ok (.ok (), b) ∧
        Emit.openBlocks b.draft = .ok (ls, b.draft) ∧
        (∀ l ∈ ls, ∃ block, g.At l block ∧ block.term = some (.ret (defaultResult f.result))) ∧
        ((∃ l ∈ ls, g.Reachable l) ↔ Stmt.someReturns f.body = false) := by
  refine ⟨fun Γ want loop s b b' hrun hpoint hstrays => ?_, fun o c f g bound h hloops => ?_⟩
  · have hsettled := settled_stmt (.inr hstrays) b () b' hpoint hrun
    rw [← Option.not_isSome_iff_eq_none, Bool.not_eq_true]
    exact ⟨hsettled.returning, fun hloops => ⟨hsettled.returning, hsettled.ending hloops⟩⟩
  · obtain ⟨b, d, hscope, hclose, rfl, -⟩ := lowerBody_ends h
    have hfronts : Fronts (bodyCode c f) := declaring_fronts.bodyCode (fun _ _ => trivial)
      (fronts_stmts (.inl rfl) hloops)
    have hfronted : Fronted ∅ ∅ b.draft := fronts_inScope hfronts _ _ _ _ _ fronted_start hscope
    have hstart : Standing (startDraft o (declaration f)) := rfl
    have hsettled := settled_inScope settled_bodyCode _ () b hstart hscope
    have hresult : b.draft.func.result = Ty.ofData f.result :=
      (drafting_result.walking.inScope (walking_bodyCode drafting_result.walking
        fun _ _ => trivial) _ _ _ hscope).trans (declared_declaration f).start.result
    obtain ⟨hg, hends, hways⟩ := closeBlocks_ways hfronted.frontier.tidy hresult hclose
    refine ⟨b, _, hscope, rfl, fun l hl => ?_, ?_⟩
    · obtain ⟨block, hblock, ho⟩ := (mem_openLabels hfronted.frontier.tidy).1 hl
      exact ⟨_, hends l block hblock ho, rfl⟩
    -- closing the blocks adds no way between them
    have hreach : ∀ l, d.func.Reachable l ↔ b.draft.func.Reachable l := fun l =>
      hfronted.frontier.reachable_congr hg hways
    rw [exists_congr fun l => and_congr (mem_openLabels hfronted.frontier.tidy) (hreach l),
      hfronted.reachable_iff]
    cases hpoint : b.draft.point.isSome with
    | false => simp [hsettled.returning hpoint]
    | true =>
      cases hreturns : Stmt.someReturns f.body with
      | false => simp
      | true => exact absurd (hsettled.ending hloops hreturns) (by simp [hpoint])

/-- Whether a walk meets no fault and does not fail. -/
def succeeds : Except Fault (Except Failure α × β) → Bool
  | .ok (.ok _, _) => true
  | _ => false

theorem exists_of_succeeds {x : Except Fault (Except Failure α × β)} (h : succeeds x = true) :
    ∃ a b, x = .ok (.ok a, b) := by
  rcases x with e | ⟨e | a, b⟩
  · cases h
  · cases h
  · exact ⟨a, b, rfl⟩

/-- A function that returns from both branches of a choice. -/
def returningSample : Source where
  bytes := "int f() { { if (1 > 0) return 1; else { return 2; } } 3; }".toUTF8.toList

/-- There is no point behind its body, and control comes to no block that was left open. -/
theorem point_agrees_alwaysReturns_returningSample : ∃ p f, returningSample.parse.program = some p ∧
    funcDecls p = [f] ∧ Stmt.someReturns f.body = true ∧
    (∃ b', (stmt (signatures [f]) f.result none (.block .implicit f.body)).run
        { draft := startDraft {} (declaration f), scopes := .empty } = .ok (.ok (), b') ∧
      b'.draft.point = none) ∧
    ∃ (g : Func) (bound : List (Name × DataType)) (b : Body) (ls : List Label),
      lowerBody {} ⟨signatures [f], .empty, false⟩ f = .ok (.ok (), g, bound) ∧
      Emit.openBlocks b.draft = .ok (ls, b.draft) ∧ ¬ ∃ l ∈ ls, g.Reachable l := by
  have hreports : returningSample.scan.reports = [] := scan_reports_eq_nil (by decide +kernel)
  obtain ⟨p, hparse, htest⟩ := exists_parsed (t := fun p => (funcDecls p).length = 1 &&
    (funcDecls p).all fun f => Stmt.someReturns f.body && !Stmt.someLoops f.body &&
      !Stmt.someStrays f.body &&
      succeeds ((stmt (signatures [f]) f.result none (.block .implicit f.body)).run
        { draft := startDraft {} (declaration f), scopes := .empty }) &&
      succeeds (lowerBody {} ⟨signatures [f], .empty, false⟩ f)) hreports (by decide +kernel)
  simp only [Bool.and_eq_true, decide_eq_true_eq] at htest
  obtain ⟨f, hf⟩ := List.length_eq_one_iff.1 htest.1
  simp only [hf, List.all_cons, List.all_nil, Bool.and_true, Bool.and_eq_true,
    Bool.not_eq_true'] at htest
  obtain ⟨-, ⟨⟨⟨hreturns, hloops⟩, hstrays⟩, hwalk⟩, hlower⟩ := htest
  obtain ⟨⟨⟩, b', hwalk⟩ := exists_of_succeeds hwalk
  obtain ⟨⟨⟩, ⟨g, bound⟩, hlower⟩ := exists_of_succeeds hlower
  obtain ⟨-, hpoint⟩ := point_agrees_alwaysReturns.1 _ _ _ _ _ _ hwalk rfl hstrays
  obtain ⟨b, ls, -, hopen, -, hreach⟩ := point_agrees_alwaysReturns.2 _ _ _ _ _ hlower hloops
  refine ⟨p, f, hparse, hf, hreturns, ⟨b', hwalk, (hpoint hloops).2 hreturns⟩,
    g, bound, b, ls, hlower, hopen, fun hl => ?_⟩
  rw [hreach.1 hl] at hreturns
  cases hreturns

end Lowering

end Shader
