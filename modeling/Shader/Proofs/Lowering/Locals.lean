import Shader.Proofs.Grammar.Relexing
import Shader.Proofs.Ir.Locals
import Shader.Proofs.Lowering.Accepted
import Shader.Proofs.Lowering.Numerals
import Shader.Proofs.Lowering.Soundness
import Shader.Proofs.Lowering.Walking

/-!
# Names of locals in the code of programs

Rooms are reserved under the names of variables, which have no point, and blocks are made under a
few hints, whose points have no number behind them. So the locals of every function are told apart
by their names, if its parameters are; and if two parameters have the same name, the second one
cannot be declared.
-/

namespace Shader

open Ir

/-! ## Identifiers -/

theorem IsIdentifier.isBase {x : String} (h : IsIdentifier x) : IsBase x :=
  isBase_of_notMem fun hpoint => absurd (h.1 '.' hpoint) (by decide)

/-- An identifier is no number, so that it is told as it is. -/
theorem IsIdentifier.told {x : String} (h : IsIdentifier x) : Ident.told x = x := by
  obtain ⟨-, c, cs, hx, hc⟩ := h
  have hdigits : Ident.digits? (c :: cs) = none := by
    have hdigit : c.isDigit = false := by
      rw [← Lowering.isDigit_eq]
      exact Bool.eq_false_iff.2 fun hdigit => by simp [not_isLetter hdigit] at hc
    simp [Ident.digits?, hdigit]
  have hinteger : Ident.integer? x = none := by
    rw [Ident.integer?, hx]
    split
    next heq =>
      obtain rfl := (List.cons.inj heq).1
      exact absurd hc (by decide)
    next heq =>
      obtain rfl := (List.cons.inj heq).1
      exact absurd hc (by decide)
    next => rw [hdigits]; rfl
  rw [Ident.told, hinteger]

/-- The names of variables of a parsed text are identifiers. -/
theorem Source.isIdentifier_var {s : Source} {p : Program} (h : s.parse.program = some p) {n : Name}
    (hn : Atom.var n ∈ p.atoms) : IsIdentifier n.text := by
  obtain ⟨as, has, hkeeps⟩ := Source.keeps_parse h
  rcases List.mem_cons.1 (has ▸ hn) with heq | hmem
  · cases heq
    have hword : positionName.toList.all isWordChar = true := by decide
    exact ⟨List.all_eq_true.1 hword, 'g', "l_Position".toList, by decide, by decide⟩
  · have hitem : n.item ∈ s.scan.items := List.Sublist.mem (List.mem_map.2 ⟨_, hmem, rfl⟩) hkeeps
    exact ((s.spelled_scan _ hitem).name rfl).1

namespace Lowering

/-! ## Writing -/

/-- No step of writing brings two locals with the same name. -/
theorem drafting_distinct : Drafting IsBase fun d d' => d.func.Distinct → d'.func.Distinct where
  refl _ h := h
  trans h₁ h₂ h := h₂ (h₁ h)
  move _ _ h := h
  append hrun h := by
    obtain ⟨l, τ, -, -, -, rfl⟩ := Emit.append_cases hrun
    exact h.put
  terminate hrun h := by
    obtain ⟨l, -, rfl⟩ := Emit.terminate_cases hrun
    exact h.close
  newBlock hhint hrun h := by
    obtain ⟨-, rfl⟩ := Emit.newBlock_cases hrun
    have hbase : ∀ hint ∈ blockHints, isBase hint = true := by decide
    exact h.addBlock (isBase_iff.1 (hbase _ hhint))
  alloca hname hrun h := by
    obtain ⟨-, -, rfl⟩ := Emit.alloca_cases hrun
    exact h.reserve hname

/-! ## The values of global variables -/

variable {o : Options} {p : Program} {out : Outcome}

theorem distinct_walk {α : Type} {act : Lower α} {g g' : Globals} {r : Except Failure α}
    (hact : Frames (fun b b' => b.draft.func.Distinct → b'.draft.func.Distinct) act)
    (hrun : g.walk o act = .ok (r, g')) (h : (g.initDraft o).func.Distinct) :
    (g'.initDraft o).func.Distinct := frames_walk hact hrun h

theorem initDraft_declare (g : Globals) (v : GlobalVar) :
    (g.declare v).2.initDraft o = g.initDraft o := by
  obtain ⟨earlier, -, heq⟩ | ⟨σ, -, heq⟩ := g.declare_cases v <;> rw [heq] <;> rfl

theorem Adds.distinct {Γ : Signatures} {v : GlobalVar} {g g' : Globals} {r : Except Failure Unit}
    (hadds : Adds Γ o v g r g') (h : (g.initDraft o).func.Distinct) :
    (g'.initDraft o).func.Distinct := by
  cases hadds with
  | bad => exact h
  | repeated => exact h
  | plain => rwa [initDraft_declare]
  | failed _ _ hwalk _ =>
    rw [initDraft_declare]
    exact distinct_walk drafting_distinct.walking.expr hwalk h
  | valued _ _ hwalk _ hstore =>
    refine distinct_walk (frames_initStore drafting_distinct.framing) hstore ?_
    rw [initDraft_declare]
    exact distinct_walk drafting_distinct.walking.expr hwalk h

/-- The function that computes the values of global variables. -/
theorem Rounds.distinct_init (r : Rounds o p out) {d : Draft} (hd : r.final.init = some d) :
    d.func.Distinct := by
  have hstart : (initFunc.start []).2.Distinct :=
    Func.distinct_start rfl rfl List.nodup_nil nofun rfl
  obtain ⟨-, -, hglobals, -⟩ := addGlobals_induction
    (P := fun _ g _ => (g.initDraft o).func.Distinct)
    (fun _ _ _ _ _ _ h hadd => (adds_of_add hadd).distinct h) []
    (show (Globals.initDraft { bound := _ } o).func.Distinct from hstart) r.added
  have hglobals' : ∀ {d}, (r.globals.synthesize o).init = some d → d.func.Distinct := by
    intro d hd
    have hinit : (r.globals.synthesize o).init = r.globals.init := by
      unfold Globals.synthesize
      split <;> rfl
    rwa [Globals.initDraft, ← hinit, hd] at hglobals
  rcases r.final_cases with ⟨-, hfinish⟩ | ⟨-, hfinal⟩
  · obtain ⟨hnone, hfinal⟩ | ⟨d₁, d₂, hd₁, hret, hfinal⟩ := finish_cases hfinish
    · rw [hfinal, hnone] at hd
      cases hd
    · rw [hfinal] at hd
      cases hd
      exact drafting_distinct.terminate hret (hglobals' hd₁)
  · rw [hfinal] at hd
    rwa [Globals.initDraft, hd] at hglobals

/-! ## Parameters -/

/-- No two parameters that are declared have the same name. -/
theorem nodup_bindParams {id : FuncId} : ∀ {ps : List Param} {i : Nat} {b b' : Body},
    (bindParams id i ps).run b = .ok (.ok (), b') → (ps.map fun p => p.name.text).Nodup ∧
      ∀ p ∈ ps, b.scopes.top.find? p.name.text = none
  | [], _, _, _, _ => ⟨.nil, List.forall_mem_nil _⟩
  | p :: ps, i, b, b', h => by
    -- room or not, the name is declared next, in the scopes as they are
    have hrest : ∃ addr b₁, b₁.scopes = b.scopes ∧ (do
        declare p.name p.type addr false
        bindParams id (i + 1) ps : Lower Unit).run b₁ = .ok (.ok (), b') := by
      unfold bindParams at h
      dsimp only at h
      split at h
      · exact ⟨_, b, rfl, h⟩
      · obtain ⟨addr, b₁, haddr, hrest⟩ := bind_succeeds h
        obtain ⟨a, d, -, -, rfl⟩ := emit_cases haddr
        exact ⟨addr, { b with draft := d }, rfl, hrest⟩
    obtain ⟨addr, b₁, hscopes, hrest⟩ := hrest
    obtain ⟨_, b₂, hdeclare, hrest⟩ := bind_succeeds hrest
    obtain ⟨σ, hσ, rfl⟩ := declare_succeeds hdeclare
    obtain ⟨hnodup, hfree⟩ := nodup_bindParams hrest
    rw [hscopes] at hσ
    unfold Scopes.declare at hσ
    split at hσ
    · cases hσ
    next hnone =>
      cases hσ
      -- the others were not found behind this declaration, so they are other names
      have hfree' : ∀ q ∈ ps, b.scopes.top.find? q.name.text = none ∧
          p.name.text ≠ q.name.text := by
        intro q hq
        have hnew := hfree q hq
        rw [Scopes.top_setTop, Frame.find?, List.find?_append, Option.or_eq_none_iff] at hnew
        exact ⟨hnew.1, fun heq => by simp [heq] at hnew⟩
      refine ⟨List.nodup_cons.2 ⟨fun hmem => ?_, hnodup⟩,
        List.forall_mem_cons.2 ⟨hnone, fun q hq => (hfree' q hq).1⟩⟩
      obtain ⟨q, hq, heq⟩ := List.mem_map.1 hmem
      exact (hfree' q hq).2 heq.symm

theorem nodup_params {c : Context} {f : FuncDecl} {b b' : Body}
    (h : (bodyCode c f).run b = .ok (.ok (), b')) : (f.params.map fun p => p.name.text).Nodup := by
  obtain ⟨_, b₁, hparams, -⟩ := bind_succeeds h
  exact (nodup_bindParams hparams).1

/-- The parameters of a function are called by their names where names are counted. -/
theorem paramNames_declaration {f : FuncDecl}
    (hparams : ∀ p ∈ f.params, IsIdentifier p.name.text) :
    (declaration f).paramNames [] = (declaration f).params.map Formal.name := by
  have htold : ∀ q ∈ (declaration f).params.zipIdx,
      Numbering.told [] (.param (declaration f).id q.2) q.1.name = q.1.name := by
    intro q hq
    obtain ⟨p, hp, heq⟩ := List.mem_map.1 (List.fst_mem_of_mem_zipIdx hq)
    have hname : IsIdentifier q.1.name := heq ▸ hparams p hp
    have hne : q.1.name ≠ "" := fun hempty => by
      obtain ⟨-, c, cs, hlist, -⟩ := hname
      rw [hempty] at hlist
      cases hlist
    rw [Numbering.told, if_neg hne, hname.told]
  rw [Func.paramNames, List.map_congr_left htold]
  calc (declaration f).params.zipIdx.map (fun q => q.1.name)
      = ((declaration f).params.zipIdx.map Prod.fst).map Formal.name := by rw [List.map_map]; rfl
    _ = (declaration f).params.map Formal.name := by rw [List.zipIdx_map_fst]

/-! ## Bodies -/

/-- The locals of a function whose body does not fail are told apart by their names. -/
theorem distinct_lowerBody {c : Context} {f : FuncDecl} {g : Func} {bound : List (Name × DataType)}
    (hnames : ∀ n, Atom.var n ∈ (Def.func f).atoms → IsIdentifier n.text)
    (h : lowerBody o c f = .ok (.ok (), g, bound)) : g.Distinct := by
  have hparams : ∀ p ∈ f.params, IsIdentifier p.name.text := fun p hp =>
    hnames p.name (List.mem_cons_of_mem _ (List.mem_append_left _ (List.mem_map.2 ⟨p, hp, rfl⟩)))
  obtain ⟨b, d, hscope, hclose, rfl, -⟩ := lowerBody_ends h
  obtain ⟨b₁, σ, hbody, -, rfl⟩ := inScope_cases hscope
  have hnodup : ((declaration f).params.map Formal.name).Nodup := by
    rw [declaration, List.map_map]
    exact nodup_params hbody
  have hstart : ((declaration f).start []).2.Distinct := by
    refine Func.distinct_start rfl rfl hnodup (fun p hp => ?_) (paramNames_declaration hparams)
    obtain ⟨q, hq, rfl⟩ := List.mem_map.1 hp
    exact (hparams q hq).isBase
  have hwalked : b₁.draft.func.Distinct :=
    walking_bodyCode drafting_distinct.walking (fun n hn => (hnames n hn).isBase) _ _ _ hbody hstart
  have hclosed : (emit (closeBlocks f.result)).run { b₁ with scopes := σ } =
      .ok (.ok (), { b₁ with scopes := σ, draft := d }) := by
    change Except.bind ((closeBlocks f.result).run b₁.draft) _ = _
    rw [hclose]
    rfl
  exact walking_closeBlocks drafting_distinct.walking _ _ _ hclosed hwalked

/-- In the code of an accepted program no two parameters, rooms and blocks of a function have the
same name. -/
theorem nodup_localNames {s : Source} (hparse : s.parse.program = some p)
    (hlower : lower o p = .ok out) (hok : out.problems = []) :
    ∀ f ∈ out.module.funcs, f.localNames.Nodup := by
  intro g hg
  obtain ⟨rounds⟩ := exists_rounds hlower
  obtain ⟨f, hf, -, bound, hbody, -⟩ | ⟨d, hd, rfl⟩ := rounds.func_cases hok hparse hg
  · have hnames : ∀ n, Atom.var n ∈ (Def.func f).atoms → IsIdentifier n.text := fun n hn =>
      Source.isIdentifier_var hparse (List.mem_flatMap.2 ⟨_, func_mem_defs hf, hn⟩)
    exact (distinct_lowerBody hnames hbody).nodup
  · exact (rounds.distinct_init hd).nodup

/-- A program with a parameter that is copied and shadowed, one that is called like the entry, and
hints that are given twice. -/
def shadowingSample : Source where
  bytes := ("int f(int a, out int entry) " ++
    "{ int x = a; { int a = x; entry = a; } if (x > 0) x = 1; if (x > 2) x = 3; return x; }"
    ).toUTF8.toList

/-- Its locals with the same name are numbered. -/
theorem nodup_localNames_shadowingSample : ∃ p out, shadowingSample.parse.program = some p ∧
    lower {} p = .ok out ∧ out.problems = [] ∧ (∀ f ∈ out.module.funcs, f.localNames.Nodup) ∧
    out.module.funcs.map Func.localNames = [["a", "entry", "entry.1", "a.1", "x", "a.2", "if.then",
      "if.end", "if.then.1", "if.end.1"]] := by
  have hreports : shadowingSample.scan.reports = [] := scan_reports_eq_nil (by decide +kernel)
  obtain ⟨p, out, hparse, hlower, hok, htest⟩ := exists_accepted (t := fun _ out =>
      out.module.funcs.map Func.localNames = [["a", "entry", "entry.1", "a.1", "x", "a.2",
        "if.then", "if.end", "if.then.1", "if.end.1"]]) hreports (by decide +kernel)
  exact ⟨p, out, hparse, hlower, hok, nodup_localNames hparse hlower hok, of_decide_eq_true htest⟩

end Lowering

end Shader
