import Mathlib.Data.List.Nodup
import Shader.Ir.Printer
import Shader.Proofs.Ir.Typing

/-!
# Printing with numbers that have been given before

Printing gives numbers to what has no name, and keeps them. It goes well exactly if whatever has a
number by then has the one that it would be given, or the number zero, which counts as none. The
text reads the numbers of what the code mentions and of nothing else, so two modules that differ in
their numbers alone have one text if both can be printed.
-/

namespace Shader.Ir

/-! ## Giving numbers -/

namespace Numbering

variable {ν ν' : Numbering} {n : Nat} {es : List Entity} {e : Entity}

/-- What already has a number has the one that counting from `n` gives to it. -/
def Fits (ν : Numbering) (n : Nat) (es : List Entity) : Prop :=
  ∀ i e, es[i]? = some e → ν.get e = 0 ∨ ν.get e = n + i

theorem fits_cons :
    ν.Fits n (e :: es) ↔ (ν.get e = 0 ∨ ν.get e = n) ∧ ν.Fits (n + 1) es := by
  constructor
  · intro h
    refine ⟨h 0 e rfl, fun i k hk => ?_⟩
    rw [Nat.add_assoc, Nat.add_comm 1]
    exact h (i + 1) k hk
  · rintro ⟨hhead, htail⟩ i k hk
    cases i with
    | zero =>
      obtain rfl := Option.some.inj hk
      exact hhead
    | succ i =>
      rw [← Nat.add_assoc, Nat.add_right_comm]
      exact htail i k hk

/-- Numbers that agree on the entities fit alike. -/
theorem fits_congr (h : ∀ k ∈ es, ν.get k = ν'.get k) : ν.Fits n es ↔ ν'.Fits n es := by
  refine forall_congr' fun i => forall_congr' fun k => imp_congr_right fun hk => ?_
  rw [h k (List.mem_of_getElem? hk)]

/-- The number of another entity does not matter. -/
theorem fits_set (h : e ∉ es) (k : Nat) : (ν.set e k).Fits n es ↔ ν.Fits n es :=
  fits_congr fun j hj => by
    rw [get_set, if_neg]
    rintro rfl
    exact h hj

/-- Entities that are not counted keep their numbers. -/
theorem get_assign_of_notMem : ∀ {es : List Entity} {ν : Numbering} {n : Nat}, e ∉ es →
    (ν.assign n es).1.get e = ν.get e
  | [], _, _, _ => rfl
  | k :: es, ν, n, h => by
    obtain ⟨hk, hes⟩ := not_or.1 (mt List.mem_cons.2 h)
    rw [assign]
    split
    · rfl
    · rw [get_assign_of_notMem hes, get_set, if_neg hk]

/-- Counting does not stop exactly if the numbers fit. -/
theorem assign_snd_eq_none_iff : ∀ {es : List Entity} {ν : Numbering} {n : Nat}, es.Nodup →
    ((ν.assign n es).2 = none ↔ ν.Fits n es)
  | [], ν, n, _ => by simp [assign, Fits]
  | e :: es, ν, n, hnd => by
    obtain ⟨he, hes⟩ := List.nodup_cons.1 hnd
    rw [assign, fits_cons]
    split
    next hstop =>
      refine iff_of_false nofun fun h => ?_
      exact h.1.elim hstop.1 hstop.2
    next hgo =>
      rw [assign_snd_eq_none_iff hes, fits_set he]
      exact (and_iff_right (by tauto)).symm

/-- Where the numbers fit, entities get the numbers that they are counted with. -/
theorem get_assign_of_fits : ∀ {es : List Entity} {ν : Numbering} {n : Nat}, es.Nodup →
    ν.Fits n es → ∀ {i : Nat} {e : Entity}, es[i]? = some e → (ν.assign n es).1.get e = n + i
  | e :: es, ν, n, hnd, hfits, i, k, hk => by
    obtain ⟨he, hes⟩ := List.nodup_cons.1 hnd
    obtain ⟨hhead, htail⟩ := fits_cons.1 hfits
    rw [assign, if_neg (by tauto)]
    cases i with
    | zero =>
      obtain rfl := Option.some.inj hk
      rw [get_assign_of_notMem he, get_set, if_pos rfl, Nat.add_zero]
    | succ i =>
      rw [get_assign_of_fits hes ((fits_set he n).2 htail) (i := i) hk]
      omega

/-- What does not fit does not fit better once it has been counted as far as it goes. -/
theorem fits_of_fits_assign : ∀ {es : List Entity} {ν : Numbering} {n : Nat}, es.Nodup →
    (ν.assign n es).1.Fits n es → ν.Fits n es
  | [], _, _, _, h => h
  | e :: es, ν, n, hnd, h => by
    obtain ⟨he, hes⟩ := List.nodup_cons.1 hnd
    rw [assign] at h
    split at h
    · exact h
    next hgo =>
      obtain ⟨-, htail⟩ := fits_cons.1 h
      exact fits_cons.2 ⟨by tauto, (fits_set he n).1 (fits_of_fits_assign hes htail)⟩

end Numbering

/-! ## What a text mentions -/

/-- What a value refers to, if it is not constant. -/
def Value.entity? : Value → Option Entity
  | const _ => none
  | global id _ => some (.global id)
  | param func i _ _ => some (.param func i)
  | result func reg _ _ => some (.result func reg)

/-- What an instruction mentions. -/
def Inst.mentions (inst : Inst) : List Entity :=
  inst.operands.filterMap Value.entity? ++
    match inst with
    | call func _ _ => [.func func]
    | phi _ incoming => incoming.map fun i => .block i.2
    | _ => []

/-- What a terminator mentions. -/
def Term.mentions (t : Term) : List Entity :=
  t.operands.filterMap Value.entity? ++ t.successors.map .block

/-- What a block mentions. -/
def Block.mentions (b : Block) : List Entity :=
  .block b.label :: b.lines.flatMap (fun l => .result b.label.func l.reg :: l.inst.mentions) ++
    (b.term.toList.flatMap Term.mentions)

/-- What a function mentions. -/
def Func.mentions (f : Func) : List Entity :=
  .func f.id :: f.params.zipIdx.map (fun p => .param f.id p.2) ++ f.blocks.flatMap Block.mentions

section Congruence

variable {ν ν' : Numbering}

theorem Numbering.written_congr {e : Entity} (h : ν.get e = ν'.get e) (name : String) :
    ν.written e name = ν'.written e name := by
  rw [written, written, h]

theorem Value.ident_congr {v : Value} (h : ∀ e ∈ v.entity?, ν.get e = ν'.get e) :
    v.ident ν = v.ident ν' := by
  cases v with
  | const => rfl
  | global id content => exact congrArg ("@" ++ ·) (Numbering.written_congr (h _ rfl) _)
  | param func i name type => exact congrArg ("%" ++ ·) (Numbering.written_congr (h _ rfl) _)
  | result func reg name type => exact congrArg ("%" ++ ·) (Numbering.written_congr (h _ rfl) _)

theorem Label.ident_congr {l : Label} (h : ν.get (.block l) = ν'.get (.block l)) :
    l.ident ν = l.ident ν' := congrArg ("%" ++ ·) (Numbering.written_congr h _)

theorem Inst.text_congr {inst : Inst} (h : ∀ e ∈ inst.mentions, ν.get e = ν'.get e) :
    inst.text ν = inst.text ν' := by
  have hident : ∀ v ∈ inst.operands, v.ident ν = v.ident ν' := fun v hv =>
    Value.ident_congr fun e he =>
      h e (List.mem_append_left _ (List.mem_filterMap.2 ⟨v, hv, he⟩))
  have htext : ∀ v ∈ inst.operands, v.text ν = v.text ν' := fun v hv => by
    rw [Value.text, hident v hv, Value.text]
  cases inst with
  | call func result args =>
    have hfunc : func.ident ν = func.ident ν' := congrArg ("@" ++ ·)
      (Numbering.written_congr (h _ (List.mem_append_right _ (List.mem_singleton_self _))) _)
    have hargs : args.map (fun v => v.text ν) = args.map fun v => v.text ν' :=
      List.map_congr_left htext
    unfold text
    simp only [hfunc, hargs]
  | phi type incoming =>
    have hways : incoming.map (fun i => "[ " ++ i.1.ident ν ++ ", " ++ i.2.ident ν ++ " ]") =
        incoming.map fun i => "[ " ++ i.1.ident ν' ++ ", " ++ i.2.ident ν' ++ " ]" := by
      refine List.map_congr_left fun i hi => ?_
      rw [hident i.1 (List.mem_map_of_mem hi),
        Label.ident_congr (h _ (List.mem_append_right _ (List.mem_map_of_mem hi)))]
    exact congrArg (fun ways => "phi " ++ type.text ++ " " ++ commas ways) hways
  | elementAddr type addr idx =>
    have hzero : (Value.int 0).text ν = (Value.int 0).text ν' := rfl
    unfold text
    simp_all only [operands, List.mem_cons, List.not_mem_nil, or_false, forall_eq_or_imp, forall_eq]
  | _ =>
    unfold text
    simp_all [operands]

theorem Term.text_congr {t : Term} (h : ∀ e ∈ t.mentions, ν.get e = ν'.get e) :
    t.text ν = t.text ν' := by
  have htext : ∀ v ∈ t.operands, v.text ν = v.text ν' := fun v hv => by
    rw [Value.text, Value.text, Value.ident_congr fun e he =>
      h e (List.mem_append_left _ (List.mem_filterMap.2 ⟨v, hv, he⟩))]
  have hlabel : ∀ l ∈ t.successors, l.ident ν = l.ident ν' := fun l hl =>
    Label.ident_congr (h _ (List.mem_append_right _ (List.mem_map_of_mem hl)))
  cases t with
  | ret v =>
    cases v with
    | none => rfl
    | some v => exact congrArg ("ret " ++ ·) (htext v (List.mem_singleton_self v))
  | br target => exact congrArg ("br label " ++ ·) (hlabel target (List.mem_singleton_self target))
  | condBr c yes no => simp_all [operands, successors, text]

theorem Block.text_congr {b : Block} (h : ∀ e ∈ b.mentions, ν.get e = ν'.get e) :
    b.text ν = b.text ν' := by
  rcases hterm : b.term with _ | t
  · simp only [text, hterm]
  · have hhead : b.label.heading ν = b.label.heading ν' :=
      congrArg (· ++ ":") (Numbering.written_congr (h _ List.mem_cons_self) _)
    have hlines : b.lines.map (fun l => l.text ν b.label.func) =
        b.lines.map fun l => l.text ν' b.label.func := by
      refine List.map_congr_left fun l hl => ?_
      have hline : ∀ e ∈ .result b.label.func l.reg :: l.inst.mentions, ν.get e = ν'.get e :=
        fun e he => h e (List.mem_append_left _
          (List.mem_cons_of_mem _ (List.mem_flatMap.2 ⟨l, hl, he⟩)))
      rw [Line.text, Line.text, Inst.text_congr fun e he => hline e (List.mem_cons_of_mem _ he),
        localIdent, localIdent, Numbering.written_congr (hline _ List.mem_cons_self)]
    have ht : t.text ν = t.text ν' := Term.text_congr fun e he =>
      h e (List.mem_append_right _ (List.mem_flatMap.2 ⟨t, by simp [hterm], he⟩))
    simp only [text, hterm, hhead, hlines, ht]

theorem Block.texts_congr {bs : List Block}
    (h : ∀ b ∈ bs, ∀ e ∈ b.mentions, ν.get e = ν'.get e) :
    bs.mapM (Block.text ν) = bs.mapM (Block.text ν') := by
  induction bs with
  | nil => rw [List.mapM_nil, List.mapM_nil]
  | cons b bs ih =>
    rw [List.mapM_cons, List.mapM_cons, text_congr (h b List.mem_cons_self),
      ih fun c hc => h c (List.mem_cons_of_mem _ hc)]

theorem Func.text_congr {f : Func} (h : ∀ e ∈ f.mentions, ν.get e = ν'.get e) :
    f.text ν = f.text ν' := by
  have hparams : f.params.zipIdx.map
      (fun p => p.1.type.text ++ " " ++ localIdent ν p.1.name (.param f.id p.2)) =
      f.params.zipIdx.map
        fun p => p.1.type.text ++ " " ++ localIdent ν' p.1.name (.param f.id p.2) := by
    refine List.map_congr_left fun p hp => ?_
    have hmem : Entity.param f.id p.2 ∈ f.mentions :=
      List.mem_append_left _ (List.mem_cons_of_mem _ (List.mem_map.2 ⟨p, hp, rfl⟩))
    rw [localIdent, localIdent, Numbering.written_congr (h _ hmem)]
  have hid : f.id.ident ν = f.id.ident ν' :=
    congrArg ("@" ++ ·) (Numbering.written_congr (h _ List.mem_cons_self) _)
  have hsig : f.signature ν = f.signature ν' := by
    simp only [signature, hid, hparams]
  have hblocks : f.blocks.mapM (Block.text ν) = f.blocks.mapM (Block.text ν') :=
    Block.texts_congr fun b hb e he =>
      h e (List.mem_append_right _ (List.mem_flatMap.2 ⟨b, hb, he⟩))
  unfold text
  split
  · rw [hsig]
  · rw [hsig, hblocks]

end Congruence

/-! ## Functions -/

/-- The function that something is local to. -/
def Entity.home? : Entity → Option FuncId
  | global _ | func _ => none
  | param f _ | result f _ => some f
  | block l => some l.func

/-- Numbers after others: some entities are counted from zero, and all others are as before. -/
structure Numbering.Counts (ν : Numbering) (es : List Entity) (ν' : Numbering) : Prop where
  /-- the entities have their places as numbers -/
  place : ∀ i e, es[i]? = some e → ν'.get e = i
  /-- the others have the numbers they had -/
  other : ∀ e, e ∉ es → ν'.get e = ν.get e

theorem Numbering.Fits.counts {ν : Numbering} {es : List Entity} (h : ν.Fits 0 es)
    (hnd : es.Nodup) : ν.Counts es (ν.assign 0 es).1 where
  place := fun i e he => by simpa using get_assign_of_fits hnd h he
  other := fun _ he => get_assign_of_notMem he

/-- Entities that are counted once are counted in the same way again. -/
theorem Numbering.Counts.fits {ν ν' : Numbering} {es : List Entity} (h : ν.Counts es ν') :
    ν'.Fits 0 es := fun i e he => .inr (by rw [h.place i e he, Nat.zero_add])

/-- Other entities are counted as they were. -/
theorem Numbering.Counts.fits_iff {ν ν' : Numbering} {es fs : List Entity} (h : ν.Counts es ν')
    (hdisj : ∀ e ∈ fs, e ∉ es) : ν'.Fits 0 fs ↔ ν.Fits 0 fs :=
  fits_congr fun e he => h.other e (hdisj e he)

namespace Func

/-- A function that can be printed where its locals fit. -/
structure Printable (f : Func) : Prop where
  /-- every block has a terminator -/
  closed : ∀ b ∈ f.blocks, ∃ t, b.term = some t
  /-- what takes a number is listed once -/
  nodup : f.unnamed.Nodup
  /-- and is local to the function -/
  home : ∀ e ∈ f.unnamed, e.home? = some f.id

variable {f : Func} {ν : Numbering}

theorem Printable.exists_text (h : f.Printable) (ν : Numbering) : ∃ text, f.text ν = .ok text := by
  have hblocks : ∀ bs : List Block, (∀ b ∈ bs, ∃ t, b.term = some t) →
      ∃ texts, bs.mapM (Block.text ν) = .ok texts := by
    intro bs hbs
    induction bs with
    | nil => exact ⟨[], rfl⟩
    | cons b bs ih =>
      obtain ⟨t, ht⟩ := hbs b List.mem_cons_self
      obtain ⟨texts, htexts⟩ := ih fun c hc => hbs c (List.mem_cons_of_mem _ hc)
      rw [List.mapM_cons, htexts, Block.text, ht]
      exact ⟨_, rfl⟩
  obtain ⟨texts, htexts⟩ := hblocks f.blocks h.closed
  unfold text
  split
  · exact ⟨_, rfl⟩
  · rw [htexts]
    exact ⟨_, rfl⟩

theorem Printable.counts (h : f.Printable) (hfits : ν.Fits 0 f.unnamed) :
    ν.Counts f.unnamed (f.number ν).1 := hfits.counts h.nodup

theorem Printable.print_eq (h : f.Printable) (hfits : ν.Fits 0 f.unnamed) :
    f.print ν = ((f.number ν).1, f.text (f.number ν).1) := by
  have hnone : (f.number ν).2 = none := (Numbering.assign_snd_eq_none_iff h.nodup).2 hfits
  rcases hnumber : f.number ν with ⟨ν', stop⟩
  rw [hnumber] at hnone
  obtain rfl : stop = none := hnone
  rw [print, hnumber]

theorem Printable.print_of_not_fits (h : f.Printable) (hfits : ¬ ν.Fits 0 f.unnamed) :
    ∃ fault, (f.print ν).2 = .error fault := by
  rcases hnumber : f.number ν with ⟨ν', _ | ⟨expected, found⟩⟩
  · exact absurd ((Numbering.assign_snd_eq_none_iff h.nodup).1 (congrArg Prod.snd hnumber)) hfits
  · exact ⟨_, by rw [print, hnumber]⟩

end Func

/-! ## Modules -/

/-- Only locals have numbers. -/
def Numbering.LocalOnly (ν : Numbering) : Prop := ∀ e, e.home? = none → ν.get e = 0

namespace Module

variable {ν ν' : Numbering}

/-- Locals of one function are none of another. -/
theorem notMem_unnamed_of_ne {f g : Func} (hf : f.Printable) (hg : g.Printable) (hid : f.id ≠ g.id)
    {e : Entity} (he : e ∈ g.unnamed) : e ∉ f.unnamed := fun hmem =>
  hid (Option.some.inj ((hf.home e hmem).symm.trans (hg.home e he)))

/-- Functions are printed exactly if the locals of all fit. -/
theorem exists_printFuncs_iff {fs : List Func} (hfs : ∀ f ∈ fs, f.Printable)
    (hids : (fs.map Func.id).Nodup) :
    (∃ texts, (printFuncs ν fs).2 = .ok texts) ↔ ∀ f ∈ fs, ν.Fits 0 f.unnamed := by
  induction fs generalizing ν with
  | nil => exact iff_of_true ⟨[], rfl⟩ nofun
  | cons f fs ih =>
    obtain ⟨hf, hfs⟩ := List.forall_mem_cons.1 hfs
    obtain ⟨hid, hids⟩ := List.nodup_cons.1 hids
    rw [List.forall_mem_cons]
    by_cases hfits : ν.Fits 0 f.unnamed
    · obtain ⟨text, htext⟩ := hf.exists_text (f.number ν).1
      have hrest : (∀ g ∈ fs, (f.number ν).1.Fits 0 g.unnamed) ↔ ∀ g ∈ fs, ν.Fits 0 g.unnamed := by
        refine forall₂_congr fun g hg => (hf.counts hfits).fits_iff fun e he => ?_
        exact notMem_unnamed_of_ne hf (hfs g hg) (fun heq => hid (heq ▸ List.mem_map_of_mem hg)) he
      rw [and_iff_right hfits, ← hrest, ← ih hfs hids, printFuncs, hf.print_eq hfits, htext]
      dsimp only
      rcases printFuncs (f.number ν).1 fs with ⟨ν₁, fault | texts⟩
      · simp
      · simp
    · obtain ⟨fault, hfault⟩ := hf.print_of_not_fits hfits
      refine iff_of_false ?_ fun h => hfits h.1
      rintro ⟨texts, htexts⟩
      rcases hprint : f.print ν with ⟨ν₁, result⟩
      rw [hprint] at hfault
      obtain rfl : result = .error fault := hfault
      rw [printFuncs, hprint] at htexts
      cases htexts

/-- Numbers that fit and agree on what is mentioned from elsewhere make no difference. -/
theorem printFuncs_congr {fs : List Func} (hfs : ∀ f ∈ fs, f.Printable)
    (hids : (fs.map Func.id).Nodup) (hfits : ∀ f ∈ fs, ν.Fits 0 f.unnamed)
    (hfits' : ∀ f ∈ fs, ν'.Fits 0 f.unnamed)
    (hagree : ∀ f ∈ fs, ∀ e ∈ f.mentions, e ∉ f.unnamed → ν.get e = ν'.get e) :
    (printFuncs ν fs).2 = (printFuncs ν' fs).2 := by
  induction fs generalizing ν ν' with
  | nil => rfl
  | cons f fs ih =>
    obtain ⟨hf, hfs⟩ := List.forall_mem_cons.1 hfs
    obtain ⟨hid, hids⟩ := List.nodup_cons.1 hids
    obtain ⟨hhead, hfits⟩ := List.forall_mem_cons.1 hfits
    obtain ⟨hhead', hfits'⟩ := List.forall_mem_cons.1 hfits'
    obtain ⟨hagreef, hagree⟩ := List.forall_mem_cons.1 hagree
    have hcounts := hf.counts hhead
    have hcounts' := hf.counts hhead'
    -- once the function is counted, both have its locals, and what they had in common before
    have hsame : ∀ e, (e ∉ f.unnamed → ν.get e = ν'.get e) →
        (f.number ν).1.get e = (f.number ν').1.get e := by
      intro e he
      by_cases hmem : e ∈ f.unnamed
      · obtain ⟨i, hi⟩ := List.mem_iff_getElem?.1 hmem
        exact (hcounts.place i e hi).trans (hcounts'.place i e hi).symm
      · exact (hcounts.other e hmem).trans ((he hmem).trans (hcounts'.other e hmem).symm)
    have htext : f.text (f.number ν).1 = f.text (f.number ν').1 :=
      Func.text_congr fun e he => hsame e (hagreef e he)
    have hdisj : ∀ g ∈ fs, ∀ e ∈ g.unnamed, e ∉ f.unnamed := fun g hg e he =>
      notMem_unnamed_of_ne hf (hfs g hg) (fun heq => hid (heq ▸ List.mem_map_of_mem hg)) he
    have hrest : (printFuncs (f.number ν).1 fs).2 = (printFuncs (f.number ν').1 fs).2 := by
      refine ih hfs hids (fun g hg => ?_) (fun g hg => ?_) fun g hg e he hmem => ?_
      · exact (hcounts.fits_iff (hdisj g hg)).2 (hfits g hg)
      · exact (hcounts'.fits_iff (hdisj g hg)).2 (hfits' g hg)
      · exact hsame e fun _ => hagree g hg e he hmem
    rw [printFuncs, hf.print_eq hhead, printFuncs, hf.print_eq hhead', htext]
    rcases f.text (f.number ν').1 with fault | text
    · rfl
    · dsimp only
      rcases h₁ : printFuncs (f.number ν).1 fs with ⟨ν₁, result⟩
      rcases h₂ : printFuncs (f.number ν').1 fs with ⟨ν₂, result'⟩
      rw [h₁, h₂] at hrest
      obtain rfl : result = result' := hrest
      cases result with
      | error => rfl
      | ok => rfl

/-- A module that can be printed where the locals of its functions fit. -/
structure Printable (m : Module) : Prop where
  /-- its functions can be printed -/
  funcs : ∀ f ∈ m.funcs, f.Printable
  /-- they are told apart -/
  ids : (m.funcs.map Func.id).Nodup
  /-- its global variables are told apart -/
  globals : (m.globals.map Global.id).Nodup

variable {m : Module}

theorem home?_of_mem_unnamed {e : Entity} (he : e ∈ m.unnamed) : e.home? = none := by
  rcases List.mem_append.1 he with he | he
  · obtain ⟨g, -, rfl⟩ := List.mem_map.1 he
    rfl
  · obtain ⟨f, -, rfl⟩ := List.mem_map.1 he
    rfl

theorem Printable.nodup_unnamed (h : m.Printable) : m.unnamed.Nodup := by
  refine List.Nodup.append ?_ ?_ ?_
  · have hids : (m.globals.map fun g => Entity.global g.id).Nodup := by
      have := h.globals.map (f := Entity.global) fun a b hab => by cases hab; rfl
      rwa [List.map_map] at this
    exact hids.sublist (List.filter_sublist.map _)
  · have hids : (m.funcs.map fun f => Entity.func f.id).Nodup := by
      have := h.ids.map (f := Entity.func) fun a b hab => by cases hab; rfl
      rwa [List.map_map] at this
    exact hids.sublist (List.filter_sublist.map _)
  · intro e he he'
    obtain ⟨g, -, rfl⟩ := List.mem_map.1 he
    obtain ⟨f, -, heq⟩ := List.mem_map.1 he'
    cases heq

theorem Printable.notMem_unnamed (h : m.Printable) {f : Func} (hf : f ∈ m.funcs) {e : Entity}
    (he : e ∈ f.unnamed) : e ∉ m.unnamed := fun hmem => by
  have hhome := (h.funcs f hf).home e he
  rw [home?_of_mem_unnamed hmem] at hhome
  cases hhome

theorem Printable.counts (h : m.Printable) (hshared : m.numbers.LocalOnly) :
    m.numbers.Counts m.unnamed m.number.1 ∧ m.number.2 = none := by
  have hfits : m.numbers.Fits 0 m.unnamed := fun i e he =>
    .inl (hshared e (home?_of_mem_unnamed (List.mem_of_getElem? he)))
  exact ⟨hfits.counts h.nodup_unnamed,
    (Numbering.assign_snd_eq_none_iff h.nodup_unnamed).2 hfits⟩

/-- The text of a module once its functions have theirs. -/
theorem Printable.print_snd (h : m.Printable) (hshared : m.numbers.LocalOnly) :
    m.print.2 = (printFuncs m.number.1 m.funcs).2.map fun texts =>
      String.join (m.globals.map fun g => g.text m.number.1 ++ "\n") ++
        (if m.globals.isEmpty || m.funcs.isEmpty then "" else "\n") ++
        "\n".intercalate (texts.map fun t => t ++ "\n") := by
  obtain ⟨-, hnone⟩ := h.counts hshared
  rcases hnumber : m.number with ⟨ν, stop⟩
  rw [hnumber] at hnone
  obtain rfl : stop = none := hnone
  rw [print, hnumber]

/-- A module whose shared names have no numbers is printed exactly if the locals of all functions
fit. -/
theorem Printable.exists_print_iff (h : m.Printable) (hshared : m.numbers.LocalOnly) :
    (∃ text, m.print.2 = .ok text) ↔ ∀ f ∈ m.funcs, m.numbers.Fits 0 f.unnamed := by
  obtain ⟨hcounts, -⟩ := h.counts hshared
  have hsame : (∀ f ∈ m.funcs, m.number.1.Fits 0 f.unnamed) ↔
      ∀ f ∈ m.funcs, m.numbers.Fits 0 f.unnamed :=
    forall₂_congr fun f hf => hcounts.fits_iff fun _ => h.notMem_unnamed hf
  rw [← hsame, ← exists_printFuncs_iff h.funcs h.ids, h.print_snd hshared]
  rcases (printFuncs m.number.1 m.funcs).2 with fault | texts
  · simp [Except.map]
  · simp [Except.map]

/-- Modules that differ in their numbers alone have one text, if what has a number in either fits
and what else is mentioned has the same number in both. -/
theorem Printable.print_congr {m' : Module} (h : m.Printable) (hglobals : m'.globals = m.globals)
    (hfuncs : m'.funcs = m.funcs) (hshared : m.numbers.LocalOnly)
    (hshared' : m'.numbers.LocalOnly) (hfits : ∀ f ∈ m.funcs, m.numbers.Fits 0 f.unnamed)
    (hfits' : ∀ f ∈ m.funcs, m'.numbers.Fits 0 f.unnamed)
    (hagree : ∀ f ∈ m.funcs, ∀ e ∈ f.mentions, e ∉ f.unnamed →
      m.numbers.get e = m'.numbers.get e) : m.print.2 = m'.print.2 := by
  have h' : m'.Printable := ⟨hfuncs ▸ h.funcs, hfuncs ▸ h.ids, hglobals ▸ h.globals⟩
  have hunnamed : m'.unnamed = m.unnamed := by rw [unnamed, unnamed, hglobals, hfuncs]
  obtain ⟨hcounts, -⟩ := h.counts hshared
  obtain ⟨hcounts', -⟩ := h'.counts hshared'
  rw [hunnamed] at hcounts'
  have hsame : ∀ e, m.numbers.get e = m'.numbers.get e → m.number.1.get e = m'.number.1.get e := by
    intro e he
    by_cases hmem : e ∈ m.unnamed
    · obtain ⟨i, hi⟩ := List.mem_iff_getElem?.1 hmem
      exact (hcounts.place i e hi).trans (hcounts'.place i e hi).symm
    · exact (hcounts.other e hmem).trans (he.trans (hcounts'.other e hmem).symm)
  have htexts : (printFuncs m.number.1 m.funcs).2 = (printFuncs m'.number.1 m.funcs).2 := by
    refine printFuncs_congr h.funcs h.ids (fun f hf => ?_) (fun f hf => ?_) fun f hf e he hmem => ?_
    · exact (hcounts.fits_iff fun _ => h.notMem_unnamed hf).2 (hfits f hf)
    · exact (hcounts'.fits_iff fun _ => h.notMem_unnamed hf).2 (hfits' f hf)
    · exact hsame e (hagree f hf e he hmem)
  have hvars : m.globals.map (fun g => g.text m.number.1 ++ "\n") =
      m.globals.map fun g => g.text m'.number.1 ++ "\n" := by
    refine List.map_congr_left fun g _ => ?_
    have hzero : m.numbers.get (.global g.id) = m'.numbers.get (.global g.id) :=
      (hshared _ rfl).trans (hshared' _ rfl).symm
    have hid : g.id.ident m.number.1 = g.id.ident m'.number.1 :=
      congrArg ("@" ++ ·) (Numbering.written_congr (hsame _ hzero) _)
    rw [Global.text, Global.text, hid]
  rw [h.print_snd hshared, h'.print_snd hshared', hglobals, hfuncs, htexts, hvars]

end Module

end Shader.Ir
