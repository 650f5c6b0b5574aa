import Shader.Proofs.Execution.Code
import Shader.Proofs.Semantics.Positions

/-!
# Steps and positions

`Module.Moves` says once what a step of a machine can be: an instruction, a call, a way to another
block, or the return from a call.

While a function is written, the end of what has been written is a position of the machine.
`Draft.AtPoint` says that a function on its way is at the point of a draft, with respect to the
finished function. Code without branches that has been written between two points is carried out by
the machine between them.
-/

namespace Shader.Ir

section

variable {R : Type} {N : Arithmetic R} {m : Module} {s t : Machine R}

/-! ## Steps -/

/-- What a step can be. -/
inductive Module.Moves (m : Module) (N : Arithmetic R) : Machine R → Machine R → Prop
  /-- an instruction -/
  | compute {a : Activation R} {below : List (Activation R)} {memory memory' : Memory R}
      {line : Line} {rest : List Line} {w : Option (Datum R)} (next : a.rest = line :: rest)
      (effect : line.inst.effect N (a.view memory) = some (w, memory')) :
      Moves m N ⟨a :: below, memory⟩ ⟨a.behind line.reg rest w :: below, memory'⟩
  /-- a call -/
  | call {a callee : Activation R} {below : List (Activation R)} {memory : Memory R} {line : Line}
      {rest : List Line} {id : FuncId} {result : Ty} {args : List Value} {f : Func}
      {ws : List (Datum R)} (next : a.rest = line :: rest) (inst : line.inst = .call id result args)
      (func : m.func? id = some f) (values : args.mapM (a.value N) = some ws)
      (start : f.activation ws = some callee) :
      Moves m N ⟨a :: below, memory⟩ ⟨callee :: a :: below, memory⟩
  /-- the way to another block -/
  | go {a : Activation R} {below : List (Activation R)} {memory : Memory R} {b b' : Block}
      {term : Term} {l : Label} (done : a.rest = []) (block : m.block? a.func a.block = some b)
      (ends : b.term = some term) (way : l ∈ term.successors)
      (target : m.block? a.func l = some b') :
      Moves m N ⟨a :: below, memory⟩ ⟨a.enter b' :: below, memory⟩
  /-- the return from a call -/
  | leave {a caller caller' : Activation R} {below : List (Activation R)} {memory : Memory R}
      {b : Block} {x : Option Value} {w : Option (Datum R)} (done : a.rest = [])
      (block : m.block? a.func a.block = some b) (ends : b.term = some (.ret x))
      (value : a.returned N x = some w) (resume : caller.resume w = some caller') :
      Moves m N ⟨a :: caller :: below, memory⟩ ⟨caller' :: below, memory⟩

namespace Module

theorem moves_of_perform {a : Activation R} {below : List (Activation R)} {memory : Memory R}
    {line : Line} {rest : List Line} (hnext : a.rest = line :: rest)
    (h : m.perform N a below memory line rest = some t) :
    m.Moves N ⟨a :: below, memory⟩ t := by
  unfold perform at h
  split at h
  next id result args hinst =>
    obtain ⟨f, hf, h⟩ := Option.bind_eq_some_iff.1 h
    obtain ⟨ws, hws, h⟩ := Option.bind_eq_some_iff.1 h
    obtain ⟨callee, hcallee, h⟩ := Option.bind_eq_some_iff.1 h
    cases h
    exact .call hnext hinst hf hws hcallee
  next =>
    obtain ⟨⟨w, memory'⟩, heffect, rfl⟩ := Option.map_eq_some_iff.1 h
    exact .compute hnext heffect

theorem moves_of_follow {a : Activation R} {below : List (Activation R)} {memory : Memory R}
    {b : Block} {term : Term} (hdone : a.rest = []) (hblock : m.block? a.func a.block = some b)
    (hterm : b.term = some term) (h : m.follow N a below memory term = some t) :
    m.Moves N ⟨a :: below, memory⟩ t := by
  cases term with
  | br l =>
    obtain ⟨b', hb', rfl⟩ := Option.map_eq_some_iff.1 h
    exact .go hdone hblock hterm (List.mem_singleton.2 rfl) hb'
  | condBr c yes no =>
    simp only [follow] at h
    split at h
    next bit hbit =>
      obtain ⟨b', hb', rfl⟩ := Option.map_eq_some_iff.1 h
      refine .go hdone hblock hterm ?_ hb'
      cases bit <;> simp [Term.successors]
    next => cases h
  | ret x =>
    obtain ⟨w, hw, h⟩ := Option.bind_eq_some_iff.1 h
    cases below with
    | nil => cases h
    | cons caller below =>
      obtain ⟨caller', hcaller, h⟩ := Option.bind_eq_some_iff.1 h
      cases h
      exact .leave hdone hblock hterm hw hcaller

/-- Every step is one of these. -/
theorem moves_of_step (h : m.step N s = some t) : m.Moves N s t := by
  obtain ⟨stack, memory⟩ := s
  cases stack with
  | nil => cases h
  | cons a below =>
    simp only [step] at h
    split at h
    next hdone =>
      obtain ⟨term, hterm, h⟩ := Option.bind_eq_some_iff.1 h
      obtain ⟨b, hb, hterm⟩ := Option.bind_eq_some_iff.1 hterm
      exact moves_of_follow hdone hb hterm h
    next line rest hnext => exact moves_of_perform hnext h

/-- An instruction that has an effect is carried out. -/
theorem step_compute {a : Activation R} {below : List (Activation R)} {memory memory' : Memory R}
    {line : Line} {rest : List Line} {w : Option (Datum R)} (hnext : a.rest = line :: rest)
    (heffect : line.inst.effect N (a.view memory) = some (w, memory')) :
    m.step N ⟨a :: below, memory⟩ = some ⟨a.behind line.reg rest w :: below, memory'⟩ := by
  simp only [step, hnext, perform]
  split
  next id result args hinst =>
    rw [hinst] at heffect
    cases heffect
  next => rw [heffect, Option.map_some]

/-- The machine comes to a state of some kind for the first time, in a number of steps. -/
structure Arrives (m : Module) (N : Arithmetic R) (P : Machine R → Prop) (n : Nat)
    (s t : Machine R) : Prop where
  /-- it comes there -/
  comes : m.after N n s = some t
  /-- the state is of this kind -/
  there : P t
  /-- and no earlier one is -/
  first : ∀ k < n, ∀ u, m.after N k s = some u → ¬ P u

/-- What holds at first and is kept by steps holds on arrival. -/
theorem Arrives.invariant {P Q : Machine R → Prop} {n : Nat} (h : m.Arrives N P n s t) (hs : Q s)
    (hstep : ∀ u u', Q u → ¬ P u → m.Moves N u u' → Q u') : Q t := by
  obtain ⟨hcomes, -, hfirst⟩ := h
  induction n generalizing s with
  | zero => exact Option.some.inj hcomes ▸ hs
  | succ n ih =>
    rw [after] at hcomes
    obtain ⟨u, hu, hcomes⟩ := Option.bind_eq_some_iff.1 hcomes
    have hnot : ¬ P s := hfirst 0 (Nat.succ_pos n) s rfl
    refine ih (hstep s u hs hnot (moves_of_step hu)) hcomes fun k hk u' hu' => ?_
    refine hfirst (k + 1) (Nat.succ_lt_succ hk) u' ?_
    rw [after, hu]
    exact hu'

/-- Behind a step, the way is one step shorter. -/
theorem Arrives.behind {P : Machine R → Prop} {n : Nat} {u : Machine R} (h : m.Arrives N P n s t)
    (hs : ¬ P s) (hstep : m.step N s = some u) : ∃ k, m.Arrives N P k u t := by
  obtain ⟨hcomes, hthere, hfirst⟩ := h
  cases n with
  | zero => exact absurd (Option.some.inj hcomes ▸ hthere) hs
  | succ n =>
    rw [after, hstep] at hcomes
    refine ⟨n, hcomes, hthere, fun k hk u' hu' => hfirst (k + 1) (Nat.succ_lt_succ hk) u' ?_⟩
    rw [after, hstep]
    exact hu'

end Module

/-! ## Positions -/

/-- A function on its way has carried out what has been written in the block at the point. -/
structure Draft.AtPoint (d : Draft) (f : Func) (a : Activation R) : Prop where
  /-- it is this function -/
  func : a.func = f.id
  /-- what is left is what comes behind the point -/
  place : ∃ l b b', d.point = some l ∧ d.func.At l b ∧ f.At l b' ∧ a.block = l ∧
    a.rest = b'.body.drop b.body.length

namespace Draft

variable {f : Func} {a : Activation R} {d d' : Draft}

/-- The next instruction is the one that has been written next. -/
theorem AtPoint.next (h : d.AtPoint f a) {l : Label} {inst : Inst} (hpoint : d.point = some l)
    (hbody : inst.isAlloca = false) (hle : (d.func.put l inst).Le f) :
    ∃ rest, a.rest = { reg := d.func.regs, inst } :: rest ∧ ∀ w,
      ({ d with func := d.func.put l inst } : Draft).AtPoint f (a.behind d.func.regs rest w) := by
  obtain ⟨hfunc, l', b, b', hl, hb, hb', hblock, hrest⟩ := h
  obtain rfl : l' = l := Option.some.inj (hl.symm.trans hpoint)
  let line : Line := { reg := d.func.regs, inst }
  have hat : (d.func.put l' inst).At l' (d.func.withLine inst b) := Func.at_put_self hb
  have hlines : (d.func.withLine inst b).body = b.body ++ [line] := by
    simp [Func.withLine, Block.body, hbody, line]
  obtain ⟨e, he, hble⟩ := hle.blocks l' _ hat
  obtain rfl := he.unique hb'
  obtain ⟨more, hmore⟩ := hble.body
  rw [hlines, List.append_assoc] at hmore
  refine ⟨more, ?_, fun w => ⟨hfunc, l', _, e, hl, hat, hb', hblock, ?_⟩⟩
  · rw [hrest, ← hmore, List.drop_left]
    rfl
  · have hlen : (d.func.withLine inst b).body.length = (b.body ++ [line]).length := by rw [hlines]
    change more = _
    rw [hlen, ← hmore, ← List.append_assoc, List.drop_left]

end Draft

/-- The block at the point of a draft is open. -/
def Draft.IsOpen (d : Draft) : Prop := ∃ l b, d.point = some l ∧ d.func.At l b ∧ b.term = none

section

variable {d d' : Draft} {l : Label} {inst : Inst}

theorem Draft.IsOpen.le_put (h : d.IsOpen) (hpoint : d.point = some l) :
    d.func.Le (d.func.put l inst) := by
  obtain ⟨l', b, hl, hb, ho⟩ := h
  obtain rfl : l' = l := Option.some.inj (hl.symm.trans hpoint)
  exact Func.le_put hb ho

theorem Draft.IsOpen.put (h : d.IsOpen) (hpoint : d.point = some l) :
    ({ d with func := d.func.put l inst } : Draft).IsOpen := by
  obtain ⟨l', b, hl, hb, ho⟩ := h
  obtain rfl : l' = l := Option.some.inj (hl.symm.trans hpoint)
  exact ⟨l', _, hl, Func.at_put_self hb, ho⟩

namespace Executes

variable {v v' : View R}

theorem le (h : Executes N d v d' v') (hopen : d.IsOpen) : d.func.Le d'.func := by
  induction h with
  | done => exact .refl _
  | next hpoint _ _ _ ih => exact (hopen.le_put hpoint).trans (ih (hopen.put hpoint))

/-- The machine carries out code without branches. -/
theorem reaches (h : Executes N d v d' v') (hopen : d.IsOpen) {f : Func} (hle : d'.func.Le f)
    {a : Activation R} (ha : d.AtPoint f a) (hv : a.view v.memory = v)
    (below : List (Activation R)) :
    ∃ a', m.Reaches N ⟨a :: below, v.memory⟩ ⟨a' :: below, v'.memory⟩ ∧ d'.AtPoint f a' ∧
      a'.view v'.memory = v' := by
  induction h generalizing a with
  | done => exact ⟨a, .refl _, ha, hv⟩
  | @next d d' v v' l inst w memory hpoint hbody heffect hrest ih =>
    have hopen' : ({ d with func := d.func.put l inst } : Draft).IsOpen := hopen.put hpoint
    obtain ⟨rest, hnext, hbehind⟩ := ha.next hpoint hbody ((hrest.le hopen').trans hle)
    have hstep : m.step N ⟨a :: below, _⟩ = _ := Module.step_compute hnext (hv.symm ▸ heffect)
    have hview : (a.behind d.func.regs rest w).view memory = v.behind d.func.regs w memory := by
      rw [← hv]
      rfl
    obtain ⟨a', hreach, hpoint', hview'⟩ := ih hopen' hle (hbehind w) hview
    exact ⟨a', .step hstep hreach, hpoint', hview'⟩

end Executes

end

end

end Shader.Ir
