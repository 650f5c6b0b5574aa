import Shader.Proofs.Execution.Positions
import Shader.Proofs.Lowering.Expressions

/-!
# Regions of code

What is written between two points, with new blocks or without, is a region of the finished
function: control comes in at the first point and goes out at the second one, or not at all. While
it is inside, also through calls, it changes no result of an older instruction, and the functions
that wait for this one stay as they are.
-/

namespace Shader.Ir

/-! ## What has been written between two points -/

section

variable {O : Outside} {n : Nat} {w : Option Label} {t : Label → Prop} {s s' : Site}

/-- A step adds an instruction to a block at most, with the next number. -/
theorem Step.body_cases (h : Step O n w t s s') (ht : s.func.Tidy) {l : Label} {b' : Block}
    (hb' : s'.func.At l b') :
    (b'.body = [] ∧ s.func.labels ≤ l.index) ∨ ∃ b, s.func.At l b ∧ (b'.body = b.body ∨
      ∃ line : Line, line.reg = s.func.regs ∧ b'.body = b.body ++ [line]) := by
  have hput : ∀ {k : Label} {c : Block} {inst : Inst}, s.func.At k c → inst.isAlloca = false →
      (s.func.put k inst).At l b' → ∃ b, s.func.At l b ∧ (b'.body = b.body ∨
        ∃ line : Line, line.reg = s.func.regs ∧ b'.body = b.body ++ [line]) := by
    intro k c inst hc hbody hat
    by_cases hl : l = k
    · subst hl
      obtain rfl := hat.unique (Func.at_put_self hc)
      refine ⟨c, hc, .inr ⟨{ reg := s.func.regs, inst }, rfl, ?_⟩⟩
      simp [Func.withLine, Block.body, hbody]
    · exact ⟨b', (Func.at_put_ne hl).1 hat, .inl rfl⟩
  cases h with
  | put _ hb _ _ ha => exact .inr (hput hb ha hb')
  | phi _ hb => exact .inr (hput hb rfl hb')
  | @close k c term _ hc =>
    by_cases hl : l = k
    · subst hl
      obtain rfl := hb'.unique (Func.at_close_self hc)
      exact .inr ⟨c, hc, .inl rfl⟩
    · exact .inr ⟨b', (Func.at_close_ne hl).1 hb', .inl rfl⟩
  | block hint promise =>
    rcases Func.at_addBlock ht hb' with hb | ⟨rfl, rfl⟩
    · exact .inr ⟨b', hb, .inl rfl⟩
    · exact .inl ⟨rfl, Nat.le_refl _⟩
  | slot hint =>
    obtain ⟨b, hb, rfl⟩ := Func.at_reserve.1 hb'
    refine .inr ⟨b, hb, .inl ?_⟩
    unfold Func.withSlot
    split
    · exact Emit.filter_insertAlloca rfl _ b.lines
    · rfl
  | move => exact .inr ⟨b', hb', .inl rfl⟩

/-- A step ends a block at most, and then control goes where it may. -/
theorem Step.term_cases (h : Step O n w t s s') (ht : s.func.Tidy) {l : Label} {b' : Block}
    {term : Term} (hb' : s'.func.At l b') (hterm : b'.term = some term) :
    (∃ b, s.func.At l b ∧ b.term = some term) ∨ ∀ k ∈ term.successors, n ≤ k.index ∨ t k := by
  have hput : ∀ {k : Label} {c : Block} {inst : Inst}, s.func.At k c →
      (s.func.put k inst).At l b' → ∃ b, s.func.At l b ∧ b.term = some term := by
    intro k c inst hc hat
    by_cases hl : l = k
    · subst hl
      obtain rfl := hat.unique (Func.at_put_self hc)
      exact ⟨c, hc, hterm⟩
    · exact ⟨b', (Func.at_put_ne hl).1 hat, hterm⟩
  cases h with
  | put _ hb => exact .inl (hput hb hb')
  | phi _ hb => exact .inl (hput hb hb')
  | @close k c term' _ hc _ _ _ _ htargets =>
    by_cases hl : l = k
    · subst hl
      obtain rfl := hb'.unique (Func.at_close_self hc)
      obtain rfl := Option.some.inj hterm
      exact .inr fun j hj => (htargets j hj).2.2.1
    · exact .inl ⟨b', (Func.at_close_ne hl).1 hb', hterm⟩
  | block hint promise =>
    rcases Func.at_addBlock ht hb' with hb | ⟨rfl, rfl⟩
    · exact .inl ⟨b', hb, hterm⟩
    · cases hterm
  | slot hint =>
    obtain ⟨b, hb, rfl⟩ := Func.at_reserve.1 hb'
    exact .inl ⟨b, hb, by simpa using hterm⟩
  | move => exact .inl ⟨b', hb', hterm⟩

/-- Instructions that have been written since have later numbers. -/
theorem Steps.regs_le (h : Steps O n w t s s') (ht : s.func.Tidy) {l : Label} {b' : Block}
    (hb' : s'.func.At l b') {i : Nat} {line : Line} (hline : b'.body[i]? = some line)
    (hnew : ∀ b, s.func.At l b → b.body.length ≤ i) : s.func.regs ≤ line.reg := by
  induction h generalizing b' with
  | refl =>
    have := hnew b' hb'
    rw [List.getElem?_eq_none this] at hline
    cases hline
  | @tail u u' hsteps hstep ih =>
    have hle := Steps.le hsteps
    rcases hstep.body_cases (Steps.tidy hsteps ht) hb' with ⟨hnil, -⟩ | ⟨b, hb, hbody⟩
    · rw [hnil] at hline
      cases hline
    · rcases hbody with hbody | ⟨last, hlast, hbody⟩
      · exact ih hb (hbody ▸ hline)
      · rw [hbody] at hline
        rcases Nat.lt_trichotomy i b.body.length with hi | rfl | hi
        · rw [List.getElem?_append_left hi] at hline
          exact ih hb hline
        · rw [List.getElem?_concat_length] at hline
          obtain rfl := Option.some.inj hline
          exact hlast ▸ hle.regs
        · rw [List.getElem?_eq_none (by simp; omega)] at hline
          cases hline

/-- From blocks that have been ended since, control goes where it may. -/
theorem Steps.ways (h : Steps O n w t s s') (ht : s.func.Tidy) {l : Label} {b' : Block}
    {term : Term} (hb' : s'.func.At l b') (hterm : b'.term = some term) :
    (∃ b, s.func.At l b ∧ b.term = some term) ∨ ∀ k ∈ term.successors, n ≤ k.index ∨ t k := by
  induction h generalizing b' with
  | refl => exact .inl ⟨b', hb', hterm⟩
  | tail hsteps hstep ih =>
    rcases hstep.term_cases (Steps.tidy hsteps ht) hb' hterm with ⟨b, hb, hterm'⟩ | hways
    · exact ih hb hterm'
    · exact .inr hways

end

/-! ### Returns -/

/-- No block has been ended by a return since. -/
def Draft.NoReturn (d d' : Draft) : Prop :=
  ∀ l b v, d'.func.At l b → b.term = some (.ret v) →
    ∃ c, d.func.At l c ∧ c.term = some (.ret v)

namespace Draft.NoReturn

variable {d d' d'' : Draft}

theorem refl (d : Draft) : d.NoReturn d := fun _ b _ hb hv => ⟨b, hb, hv⟩

theorem trans (h : d.NoReturn d') (h' : d'.NoReturn d'') : d.NoReturn d'' := by
  intro l b v hb hv
  obtain ⟨c, hc, hcv⟩ := h' l b v hb hv
  exact h l c v hc hcv

theorem append {inst : Inst} {v : Value} (h : Emit.append inst d = .ok (v, d')) :
    d.NoReturn d' := by
  obtain ⟨l, -, -, -, -, rfl⟩ := Emit.append_cases h
  intro k b x hb hx
  obtain ⟨c, hc, rfl⟩ := (Func.at_modifyBlock (g := d.func.withLine inst) fun _ => rfl).1 hb
  refine ⟨c, hc, ?_⟩
  split at hx <;> exact hx

theorem terminate {term : Term} {u : Unit} (hterm : ∀ v, term ≠ .ret v)
    (h : Emit.terminate term d = .ok (u, d')) : d.NoReturn d' := by
  obtain ⟨l, -, rfl⟩ := Emit.terminate_cases h
  intro k b x hb hx
  obtain ⟨c, hc, rfl⟩ :=
    (Func.at_modifyBlock (g := fun b => { b with term := some term }) fun _ => rfl).1 hb
  refine ⟨c, hc, ?_⟩
  split at hx
  · exact absurd (Option.some.inj hx) (hterm x)
  · exact hx

theorem newBlock {hint : String} {l : Label} (h : Emit.newBlock hint d = .ok (l, d')) :
    d.NoReturn d' := by
  obtain ⟨-, rfl⟩ := Emit.newBlock_cases h
  intro k b x ⟨hb, hk⟩ hx
  change (d.func.blocks ++ [{ label := (d.func.addBlock hint).1 }])[k.index]? = some b at hb
  rcases Nat.lt_or_ge k.index d.func.blocks.length with hlt | hge
  · rw [List.getElem?_append_left hlt] at hb
    exact ⟨b, ⟨hb, hk⟩, hx⟩
  · rw [List.getElem?_append_right hge] at hb
    obtain rfl := List.mem_singleton.1 (List.mem_of_getElem? hb)
    cases hx

end Draft.NoReturn

end Shader.Ir

namespace Shader.Lowering

open Ir

theorem framing_noReturn : Framing fun b b' => b.draft.NoReturn b'.draft where
  refl b := .refl b.draft
  trans := .trans
  append _ _ _ := .append

theorem jumping_noReturn : Jumping (Frames fun b b' => b.draft.NoReturn b'.draft) where
  toStepwise := framing_noReturn.stepwise
  openPoint := .of_draft fun b _ _ h => draft_openPoint h ▸ .refl b.draft
  newBlock _ := .of_draft fun _ _ _ => .newBlock
  setPoint := .of_draft fun b _ _ h => by
    cases h
    exact .refl b.draft
  br := .of_draft fun _ _ _ => .terminate nofun
  condBr := .of_draft fun _ _ _ => .terminate nofun

/-- No expression returns. -/
theorem noReturn_expr {Γ : Signatures} {e : Expr} :
    Frames (fun b b' => b.draft.NoReturn b'.draft) (expr Γ e) :=
  stepwise_expr jumping_noReturn.toStepwise
    (framing_noReturn.resolving fun b _ _ => .refl b.draft) (.inr jumping_noReturn.splitting)

end Shader.Lowering

namespace Shader.Ir

/-! ## Inside a region -/

/-- The code that has been written between two sites, as part of a finished function. -/
structure Site.Region (O : Outside) (s s' : Site) (f : Func) : Prop where
  /-- writing begins at an open block, and ends at one -/
  leads : s.Leads O s.realm s'
  /-- labels are places, and control stays in what has been written -/
  ready : s.Ready s.realm
  /-- no block returns -/
  stays : s.draft.NoReturn s'.draft
  /-- the function has been finished -/
  le : s'.func.Le f
  /-- and can be carried out -/
  executable : f.Executable

/-- Control is between the points of two sites. -/
structure Activation.Within {R : Type} (s s' : Site) (f : Func) (a : Activation R) : Prop where
  /-- in this function -/
  func : a.func = f.id
  /-- in what has been written in between -/
  place : ∃ l b b' k, (s.point = some l ∨ s.func.labels ≤ l.index) ∧ s'.func.At l b ∧ f.At l b' ∧
    a.block = l ∧ a.rest = b'.body.drop k ∧ k ≤ b.body.length ∧
    ∀ c, s.func.At l c → c.body.length ≤ k

namespace Site.Region

variable {R : Type} {N : Arithmetic R} {O : Outside} {s s' : Site} {f : Func} {a : Activation R}

/-- Control comes in at the first point. -/
theorem within_start (h : s.Region O s' f) (ha : s.draft.AtPoint f a) : a.Within s s' f := by
  obtain ⟨hfunc, l, b, b', hl, hb, hb', hblock, hrest⟩ := ha
  obtain ⟨e, he, hble⟩ := h.leads.le.blocks l b hb
  exact ⟨hfunc, l, e, b', b.body.length, .inl hl, he, hb', hblock, hrest, hble.body.length_le,
    fun c hc => by rw [hc.unique hb]⟩

/-- At the end of a block in between, control goes to one that is in between as well, unless it is
at the second point. -/
theorem closed (h : s.Region O s' f) {l : Label} {b : Block}
    (hown : s.point = some l ∨ s.func.labels ≤ l.index) (hb : s'.func.At l b)
    (hpoint : s'.point ≠ some l) :
    ∃ term, b.term = some term ∧ (∀ v, term ≠ .ret v) ∧
      ∀ k ∈ term.successors, s.func.labels ≤ k.index := by
  -- the block was open or not there at first
  have hold : ∀ c, s.func.At l c → c.term = none := by
    intro c hc
    rcases hown with hl | hl
    · obtain ⟨⟨e, he, ho⟩, -⟩ := h.ready.point l hl
      rw [hc.unique he, ho]
    · exact absurd (h.ready.tidy.lt_labels hc) (Nat.not_lt.2 hl)
  rcases hterm : b.term with _ | term
  · -- an open block would have been one before
    obtain ⟨c, hc, -, hne⟩ := h.leads.closed l ⟨b, hb, hterm, hpoint⟩
    rcases hown with hl | hl
    · exact absurd hl hne
    · exact absurd (h.ready.tidy.lt_labels hc) (Nat.not_lt.2 hl)
  · refine ⟨term, rfl, ?_, ?_⟩
    · rintro v rfl
      obtain ⟨c, hc, hcterm⟩ := h.stays l b v hb hterm
      rw [hold c hc] at hcterm
      cases hcterm
    · rcases Steps.ways h.leads.steps h.ready.tidy hb hterm with ⟨c, hc, hcterm⟩ | hways
      · rw [hold c hc] at hcterm
        cases hcterm
      · exact fun k hk => (hways k hk).resolve_right id

/-- What comes next in between is a later instruction or the end of a block that does not return. -/
theorem next_cases (h : s.Region O s' f) (ha : a.Within s s' f)
    (hpoint : ¬ s'.draft.AtPoint f a) :
    (∃ line rest, a.rest = line :: rest ∧ s.func.regs ≤ line.reg ∧
      ∀ w, (a.behind line.reg rest w).Within s s' f) ∨
    (a.rest = [] ∧ ∃ b term, f.At a.block b ∧ b.term = some term ∧ (∀ v, term ≠ .ret v) ∧
      ∀ k ∈ term.successors, ∀ c, f.At k c → (a.enter c).Within s s' f) := by
  obtain ⟨hfunc, l, b, b', k, hown, hb, hb', hblock, hrest, hk, hold⟩ := ha
  obtain ⟨e, he, hble⟩ := h.le.blocks l b hb
  obtain rfl := he.unique hb'
  rcases Nat.lt_or_eq_of_le hk with hlt | rfl
  · -- an instruction that has been written in between
    left
    -- the finished block begins with the lines that the draft has
    have hlt' : k < e.body.length := Nat.lt_of_lt_of_le hlt hble.body.length_le
    have hsame : e.body[k] = b.body[k] := (hble.body.getElem hlt).symm
    refine ⟨e.body[k], e.body.drop (k + 1), ?_, ?_, fun w => ⟨hfunc, l, b, e, k + 1, hown, hb, hb',
      hblock, rfl, hlt, fun c hc => Nat.le_succ_of_le (hold c hc)⟩⟩
    · rw [hrest, List.drop_eq_getElem_cons hlt']
    · refine Steps.regs_le h.leads.steps h.ready.tidy hb (i := k) ?_ hold
      rw [hsame, List.getElem?_eq_getElem hlt]
  · -- the end of a block
    right
    have hne : s'.point ≠ some l := fun hl => hpoint ⟨hfunc, l, b, e, hl, hb, hb', hblock, hrest⟩
    obtain ⟨term, hterm, hret, hways⟩ := h.closed hown hb hne
    obtain ⟨hterm', hbody⟩ := hble.closed term hterm
    refine ⟨?_, e, term, hblock ▸ hb', hterm', hret, fun j hj c hc => ?_⟩
    · rw [hrest, hbody, List.drop_length]
    · have hnew := hways j hj
      obtain ⟨⟨d, hd⟩, h0⟩ :=
        h.leads.ready.shaped.inside l b hb j (by simpa [Block.successors, hterm])
      have hlines : c.lines = c.body := by
        have hfirst := h.executable.slotsFirst.first j c hc
        rwa [h.executable.slotsFirst.entry j c hc h0, List.nil_append] at hfirst
      exact ⟨hfunc, j, d, c, 0, .inr hnew, hd, hc, hc.2, hlines, Nat.zero_le _,
        fun c' hc' => absurd (h.ready.tidy.lt_labels hc') (Nat.not_lt.2 hnew)⟩

end Site.Region

/-! ## On the way through a region -/

section

variable {R : Type} {N : Arithmetic R} {m : Module} {O : Outside} {s s' : Site} {f : Func}
  {a : Activation R} {below : List (Activation R)} {memory : Memory R} {t u u' : Machine R}

/-- A function in a region, which was once `a`. -/
structure Activation.Inside (s s' : Site) (f : Func) (a' a : Activation R) : Prop where
  /-- control is in the region -/
  within : a'.Within s s' f
  /-- its arguments are the same -/
  args : a'.args = a.args
  /-- and so are the results of older instructions -/
  regs : ∀ r < s.func.regs, a'.regs r = a.regs r

theorem Activation.Inside.behind {a' : Activation R} (h : a'.Inside s s' f a) {line : Line}
    {rest : List Line} {w : Option (Datum R)} (hreg : s.func.regs ≤ line.reg)
    (hwithin : (a'.behind line.reg rest w).Within s s' f) :
    (a'.behind line.reg rest w).Inside s s' f a := by
  refine ⟨hwithin, h.args, fun r hr => ?_⟩
  rw [← h.regs r hr]
  cases w with
  | none => rfl
  | some w => exact Function.update_of_ne (by omega) _ _

/-- A function in a region, with the functions that it waits for above it and those that wait for it
below. -/
structure Machine.Confined (s s' : Site) (f : Func) (a : Activation R)
    (below : List (Activation R)) (t : Machine R) : Prop where
  /-- the functions on their way -/
  stack : ∃ above a', t.stack = above ++ a' :: below ∧ a'.Inside s s' f a ∧ (above ≠ [] →
    ∃ line rest, a'.rest = line :: rest ∧ s.func.regs ≤ line.reg ∧
      ∀ w, (a'.behind line.reg rest w).Within s s' f)

/-- The machine is at the point of a site, in the function above those that wait. -/
def Machine.Stands (s : Site) (f : Func) (below : List (Activation R)) (t : Machine R) : Prop :=
  ∃ a, t.stack = a :: below ∧ s.draft.AtPoint f a

/-- A step of a function that waits for no other. -/
theorem Machine.Confined.moves_top (h : s.Region O s' f) (hfunc : m.func? f.id = some f)
    {a' : Activation R} (ha : a'.Inside s s' f a) (hpoint : ¬ s'.draft.AtPoint f a')
    (hmove : m.Moves N ⟨a' :: below, memory⟩ u) : u.Confined s s' f a below := by
  -- the module has the function under its name, so blocks are found where they stand
  have hblock : ∀ {l : Label} {b c : Block}, f.At l b → m.block? a'.func l = some c → c = b := by
    intro l b c hb hc
    rw [Module.block?, ha.within.func, hfunc, Option.bind_some] at hc
    exact Option.some.inj (hc.symm.trans (h.executable.tidy.block?_eq hb))
  rcases h.next_cases ha.within hpoint with ⟨line, rest, hnext, hreg, hbehind⟩ |
      ⟨hnil, b, term, hb, hterm, hret, hways⟩
  · cases hmove with
    | compute hnext' =>
      obtain ⟨rfl, rfl⟩ := List.cons.inj (hnext.symm.trans hnext')
      exact ⟨[], _, rfl, ha.behind hreg (hbehind _), fun hne => absurd rfl hne⟩
    | @call _ callee =>
      exact ⟨[callee], a', rfl, ha, fun _ => ⟨line, rest, hnext, hreg, hbehind⟩⟩
    | go hdone => exact absurd (hnext.symm.trans hdone) (by simp)
    | leave hdone => exact absurd (hnext.symm.trans hdone) (by simp)
  · cases hmove with
    | compute hnext => exact absurd (hnil.symm.trans hnext) (by simp)
    | call hnext => exact absurd (hnil.symm.trans hnext) (by simp)
    | @go _ _ _ e c term' l hdone he hends hway htarget =>
      obtain rfl := hblock hb he
      obtain rfl := Option.some.inj (hterm.symm.trans hends)
      have hsome : f.block? l = some c := by
        rwa [Module.block?, ha.within.func, hfunc, Option.bind_some] at htarget
      obtain ⟨d, hd⟩ := (h.executable.shaped.inside _ e hb l
        (by simpa [Block.successors, hterm] using hway)).1
      obtain rfl := hblock hd htarget
      exact ⟨[], _, rfl, ⟨hways l hway c hd, ha.args, ha.regs⟩, fun hne => absurd rfl hne⟩
    | leave hdone he hends =>
      obtain rfl := hblock hb he
      exact absurd (Option.some.inj (hterm.symm.trans hends)) (hret _)

/-- Steps stay in the region until the second point is reached. -/
theorem Machine.Confined.moves (h : s.Region O s' f) (hfunc : m.func? f.id = some f)
    (hu : u.Confined s s' f a below) (hnot : ¬ u.Stands s' f below) (hmove : m.Moves N u u') :
    u'.Confined s s' f a below := by
  obtain ⟨above, a', hstack, ha, hwait⟩ := hu
  obtain ⟨stack, memory⟩ := u
  obtain rfl : stack = _ := hstack
  cases above with
  | nil => exact .moves_top h hfunc ha (fun hpoint => hnot ⟨a', rfl, hpoint⟩) hmove
  | cons c above =>
    replace hwait := hwait (List.cons_ne_nil _ _)
    rw [List.cons_append] at hmove
    generalize hrest : above ++ a' :: below = rest at hmove
    cases hmove with
    | compute => exact ⟨_ :: above, a', congrArg _ hrest.symm, ha, fun _ => hwait⟩
    | call => exact ⟨_ :: c :: above, a', congrArg _ (congrArg _ hrest.symm), ha, fun _ => hwait⟩
    | go => exact ⟨_ :: above, a', congrArg _ hrest.symm, ha, fun _ => hwait⟩
    | leave _ _ _ _ hresume =>
      cases above with
      | nil =>
        -- the last call returns, and its line is the one at which this function waits
        obtain ⟨rfl, rfl⟩ := List.cons.inj hrest
        obtain ⟨line, rest, hnext, hreg, hbehind⟩ := hwait
        simp only [Activation.resume, hnext, Option.some.injEq] at hresume
        subst hresume
        exact ⟨[], _, rfl, ha.behind hreg (hbehind _), fun hne => absurd rfl hne⟩
      | cons d above =>
        obtain ⟨rfl, rfl⟩ := List.cons.inj hrest
        exact ⟨_ :: above, a', rfl, ha, fun _ => hwait⟩

/-- Where the machine comes to the second point of a region for the first time, nothing older has
changed but the memory. -/
theorem Site.Region.arrives (h : s.Region O s' f) (hfunc : m.func? f.id = some f)
    (ha : s.draft.AtPoint f a) {n : Nat}
    (harrives : m.Arrives N (Machine.Stands s' f below) n ⟨a :: below, memory⟩ t) :
    ∃ a', t.stack = a' :: below ∧ s'.draft.AtPoint f a' ∧ a'.args = a.args ∧
      ∀ r < s.func.regs, a'.regs r = a.regs r := by
  have hconfined : t.Confined s s' f a below := harrives.invariant
    ⟨[], a, rfl, ⟨h.within_start ha, rfl, fun _ _ => rfl⟩, fun hne => absurd rfl hne⟩
    fun _ _ hu hnot hmove => hu.moves h hfunc hnot hmove
  obtain ⟨a', hstack, hpoint⟩ := harrives.there
  obtain ⟨above, a'', hstack', hinside, -⟩ := hconfined
  have hlen := congrArg List.length (hstack.symm.trans hstack')
  obtain rfl : above = [] := by simpa using hlen
  obtain rfl : a' = a'' := (List.cons.inj (hstack.symm.trans hstack')).1
  exact ⟨a', hstack, hpoint, hinside.args, hinside.regs⟩

end

end Shader.Ir
