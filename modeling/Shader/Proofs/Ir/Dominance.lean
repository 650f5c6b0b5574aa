import Shader.Proofs.Ir.Numbering
import Shader.Proofs.Ir.TypeSafety
import Shader.Proofs.Ir.WellFormed

/-!
# Dominance

Control comes to a block along a path from the entry. A block dominates another if every path to the
other goes through it. The result of an instruction may be used where the instruction has been
carried out: behind it in its own block, and in the blocks that its block dominates; a choice uses
its values at the ends of the blocks that they come from.

The promises of a site are what makes this hold. `Site.Covered` says that instructions use only what
is promised to their block or computed there, and that terminators keep the promises of the blocks
that they go to. Every step of writing keeps it, and along a path it turns into dominance.
-/

namespace Shader.Ir

namespace Func

/-! ## Paths -/

/-- Control can go along the labels from the entry; the last one comes first in the list. -/
inductive Path (f : Func) : List Label → Prop
  /-- control starts at the entry -/
  | entry {e : Block} (first : f.blocks.head? = some e) : Path f [e.label]
  /-- and goes where a terminator sends it -/
  | next {l k : Label} {ls : List Label} {b : Block} (path : Path f (l :: ls)) (block : f.At l b)
      (way : k ∈ b.successors) : Path f (k :: l :: ls)

/-- Control can come to the block. -/
def Reachable (f : Func) (l : Label) : Prop := ∃ ls, f.Path (l :: ls)

/-- Every path to a block goes through another one. -/
def Dominates (f : Func) (d l : Label) : Prop := ∀ ls, f.Path (l :: ls) → d ∈ l :: ls

/-- An instruction stands in another block that control has gone through before. -/
def DefinedAbove (f : Func) (l : Label) (r : Nat) : Prop :=
  ∃ d b, f.At d b ∧ r ∈ b.regs ∧ d ≠ l ∧ f.Dominates d l

/-- An instruction has been carried out when control is at the end of a block. -/
def DefinedAtEnd (f : Func) (l : Label) (r : Nat) : Prop :=
  ∃ d b, f.At d b ∧ r ∈ b.regs ∧ f.Dominates d l

/-- Every use of the result of an instruction is dominated by the instruction. -/
structure Dominated (f : Func) : Prop where
  /-- the numbers tell the instructions apart -/
  numbered : f.Numbered
  /-- room is reserved at the head of the entry, which dominates every other place -/
  slotsFirst : f.SlotsFirst
  /-- an instruction uses what stands before it or in blocks above -/
  line : ∀ l b, f.At l b → f.Reachable l → ∀ before (line : Line) after,
    b.lines = before ++ line :: after → line.inst.incoming? = none →
      ∀ v ∈ line.inst.operands, ∀ r, v.reg? = some r →
        r ∈ before.map Line.reg ∨ f.DefinedAbove l r
  /-- a choice uses what is there at the ends of the blocks that its values come from -/
  choice : ∀ l b, f.At l b → f.Reachable l → ∀ line ∈ b.lines, ∀ incoming,
    line.inst.incoming? = some incoming → ∀ i ∈ incoming, ∀ r, i.1.reg? = some r →
      f.DefinedAtEnd i.2 r
  /-- a terminator uses what is there at the end of its block -/
  term : ∀ l b, f.At l b → f.Reachable l → ∀ t, b.term = some t →
    ∀ v ∈ t.operands, ∀ r, v.reg? = some r → f.DefinedAtEnd l r

/-- What is taken for the result of an instruction is one of an instruction of this function. -/
theorem WellTyped.result_mem {O : Outside} {f : Func} {v : Value} (hv : v.Known O f) {r : Nat}
    (hr : v.reg? = some r) : ∃ l b, f.At l b ∧ r ∈ b.regs := by
  cases v with
  | result func reg name type =>
    obtain rfl : reg = r := Option.some.inj hr
    obtain ⟨-, l, b, line, hb, hl, hreg, -⟩ := hv
    exact ⟨l, b, hb, List.mem_map.2 ⟨line, hl, hreg⟩⟩
  | const => cases hr
  | global => cases hr
  | param => cases hr

namespace Path

variable {f : Func}

/-- The entry is on every path. -/
theorem entry_mem {ls : List Label} (h : f.Path ls) {e : Block} (he : f.blocks.head? = some e) :
    e.label ∈ ls := by
  induction h with
  | entry he' =>
    rw [he] at he'
    obtain rfl := Option.some.inj he'
    exact List.mem_cons_self
  | next _ _ _ ih => exact List.mem_cons_of_mem _ ih

/-- To every block on a path there is one that comes to it only at its end. -/
theorem first_visit {ls : List Label} (h : f.Path ls) {m : Label} (hm : m ∈ ls) :
    ∃ ls', f.Path (m :: ls') ∧ m ∉ ls' := by
  induction h with
  | entry he =>
    obtain rfl := List.mem_singleton.1 hm
    exact ⟨[], .entry he, List.not_mem_nil⟩
  | @next l k ls b hpath hb hk ih =>
    by_cases hmem : m ∈ l :: ls
    · exact ih hmem
    · obtain rfl : m = k := (List.mem_cons.1 hm).resolve_right hmem
      exact ⟨l :: ls, .next hpath hb hk, hmem⟩

end Path

end Func

/-! ## Promises -/

/-- The promises of a site are kept: what is used is promised to the block, computed before in it,
or an address of reserved room, and a terminator keeps the promises of the blocks that it goes
to. -/
structure Site.Covered (s : Site) : Prop where
  /-- nothing is promised to the entry -/
  entry : s.given 0 = ∅
  /-- instructions use what is there -/
  line : ∀ l b, s.func.At l b → ∀ before (line : Line) after, b.body = before ++ line :: after →
    line.inst.incoming? = none → ∀ v ∈ line.inst.operands, ∀ r, v.reg? = some r →
      r ∈ s.given l.index ∨ r ∈ before.map Line.reg ∨ s.func.IsSlot r
  /-- choices use what is there where their values come from -/
  choice : ∀ l b, s.func.At l b → ∀ line ∈ b.lines, ∀ incoming,
    line.inst.incoming? = some incoming → ∀ i ∈ incoming, ∀ r, i.1.reg? = some r → s.Offers i.2 r
  /-- terminators use what is there -/
  term : ∀ l b, s.func.At l b → ∀ t, b.term = some t → ∀ v ∈ t.operands, ∀ r, v.reg? = some r →
    s.Offers l r
  /-- and keep the promises of the blocks that they go to -/
  way : ∀ l b, s.func.At l b → ∀ k ∈ b.successors, ∀ r ∈ s.given k.index, s.Offers l r

/-- An instruction that reserves no room, among the lines of a block, is at the same place among the
lines of its body, behind all reservations. -/
theorem Block.body_split {b : Block} (h : b.lines = b.slots ++ b.body)
    {before after : List Line} {line : Line} (hsplit : b.lines = before ++ line :: after)
    (ha : line.inst.isAlloca = false) :
    ∃ before', before = b.slots ++ before' ∧ b.body = before' ++ line :: after := by
  rw [h] at hsplit
  rcases List.append_eq_append_iff.1 hsplit with ⟨c, hc, hbody⟩ | ⟨c, hc, hline⟩
  · exact ⟨c, hc, hbody⟩
  · cases c with
    | nil =>
      rw [List.append_nil] at hc
      exact ⟨[], by rw [hc, List.append_nil], hline.symm⟩
    | cons x c =>
      obtain ⟨rfl, -⟩ := List.cons.inj hline
      have hmem : line ∈ b.slots := by
        rw [hc]
        exact List.mem_append_right _ List.mem_cons_self
      have := (List.mem_filter.1 hmem).2
      rw [ha] at this
      cases this

namespace Site.Covered

variable {s : Site}

/-- Along a path, everything that was promised has been carried out. -/
theorem given_defined (h : s.Covered) {l : Label} {ls : List Label} (hp : s.func.Path (l :: ls))
    (ht : s.func.Tidy) {r : Nat} (hr : r ∈ s.given l.index) :
    s.func.IsSlot r ∨ ∃ d ∈ ls, ∃ b, s.func.At d b ∧ r ∈ b.regs := by
  generalize hls : l :: ls = path at hp
  induction hp generalizing l ls r with
  | @entry e he =>
    obtain ⟨rfl, rfl⟩ := List.cons.inj hls
    have h0 : e.label.index = 0 := (ht.label 0 e (by rw [← List.head?_eq_getElem?]; exact he)).2
    rw [h0, h.entry] at hr
    exact absurd hr (Set.notMem_empty r)
  | @next m k ms b hpath hb hk ih =>
    obtain ⟨rfl, rfl⟩ := List.cons.inj hls
    rcases h.way m b hb l hk r hr with ⟨c, hc, hgiven | hreg⟩ | hslot
    · -- the block before was promised it as well
      rcases ih hgiven rfl with hslot | ⟨d, hd, hdef⟩
      · exact .inl hslot
      · exact .inr ⟨d, List.mem_cons_of_mem _ hd, hdef⟩
    · exact .inr ⟨m, List.mem_cons_self, c, hc, hreg⟩
    · exact .inl hslot

section

variable (h : s.Covered) (ht : s.func.Tidy) (hn : s.func.Numbered) (hslots : s.func.SlotsFirst)
include h ht hn hslots

omit h ht hn in
/-- Reserved room is in the entry. -/
theorem slot_at {r : Nat} (hr : s.func.IsSlot r) :
    ∃ e b, s.func.blocks.head? = some b ∧ s.func.At e b ∧ e = b.label ∧
      r ∈ b.slots.map Line.reg := by
  obtain ⟨l, b, line, hb, hl, hreg, ha⟩ := hr
  have hmem : line ∈ b.slots := List.mem_filter.2 ⟨hl, ha⟩
  have h0 : l.index = 0 := by
    by_contra hne
    rw [hslots.entry l b hb hne] at hmem
    cases hmem
  have hhead : s.func.blocks.head? = some b := by
    rw [List.head?_eq_getElem?, ← h0]
    exact hb.1
  exact ⟨l, b, hhead, hb, hb.2.symm, List.mem_map.2 ⟨line, hmem, hreg⟩⟩

omit h ht hn in
/-- Reserved room dominates every block. -/
theorem slot_dominates {r : Nat} (hr : s.func.IsSlot r) (l : Label) :
    s.func.DefinedAtEnd l r := by
  obtain ⟨e, b, hhead, hb, rfl, hreg⟩ := slot_at hslots hr
  refine ⟨b.label, b, hb, ?_, fun ls hp => hp.entry_mem hhead⟩
  obtain ⟨line, hline, rfl⟩ := List.mem_map.1 hreg
  exact List.mem_map_of_mem (List.mem_filter.1 hline).1

/-- What is promised to a block dominates it from outside. -/
theorem given_above {l : Label} (hl : s.func.Reachable l) {r : Nat}
    (hr : r ∈ s.given l.index) : s.func.DefinedAbove l r := by
  obtain ⟨ls, hp⟩ := hl
  -- on the path that comes to the block for the first time, the instruction is before the block
  obtain ⟨ls', hp', hfirst⟩ := hp.first_visit List.mem_cons_self
  have hdef : ∃ d b, s.func.At d b ∧ r ∈ b.regs ∧ d ≠ l := by
    rcases h.given_defined hp' ht hr with hslot | ⟨d, hd, b, hb, hreg⟩
    · obtain ⟨e, b, hhead, hb, rfl, hreg⟩ := slot_at hslots hslot
      obtain ⟨line, hline, rfl⟩ := List.mem_map.1 hreg
      refine ⟨b.label, b, hb, List.mem_map_of_mem (List.mem_filter.1 hline).1, ?_⟩
      rintro rfl
      have h0 : b.label.index = 0 :=
        (ht.label 0 b (by rw [← List.head?_eq_getElem?]; exact hhead)).2
      rw [h0, h.entry] at hr
      exact absurd hr (Set.notMem_empty _)
    · exact ⟨d, b, hb, hreg, fun heq => hfirst (heq ▸ hd)⟩
  obtain ⟨d, b, hb, hreg, hne⟩ := hdef
  refine ⟨d, b, hb, hreg, hne, fun ms hq => ?_⟩
  rcases h.given_defined hq ht hr with hslot | ⟨d', hd', b', hb', hreg'⟩
  · obtain ⟨e, c, hhead, hc, rfl, hregc⟩ := slot_at hslots hslot
    obtain ⟨line, hline, rfl⟩ := List.mem_map.1 hregc
    have heq : d = c.label :=
      hn.block_unique hb hc hreg (List.mem_map_of_mem (List.mem_filter.1 hline).1)
    rw [heq]
    exact hq.entry_mem hhead
  · rw [hn.block_unique hb hb' hreg hreg']
    exact List.mem_cons_of_mem _ hd'

/-- What is offered at the end of a block dominates the end of the block. -/
theorem offers_atEnd {l : Label} {r : Nat} (hr : s.Offers l r)
    (hdef : ∃ d b, s.func.At d b ∧ r ∈ b.regs) : s.func.DefinedAtEnd l r := by
  rcases hr with ⟨b, hb, hgiven | hreg⟩ | hslot
  · by_cases hl : s.func.Reachable l
    · obtain ⟨d, c, hc, hreg, -, hdom⟩ := given_above h ht hn hslots hl hgiven
      exact ⟨d, c, hc, hreg, hdom⟩
    · -- no path comes to the block
      obtain ⟨d, c, hc, hreg⟩ := hdef
      exact ⟨d, c, hc, hreg, fun ls hp => absurd ⟨ls, hp⟩ hl⟩
  · exact ⟨l, b, hb, hreg, fun _ _ => List.mem_cons_self⟩
  · exact slot_dominates hslots hslot l

end

/-- Where all promises are kept, every use is dominated. -/
theorem dominated {O : Outside} (h : s.Covered) (ht : s.func.Tidy) (hn : s.func.Numbered)
    (hslots : s.func.SlotsFirst) (hty : s.func.WellTyped O) : s.func.Dominated where
  numbered := hn
  slotsFirst := hslots
  line := fun l b hb hl before line after hsplit hinc v hv r hr => by
    have ha : line.inst.isAlloca = false := by
      cases hi : line.inst <;> simp_all [Inst.operands, Inst.isAlloca]
    obtain ⟨before', rfl, hbody⟩ := Block.body_split (hslots.first l b hb) hsplit ha
    rcases h.line l b hb before' line after hbody hinc v hv r hr with hgiven | hbefore | hslot
    · exact .inr (given_above h ht hn hslots hl hgiven)
    · left
      rw [List.map_append]
      exact List.mem_append_right _ hbefore
    · obtain ⟨e, c, hhead, hc, rfl, hreg⟩ := slot_at hslots hslot
      by_cases hel : c.label = l
      · -- in the entry itself, reservations come first
        left
        subst hel
        obtain rfl := hb.unique hc
        rw [List.map_append]
        exact List.mem_append_left _ hreg
      · right
        obtain ⟨x, hx, rfl⟩ := List.mem_map.1 hreg
        exact ⟨c.label, c, hc, List.mem_map_of_mem (List.mem_filter.1 hx).1, hel,
          fun ls hp => hp.entry_mem hhead⟩
  choice := fun l b hb _ line hline incoming hinc i hi r hr => by
    refine offers_atEnd h ht hn hslots (h.choice l b hb line hline incoming hinc i hi r hr) ?_
    have hop : i.1 ∈ line.inst.operands := by
      cases hinst : line.inst <;> simp_all [Inst.incoming?, Inst.operands]
      exact ⟨_, hi⟩
    exact Func.WellTyped.result_mem (hty.operand b hb.mem line hline _ hop) hr
  term := fun l b hb _ t htm v hv r hr =>
    offers_atEnd h ht hn hslots (h.term l b hb t htm v hv r hr)
      (Func.WellTyped.result_mem (hty.termOperand b hb.mem t htm v hv) hr)

end Site.Covered

/-! ## Written code -/

variable {O : Outside} {n : Nat} {w : Option Label} {t : Label → Prop} {s s' : Site}

/-- A block of the site behind a step that was there before, with the same instructions and
terminator, still uses only what is there. -/
theorem Step.covered_old (h : Step O n w t s s') (ht : s.func.Tidy) (hshape : s.func.Shaped)
    (hs : s.Covered) {l : Label} {b c : Block} (hb : s.func.At l b) (hbody : c.body = b.body)
    (hterm : c.term = b.term) :
    (∀ before (line : Line) after, c.body = before ++ line :: after → line.inst.incoming? = none →
      ∀ v ∈ line.inst.operands, ∀ r, v.reg? = some r →
        r ∈ s'.given l.index ∨ r ∈ before.map Line.reg ∨ s'.func.IsSlot r) ∧
    (∀ term, c.term = some term → ∀ v ∈ term.operands, ∀ r, v.reg? = some r → s'.Offers l r) ∧
    (∀ k ∈ c.successors, ∀ r ∈ s'.given k.index, s'.Offers l r) := by
  refine ⟨fun before line after hsplit hinc v hv r hr => ?_, fun term htm v hv r hr => ?_,
    fun k hk r hr => ?_⟩
  · rw [hbody] at hsplit
    rw [h.given_eq (ht.lt_labels hb)]
    rcases hs.line l b hb before line after hsplit hinc v hv r hr with hr | hr | hr
    · exact .inl hr
    · exact .inr (.inl hr)
    · exact .inr (.inr (hr.mono h.le))
  · rw [hterm] at htm
    exact h.offers ht (hs.term l b hb term htm v hv r hr)
  · have hk' : k ∈ b.successors := by simpa [Block.successors, hterm] using hk
    -- what was promised to an old block is still what is promised to it
    obtain ⟨⟨d, hd⟩, -⟩ := hshape.inside l b hb k hk'
    rw [h.given_eq (ht.lt_labels hd)] at hr
    exact h.offers ht (hs.way l b hb k hk' r hr)

/-- The choices of a site behind a step, if they were there before. -/
theorem Step.covered_choice (h : Step O n w t s s') (ht : s.func.Tidy) (hs : s.Covered)
    {l : Label} {b : Block} (hb : s.func.At l b) {line : Line} (hline : line ∈ b.lines)
    {incoming : List (Value × Label)} (hinc : line.inst.incoming? = some incoming)
    {i : Value × Label} (hi : i ∈ incoming) {r : Nat} (hr : i.1.reg? = some r) :
    s'.Offers i.2 r :=
  h.offers ht (hs.choice l b hb line hline incoming hinc i hi r hr)

/-- An instruction at the end of a block. -/
theorem Site.Covered.put (hs : s.Covered) (ht : s.func.Tidy) (hshape : s.func.Shaped) {l : Label}
    {b : Block} {inst : Inst} (hb : s.func.At l b) (ha : inst.isAlloca = false)
    (hstep : Step O n w t s (s.withFunc (s.func.put l inst)))
    (hline : inst.incoming? = none → ∀ v ∈ inst.operands, ∀ r, v.reg? = some r → s.Offers l r)
    (hchoice : ∀ incoming, inst.incoming? = some incoming →
      ∀ i ∈ incoming, ∀ r, i.1.reg? = some r → s.Offers i.2 r) :
    (s.withFunc (s.func.put l inst)).Covered := by
  have hbody : (s.func.withLine inst b).body = b.body ++ [{ reg := s.func.regs, inst }] := by
    simp [Func.withLine, Block.body, ha]
  refine ⟨hs.entry, fun k c hc => ?_, fun k c hc line hmem incoming hinc i hi r hr => ?_,
    fun k c hc => ?_, fun k c hc => ?_⟩
  · by_cases hk : k = l
    · subst hk
      obtain rfl := hc.unique (Func.at_put_self hb)
      intro before line after hsplit hinc v hv r hr
      rw [hbody] at hsplit
      rcases List.eq_nil_or_concat after with rfl | ⟨after', x, rfl⟩
      · -- the new instruction: all others of the block stand before it
        obtain ⟨rfl, hlast⟩ := List.append_inj' hsplit rfl
        obtain rfl := (List.cons.inj hlast).1
        rcases hline hinc v hv r hr with ⟨d, hd, hgiven | hreg⟩ | hslot
        · exact .inl hgiven
        · obtain rfl := hd.unique hb
          obtain ⟨y, hy, rfl⟩ := List.mem_map.1 hreg
          by_cases hya : y.inst.isAlloca = true
          · exact .inr (.inr (Func.IsSlot.mono hstep.le ⟨_, d, y, hb, hy, rfl, hya⟩))
          · exact .inr (.inl (List.mem_map_of_mem
              (List.mem_filter.2 ⟨hy, by simpa using hya⟩)))
        · exact .inr (.inr (hslot.mono hstep.le))
      -- an old instruction, in front of which there is what there was
      · have hold : b.body = before ++ line :: after' := by
          have : b.body ++ [{ reg := s.func.regs, inst }] = (before ++ line :: after') ++ [x] := by
            simpa using hsplit
          exact (List.append_inj' this rfl).1
        exact (hstep.covered_old ht hshape hs hb (c := b) rfl rfl).1 before line after' hold hinc
          v hv r hr
    · exact (hstep.covered_old ht hshape hs ((Func.at_put_ne hk).1 hc) rfl rfl).1
  · by_cases hk : k = l
    · subst hk
      obtain rfl := hc.unique (Func.at_put_self hb)
      rcases List.mem_append.1 hmem with hmem | hmem
      · exact hstep.covered_choice ht hs hb hmem hinc hi hr
      · obtain rfl := List.mem_singleton.1 hmem
        exact hstep.offers ht (hchoice incoming hinc i hi r hr)
    · exact hstep.covered_choice ht hs ((Func.at_put_ne hk).1 hc) hmem hinc hi hr
  · by_cases hk : k = l
    · subst hk
      obtain rfl := hc.unique (Func.at_put_self hb)
      exact (hstep.covered_old ht hshape hs hb (c := b) rfl rfl).2.1
    · exact (hstep.covered_old ht hshape hs ((Func.at_put_ne hk).1 hc) rfl rfl).2.1
  · by_cases hk : k = l
    · subst hk
      obtain rfl := hc.unique (Func.at_put_self hb)
      exact (hstep.covered_old ht hshape hs hb (c := b) rfl rfl).2.2
    · exact (hstep.covered_old ht hshape hs ((Func.at_put_ne hk).1 hc) rfl rfl).2.2

theorem Step.covered (h : Step O n w t s s') (ht : s.func.Tidy) (hshape : s.func.Shaped)
    (hs : s.Covered) : s'.Covered := by
  cases hstep : h with
  | put hp hb ho hl ha hi hty hv =>
    refine hs.put ht hshape hb ha h (fun _ v hv' => (hv v hv').2) fun incoming hinc => ?_
    rw [hi] at hinc
    cases hinc
  | phi hp hb ho hl h0 he hty hways hv =>
    refine hs.put ht hshape hb rfl h (fun hinc => by cases hinc) fun incoming hinc i hi => ?_
    obtain rfl := Option.some.inj hinc
    exact (hv i hi).2
  | @close l b term hp hb ho hl hty hv htarget =>
    refine ⟨hs.entry, fun k c hc => ?_, fun k c hc line hmem incoming hinc i hi r hr => ?_,
      fun k c hc => ?_, fun k c hc => ?_⟩
    · by_cases hk : k = l
      · subst hk
        obtain rfl := hc.unique (Func.at_close_self hb)
        exact (h.covered_old ht hshape hs hb (c := b) rfl rfl).1
      · exact (h.covered_old ht hshape hs ((Func.at_close_ne hk).1 hc) rfl rfl).1
    · by_cases hk : k = l
      · subst hk
        obtain rfl := hc.unique (Func.at_close_self hb)
        exact h.covered_choice ht hs hb hmem hinc hi hr
      · exact h.covered_choice ht hs ((Func.at_close_ne hk).1 hc) hmem hinc hi hr
    · by_cases hk : k = l
      · subst hk
        obtain rfl := hc.unique (Func.at_close_self hb)
        intro term' htm v hv' r hr
        obtain rfl : term = term' := Option.some.inj htm
        exact h.offers ht ((hv v hv').2 r hr)
      · exact (h.covered_old ht hshape hs ((Func.at_close_ne hk).1 hc) rfl rfl).2.1
    · by_cases hk : k = l
      · subst hk
        obtain rfl := hc.unique (Func.at_close_self hb)
        intro m hm r hr
        exact h.offers ht ((htarget m (by simpa [Block.successors] using hm)).2.2.2 r hr)
      · exact (h.covered_old ht hshape hs ((Func.at_close_ne hk).1 hc) rfl rfl).2.2
  | block hint promise =>
    have h0 : (0 : Nat) < s.func.labels := by
      rw [ht.count]
      exact List.length_pos_of_ne_nil ht.entry
    refine ⟨by rw [h.given_eq h0]; exact hs.entry, fun k c hc => ?_,
      fun k c hc line hmem incoming hinc i hi r hr => ?_, fun k c hc => ?_, fun k c hc => ?_⟩
    -- the new block is empty, and nothing leads out of it
    all_goals rcases Func.at_addBlock ht hc with hc | ⟨-, rfl⟩
    · exact (h.covered_old ht hshape hs hc rfl rfl).1
    · intro before line after hsplit
      simp [Block.body] at hsplit
    · exact h.covered_choice ht hs hc hmem hinc hi hr
    · cases hmem
    · exact (h.covered_old ht hshape hs hc rfl rfl).2.1
    · intro term htm
      cases htm
    · exact (h.covered_old ht hshape hs hc rfl rfl).2.2
    · intro k hk
      cases hk
  | @slot type hint =>
    refine ⟨hs.entry, fun k c hc => ?_, fun k c hc line hmem incoming hinc i hi r hr => ?_,
      fun k c hc => ?_, fun k c hc => ?_⟩
    -- a slot is no part of a body, so the bodies are what they were
    all_goals obtain ⟨b, hb, rfl⟩ := Func.at_reserve.1 hc
    · exact (h.covered_old ht hshape hs hb (Func.body_withSlot _ b) (Func.term_withSlot _ b)).1
    · have hmem' : line ∈ b.lines := by
        unfold Func.withSlot at hmem
        split at hmem
        · rcases Emit.mem_insertAlloca.1 hmem with rfl | hmem
          · cases hinc
          · exact hmem
        · exact hmem
      exact h.covered_choice ht hs hb hmem' hinc hi hr
    · exact (h.covered_old ht hshape hs hb (Func.body_withSlot _ b) (Func.term_withSlot _ b)).2.1
    · exact (h.covered_old ht hshape hs hb (Func.body_withSlot _ b) (Func.term_withSlot _ b)).2.2
  | move => exact ⟨hs.entry, hs.line, hs.choice, hs.term, hs.way⟩

theorem Steps.covered (h : Steps O n w t s s') (ht : s.func.Tidy) (hshape : s.func.Shaped)
    (hs : s.Covered) : s'.Covered := by
  induction h with
  | refl => exact hs
  | tail hsteps hstep ih =>
    exact hstep.covered (Steps.tidy hsteps ht) (Steps.shaped hsteps ht hshape) ih

theorem Site.Fresh.covered (h : s.Fresh) : s.Covered where
  entry := h.given 0
  line := fun l b hb before line after hsplit => by
    simp [Block.body, (h.blocks l b hb).1] at hsplit
  choice := fun l b hb line hline => by
    rw [(h.blocks l b hb).1] at hline
    cases hline
  term := fun l b hb t ht => by
    rw [(h.blocks l b hb).2] at ht
    cases ht
  way := fun l b hb k hk => by
    rw [Block.successors_eq_nil (h.blocks l b hb).2] at hk
    cases hk

end Shader.Ir
