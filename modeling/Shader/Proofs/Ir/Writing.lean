import Mathlib.Data.Set.Basic
import Mathlib.Logic.Relation
import Shader.Proofs.Ir.Typing

/-!
# The discipline of writing

Code is written in steps: an instruction or a choice at the point, the end of the block there, a new
block, room for a variable, or a move of the point. `Step` says under which conditions each of them
is taken. Everything that lowering does is a sequence of such steps, and what holds of all code that
is written this way is shown one step at a time.

A site is a draft together with a promise for each block: the numbers of instructions that have been
carried out whenever control comes to the block. A step may rely on the promises of the block at the
point, and a terminator must keep the promises of the blocks that it goes to.

A step also knows which blocks it may touch. The blocks from number `n` on are new: they can be
written to, gone to, and may start with a choice. Of the older blocks only `w` is written to, and
only those in `t` are gone to. So what code does not touch is left as it was: these are the frame
lemmas.
-/

namespace Shader.Ir

/-- A draft and what control brings along to each of its blocks. -/
structure Site where
  /-- the draft -/
  draft : Draft
  /-- the instructions that have been carried out whenever control comes to a block -/
  given : Nat → Set Nat

namespace Site

/-- The function that is being written. -/
abbrev func (s : Site) : Func := s.draft.func

/-- The block at whose end the next instruction goes. -/
abbrev point (s : Site) : Option Label := s.draft.point

/-- The site with another function. -/
def withFunc (s : Site) (f : Func) : Site := { s with draft := { s.draft with func := f } }

/-- The site with the point elsewhere. -/
def moved (s : Site) (p : Option Label) : Site := { s with draft := { s.draft with point := p } }

/-- The site with a new block and a promise for it. -/
def withBlock (s : Site) (hint : String) (promise : Set Nat) : Site where
  draft := { s.draft with func := (s.func.addBlock hint).2 }
  given := Function.update s.given s.func.labels promise

/-- At the end of a block the result of an instruction can be used: it was given to the block, is
computed there, or is the address of reserved room. -/
def Offers (s : Site) (l : Label) (r : Nat) : Prop :=
  (∃ b, s.func.At l b ∧ (r ∈ s.given l.index ∨ r ∈ b.regs)) ∨ s.func.IsSlot r

/-- At the end of a block a value can be used. -/
def CanUse (s : Site) (O : Outside) (l : Label) (v : Value) : Prop :=
  v.Known O s.func ∧ ∀ r, v.reg? = some r → s.Offers l r

/-- Nothing is written yet but an open entry, and writing starts there. -/
structure Fresh (s : Site) : Prop where
  /-- the function has a block -/
  tidy : s.func.Tidy
  /-- which is empty and open -/
  blocks : ∀ l b, s.func.At l b → b.lines = [] ∧ b.term = none
  /-- no room has been reserved -/
  reserved : s.func.reserved = 0
  /-- nothing is given to any block -/
  given : ∀ i, s.given i = ∅

end Site

/-- One step of writing. -/
inductive Step (O : Outside) (n : Nat) (w : Option Label) (t : Label → Prop) : Site → Site → Prop
  /-- an instruction at the point -/
  | put {s : Site} {l : Label} {b : Block} {inst : Inst} (point : s.point = some l)
      (block : s.func.At l b) (isOpen : b.term = none) (own : n ≤ l.index ∨ w = some l)
      (noSlot : inst.isAlloca = false) (noPhi : inst.incoming? = none)
      (typed : inst.WellTyped O) (usable : ∀ v ∈ inst.operands, s.CanUse O l v) :
      Step O n w t s (s.withFunc (s.func.put l inst))
  /-- a choice at the head of a new block, between the values of all ways to it -/
  | phi {s : Site} {l : Label} {b : Block} {type : Ty} {incoming : List (Value × Label)}
      (point : s.point = some l) (block : s.func.At l b) (isOpen : b.term = none)
      (isNew : n ≤ l.index) (noEntry : l.index ≠ 0) (empty : b.lines = [])
      (typed : (Inst.phi type incoming).WellTyped O)
      (ways : (incoming.map Prod.snd).Perm (s.func.predecessors l))
      (usable : ∀ i ∈ incoming, s.CanUse O i.2 i.1) :
      Step O n w t s (s.withFunc (s.func.put l (.phi type incoming)))
  /-- the end of the block at the point -/
  | close {s : Site} {l : Label} {b : Block} {term : Term} (point : s.point = some l)
      (block : s.func.At l b) (isOpen : b.term = none) (own : n ≤ l.index ∨ w = some l)
      (typed : term.WellTyped s.func.result) (usable : ∀ v ∈ term.operands, s.CanUse O l v)
      (targets : ∀ k ∈ term.successors, (∃ c, s.func.At k c ∧ ¬ c.hasPhi) ∧ k.index ≠ 0 ∧
        (n ≤ k.index ∨ t k) ∧ ∀ r ∈ s.given k.index, s.Offers l r) :
      Step O n w t s (s.withFunc (s.func.close l term))
  /-- a new block with a promise -/
  | block (s : Site) (hint : String) (promise : Set Nat) :
      Step O n w t s (s.withBlock hint promise)
  /-- room for a variable -/
  | slot (s : Site) {type : DataType} (hint : String) (noVoid : type ≠ .void) :
      Step O n w t s (s.withFunc (s.func.reserve type hint))
  /-- the point goes elsewhere -/
  | move (s : Site) {p : Option Label}
      (target : ∀ l, p = some l → (n ≤ l.index ∨ w = some l) ∧ ∃ b, s.func.At l b ∧ b.term = none) :
      Step O n w t s (s.moved p)

/-- Steps of writing, one after another. -/
abbrev Steps (O : Outside) (n : Nat) (w : Option Label) (t : Label → Prop) : Site → Site → Prop :=
  Relation.ReflTransGen (Step O n w t)

variable {O : Outside} {n : Nat} {w : Option Label} {t : Label → Prop} {s s' : Site}

/-! ## What a step keeps -/

theorem Step.le (h : Step O n w t s s') : s.func.Le s'.func := by
  cases h with
  | put _ hb ho => exact Func.le_put hb ho
  | phi _ hb ho => exact Func.le_put hb ho
  | close _ hb ho => exact Func.le_close hb ho
  | block => exact Func.le_addBlock
  | slot => exact Func.le_reserve
  | move => exact .refl _

theorem Step.tidy (h : Step O n w t s s') (ht : s.func.Tidy) : s'.func.Tidy := by
  cases h with
  | put => exact ht.put
  | phi => exact ht.put
  | close => exact ht.close
  | block => exact ht.addBlock
  | slot => exact ht.reserve
  | move => exact ht

theorem Step.given_eq (h : Step O n w t s s') {i : Nat} (hi : i < s.func.labels) :
    s'.given i = s.given i := by
  cases h with
  | block hint promise => exact Function.update_of_ne (Nat.ne_of_lt hi) promise s.given
  | _ => rfl

theorem Step.offers (h : Step O n w t s s') (ht : s.func.Tidy) {l : Label} {r : Nat}
    (hr : s.Offers l r) : s'.Offers l r := by
  rcases hr with ⟨b, hb, hr⟩ | hr
  · obtain ⟨b', hb', hle⟩ := h.le.blocks l b hb
    refine .inl ⟨b', hb', ?_⟩
    rcases hr with hr | hr
    · exact .inl (by rw [h.given_eq (ht.lt_labels hb)]; exact hr)
    · exact .inr (hle.regs hr)
  · exact .inr (hr.mono h.le)

/-- A step that may touch less is also one that may touch more. -/
theorem Step.mono {n' : Nat} {w' : Option Label} {t' : Label → Prop} (h : Step O n w t s s')
    (hn : n' ≤ n) (hw : ∀ l, w = some l → n' ≤ l.index ∨ w' = some l)
    (ht : ∀ l, t l → n' ≤ l.index ∨ t' l) : Step O n' w' t' s s' := by
  have hown : ∀ l : Label, n ≤ l.index ∨ w = some l → n' ≤ l.index ∨ w' = some l := by
    rintro l (h | h)
    · exact .inl (Nat.le_trans hn h)
    · exact hw l h
  have hgo : ∀ l : Label, n ≤ l.index ∨ t l → n' ≤ l.index ∨ t' l := by
    rintro l (h | h)
    · exact .inl (Nat.le_trans hn h)
    · exact ht l h
  cases h with
  | put hp hb ho hl ha hi hty hv => exact .put hp hb ho (hown _ hl) ha hi hty hv
  | phi hp hb ho hl h0 he hty hways hv =>
    exact .phi hp hb ho (Nat.le_trans hn hl) h0 he hty hways hv
  | close hp hb ho hl hty hv htarget =>
    refine .close hp hb ho (hown _ hl) hty hv fun k hk => ?_
    obtain ⟨hc, h0, hkt, hr⟩ := htarget k hk
    exact ⟨hc, h0, hgo k hkt, hr⟩
  | block hint promise => exact .block _ hint promise
  | slot hint hvoid => exact .slot _ hint hvoid
  | move hp => exact .move _ fun l hl => ⟨hown l (hp l hl).1, (hp l hl).2⟩

/-! ## What a step does not touch -/

/-- An older block that may not be written to keeps its instructions and stays open or closed. Only
reservations come to the entry. -/
theorem Step.frame_block (h : Step O n w t s s') {l : Label} {b : Block}
    (hb : s.func.At l b) (hn : l.index < n) (hw : w ≠ some l) :
    ∃ b', s'.func.At l b' ∧ b'.body = b.body ∧ b'.term = b.term ∧ (l.index ≠ 0 → b' = b) := by
  have hother : ∀ k : Label, n ≤ k.index ∨ w = some k → l ≠ k := by
    rintro k (hk | hk) rfl
    · omega
    · exact hw hk
  cases h with
  | put _ _ _ hl => exact ⟨b, (Func.at_put_ne (hother _ hl)).2 hb, rfl, rfl, fun _ => rfl⟩
  | phi _ _ _ hl => exact ⟨b, (Func.at_put_ne (hother _ (.inl hl))).2 hb, rfl, rfl, fun _ => rfl⟩
  | close _ _ _ hl => exact ⟨b, (Func.at_close_ne (hother _ hl)).2 hb, rfl, rfl, fun _ => rfl⟩
  | block => exact ⟨b, Func.at_addBlock_old hb, rfl, rfl, fun _ => rfl⟩
  | slot hint =>
    refine ⟨_, Func.at_reserve.2 ⟨b, hb, rfl⟩, ?_, by simp, fun h0 => by simp [Func.withSlot, h0]⟩
    unfold Func.withSlot
    split
    · exact Emit.filter_insertAlloca rfl _ b.lines
    · rfl
  | move => exact ⟨b, hb, rfl, rfl, fun _ => rfl⟩

/-- No way opens to an older block that may not be gone to. -/
theorem Step.frame_predecessors (h : Step O n w t s s') (ht : s.func.Tidy) {l : Label}
    (hn : l.index < n) (hl : ¬ t l) : s'.func.predecessors l = s.func.predecessors l := by
  cases h with
  | put => exact Func.predecessors_put l
  | phi => exact Func.predecessors_put l
  | close _ hb ho _ _ _ htarget =>
    refine Func.predecessors_close_of_notMem ht hb ho fun hk => ?_
    rcases (htarget l hk).2.2.1 with h | h
    · omega
    · exact hl h
  | block => exact Func.predecessors_addBlock l
  | slot => exact Func.predecessors_reserve l
  | move => rfl

/-- No choice comes to an older block. -/
theorem Step.frame_phi (h : Step O n w t s s') {l : Label} {b : Block} (hb : s.func.At l b)
    (hn : l.index < n) (hphi : ¬ b.hasPhi) : ∃ b', s'.func.At l b' ∧ ¬ b'.hasPhi := by
  cases h with
  | @put l' b' inst _ hb' ho _ _ hi =>
    by_cases hl : l = l'
    · subst hl
      obtain rfl := hb.unique hb'
      refine ⟨_, Func.at_put_self hb, ?_⟩
      rintro ⟨line, hline, hsome⟩
      rcases List.mem_append.1 hline with hline | hline
      · exact hphi ⟨line, hline, hsome⟩
      · obtain rfl := List.mem_singleton.1 hline
        simp [hi] at hsome
    · exact ⟨b, (Func.at_put_ne hl).2 hb, hphi⟩
  | phi _ _ _ hl =>
    refine ⟨b, (Func.at_put_ne ?_).2 hb, hphi⟩
    rintro rfl
    omega
  | @close l' b' _ _ hb' =>
    by_cases hl : l = l'
    · subst hl
      obtain rfl := hb.unique hb'
      exact ⟨_, Func.at_close_self hb, hphi⟩
    · exact ⟨b, (Func.at_close_ne hl).2 hb, hphi⟩
  | block => exact ⟨b, Func.at_addBlock_old hb, hphi⟩
  | slot hint =>
    refine ⟨_, Func.at_reserve.2 ⟨b, hb, rfl⟩, ?_⟩
    unfold Func.withSlot
    split
    · rintro ⟨line, hline, hsome⟩
      rcases Emit.mem_insertAlloca.1 hline with rfl | hline
      · cases hsome
      · exact hphi ⟨line, hline, hsome⟩
    · exact hphi
  | move => exact ⟨b, hb, hphi⟩

/-! ## What many steps keep -/

namespace Steps

theorem le (h : Steps O n w t s s') : s.func.Le s'.func := by
  induction h with
  | refl => exact .refl _
  | tail _ hstep ih => exact ih.trans hstep.le

theorem tidy (h : Steps O n w t s s') (ht : s.func.Tidy) : s'.func.Tidy := by
  induction h with
  | refl => exact ht
  | tail _ hstep ih => exact hstep.tidy ih

theorem given_eq (h : Steps O n w t s s') {i : Nat} (hi : i < s.func.labels) :
    s'.given i = s.given i := by
  induction h with
  | refl => rfl
  | tail hsteps hstep ih =>
    have hle : s.func.Le _ := Steps.le hsteps
    rw [hstep.given_eq (Nat.lt_of_lt_of_le hi hle.labels), ih]

theorem offers (h : Steps O n w t s s') (ht : s.func.Tidy) {l : Label} {r : Nat}
    (hr : s.Offers l r) : s'.Offers l r := by
  induction h with
  | refl => exact hr
  | tail hsteps hstep ih => exact hstep.offers (Steps.tidy hsteps ht) ih

theorem canUse (h : Steps O n w t s s') (ht : s.func.Tidy) {l : Label} {v : Value}
    (hv : s.CanUse O l v) : s'.CanUse O l v :=
  ⟨hv.1.mono h.le, fun r hr => h.offers ht (hv.2 r hr)⟩

theorem mono {n' : Nat} {w' : Option Label} {t' : Label → Prop} (h : Steps O n w t s s')
    (hn : n' ≤ n) (hw : ∀ l, w = some l → n' ≤ l.index ∨ w' = some l)
    (ht : ∀ l, t l → n' ≤ l.index ∨ t' l) : Steps O n' w' t' s s' := by
  induction h with
  | refl => exact .refl
  | tail _ hstep ih => exact ih.tail (hstep.mono hn hw ht)

theorem frame_block (h : Steps O n w t s s') {l : Label} {b : Block}
    (hb : s.func.At l b) (hn : l.index < n) (hw : w ≠ some l) :
    ∃ b', s'.func.At l b' ∧ b'.body = b.body ∧ b'.term = b.term ∧ (l.index ≠ 0 → b' = b) := by
  induction h with
  | refl => exact ⟨b, hb, rfl, rfl, fun _ => rfl⟩
  | tail _ hstep ih =>
    obtain ⟨c, hc, hbody, hterm, heq⟩ := ih
    obtain ⟨d, hd, hbody', hterm', heq'⟩ := hstep.frame_block hc hn hw
    exact ⟨d, hd, hbody'.trans hbody, hterm'.trans hterm, fun h0 => (heq' h0).trans (heq h0)⟩

theorem frame_predecessors (h : Steps O n w t s s') (ht : s.func.Tidy) {l : Label}
    (hn : l.index < n) (hl : ¬ t l) : s'.func.predecessors l = s.func.predecessors l := by
  induction h with
  | refl => rfl
  | tail hsteps hstep ih => rw [hstep.frame_predecessors (Steps.tidy hsteps ht) hn hl, ih]

theorem frame_phi (h : Steps O n w t s s') {l : Label} {b : Block} (hb : s.func.At l b)
    (hn : l.index < n) (hphi : ¬ b.hasPhi) : ∃ b', s'.func.At l b' ∧ ¬ b'.hasPhi := by
  induction h with
  | refl => exact ⟨b, hb, hphi⟩
  | tail _ hstep ih =>
    obtain ⟨c, hc, hcphi⟩ := ih
    exact hstep.frame_phi hc hn hcphi

end Steps

end Shader.Ir
