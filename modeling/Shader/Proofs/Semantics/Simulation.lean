import Mathlib.Data.List.Forall2
import Shader.Lowering.Operand
import Shader.Proofs.Semantics.Positions
import Shader.Proofs.Semantics.Reference

/-!
# Simulation

A walk writes code from one state of a body to another. The code simulates a part of the meaning if
the machine, from every configuration that matches the first state and a store, comes to one that
matches the second state and the store that the meaning yields. `Body.Simulates` says so with
respect to every finished function in which the code stands; such statements are composed like the
meaning itself, and what the results so far are stays known meanwhile.

A configuration matches a state and a store if it is at the point, and the room of each variable in
scope holds the value that the variable has in the store.
-/

namespace Shader

/-- The declaration that a name refers to, unless it is in the outermost scope. -/
def Scopes.local? {τ α : Type} (s : Scopes τ α) (name : String) : Option (Symbol τ α) :=
  s.inner.findSome? fun f => f.find? name

theorem Scopes.lookup?_of_local? {τ α : Type} {s : Scopes τ α} {name : String} {sym : Symbol τ α}
    (h : s.local? name = some sym) : s.lookup? name = some sym := by
  rw [Scopes.lookup?, Scopes.frames, List.findSome?_append, ← Scopes.local?, h]
  rfl

namespace Lowering

open Ir Meaning

/-! ## Variables in memory -/

/-- The room of a declared variable holds its value. -/
def Holds (f : Func) (memory : List (Option Scalar)) (sym : Symbol DataType Value)
    (e : String × BitVec 32) : Prop :=
  sym.name = e.1 ∧ ∃ (i : Nat) (line : Line), f.slots[i]? = some line ∧
    sym.handle.reg? = some line.reg ∧ memory[i]? = some (some (.word e.2))

/-- The variables of the open blocks have the values of a store. -/
abbrev Stored (f : Func) (memory : List (Option Scalar)) :
    List (Frame DataType Value) → Store → Prop :=
  List.Forall₂ (List.Forall₂ (Holds f memory))

section

variable {f : Func} {memory : List (Option Scalar)} {sym : Symbol DataType Value} {name : String}
  {frame : Frame DataType Value} {frames : List (Frame DataType Value)}
  {vars : List (String × BitVec 32)} {σ : Store} {i : Nat} {line : Line}

/-- Other room is not affected when a value is kept. -/
theorem Holds.other {e : String × BitVec 32} (h : Holds f memory sym e)
    (hslot : f.slots[i]? = some line) (hne : sym.handle.reg? ≠ some line.reg)
    (v : Option Scalar) : Holds f (memory.set i v) sym e := by
  obtain ⟨hname, j, line', hslot', hreg, hcell⟩ := h
  refine ⟨hname, j, line', hslot', hreg, ?_⟩
  have hij : i ≠ j := by
    rintro rfl
    rw [hslot] at hslot'
    rw [hreg, Option.some.inj hslot'] at hne
    exact hne rfl
  rw [List.getElem?_set_ne hij]
  exact hcell

theorem other_stored (h : List.Forall₂ (Holds f memory) frame vars)
    (hslot : f.slots[i]? = some line) (hne : ∀ sym ∈ frame, sym.handle.reg? ≠ some line.reg)
    (v : Option Scalar) : List.Forall₂ (Holds f (memory.set i v)) frame vars := by
  induction h with
  | nil => exact .nil
  | cons hsym _ ih =>
    obtain ⟨hne, hne'⟩ := List.forall_mem_cons.1 hne
    exact .cons (hsym.other hslot hne v) (ih hne')

theorem Stored.other (h : Stored f memory frames σ) (hslot : f.slots[i]? = some line)
    (hne : ∀ sym ∈ frames.flatten, sym.handle.reg? ≠ some line.reg) (v : Option Scalar) :
    Stored f (memory.set i v) frames σ := by
  induction h with
  | nil => exact .nil
  | cons hframe _ ih =>
    rw [List.flatten_cons] at hne
    exact .cons (other_stored hframe hslot (fun s hs => hne s (List.mem_append_left _ hs)) v)
      (ih fun s hs => hne s (List.mem_append_right _ hs))

theorem Holds.set (hslot : f.slots[i]? = some line) (hreg : sym.handle.reg? = some line.reg)
    (hsize : memory.length = f.slots.length) (w : BitVec 32) :
    Holds f (memory.set i (some (.word w))) sym (sym.name, w) := by
  refine ⟨rfl, i, line, hslot, hreg, List.getElem?_set_self ?_⟩
  rw [hsize]
  exact (List.getElem?_eq_some_iff.1 hslot).1

/-- A variable of a block is found on both sides, or on none. -/
theorem find?_stored (h : List.Forall₂ (Holds f memory) frame vars) (name : String) :
    (∃ sym w, frame.find? name = some sym ∧ vars.lookup name = some w ∧
        Holds f memory sym (name, w)) ∨
      frame.find? name = none ∧ vars.lookup name = none ∧
        ∀ w, Store.assignIn? name w vars = none := by
  induction h with
  | nil => exact .inr ⟨rfl, rfl, fun _ => rfl⟩
  | @cons sym e frame vars hsym _ ih =>
    by_cases hname : e.1 = name
    · subst hname
      refine .inl ⟨sym, e.2, ?_, ?_, hsym⟩
      · simp [Frame.find?, hsym.1]
      · exact List.lookup_cons_self
    · have hne : (name == e.1) = false := beq_false_of_ne (Ne.symm hname)
      have hfind : Frame.find? (sym :: frame) name = Frame.find? frame name := by
        simp [Frame.find?, hsym.1, hname]
      rw [hfind, List.lookup_cons, hne]
      refine ih.imp_right fun h => ⟨h.1, h.2.1, fun w => ?_⟩
      simp [Store.assignIn?, hname, h.2.2]

/-- A variable has the value of the innermost one of its name. -/
theorem Stored.get? (h : Stored f memory frames σ)
    (hsym : (frames.findSome? fun fr => fr.find? name) = some sym) :
    ∃ w, σ.get? name = some w ∧ Holds f memory sym (name, w) := by
  induction h with
  | nil => cases hsym
  | cons hframe _ ih =>
    rw [List.findSome?_cons] at hsym
    rw [Store.get?, List.findSome?_cons, ← Store.get?]
    rcases find?_stored hframe name with ⟨sym', w, hfind, hlookup, hholds⟩ | ⟨hfind, hlookup, -⟩
    · rw [hfind] at hsym
      obtain rfl := Option.some.inj hsym
      exact ⟨w, by rw [hlookup], hholds⟩
    · rw [hfind] at hsym
      rw [hlookup]
      exact ih hsym

/-- Another value of a variable of a block, where all rooms are different. -/
theorem assignIn?_stored (h : List.Forall₂ (Holds f memory) frame vars)
    (hfind : frame.find? name = some sym)
    (hdistinct : (frame.map fun s => s.handle.reg?).Nodup) (hslot : f.slots[i]? = some line)
    (hreg : sym.handle.reg? = some line.reg) (hsize : memory.length = f.slots.length)
    (w : BitVec 32) :
    ∃ vars', Store.assignIn? name w vars = some vars' ∧
      List.Forall₂ (Holds f (memory.set i (some (.word w)))) frame vars' := by
  induction h with
  | nil => cases hfind
  | @cons sym' e frame vars hsym hrest ih =>
    rw [List.map_cons, List.nodup_cons] at hdistinct
    by_cases hname : e.1 = name
    · have hself : sym' = sym := by
        simpa [Frame.find?, hsym.1, hname] using hfind
      subst hself
      refine ⟨(name, w) :: vars, by rw [Store.assignIn?, if_pos hname], .cons ?_ ?_⟩
      · have hset := Holds.set hslot hreg hsize w
        rw [hsym.1, hname] at hset
        exact hset
      · refine other_stored hrest hslot (fun s hs heq => hdistinct.1 ?_) _
        rw [hreg, ← heq]
        exact List.mem_map_of_mem hs
    · have hfind' : Frame.find? frame name = some sym := by
        simpa [Frame.find?, hsym.1, hname] using hfind
      obtain ⟨vars', hassign, hvars'⟩ := ih hfind' hdistinct.2
      refine ⟨e :: vars', by rw [Store.assignIn?, if_neg hname, hassign]; rfl, .cons ?_ hvars'⟩
      refine hsym.other hslot (fun heq => hdistinct.1 ?_) _
      rw [heq, ← hreg]
      exact List.mem_map.2 ⟨sym, List.mem_of_find?_eq_some hfind', rfl⟩

theorem Stored.set (h : Stored f memory frames σ)
    (hsym : (frames.findSome? fun fr => fr.find? name) = some sym)
    (hdistinct : (frames.flatten.map fun s => s.handle.reg?).Nodup)
    (hslot : f.slots[i]? = some line) (hreg : sym.handle.reg? = some line.reg)
    (hsize : memory.length = f.slots.length) (w : BitVec 32) :
    Stored f (memory.set i (some (.word w))) frames (σ.set name w) := by
  induction h with
  | nil => cases hsym
  | @cons frame vars frames σ hframe hrest ih =>
    rw [List.flatten_cons, List.map_append, List.nodup_append] at hdistinct
    obtain ⟨hnd, hnd', hapart⟩ := hdistinct
    rw [List.findSome?_cons] at hsym
    rw [Store.set]
    rcases find?_stored hframe name with ⟨sym', -, hfind, -⟩ | ⟨hfind, -, hassign⟩
    · rw [hfind] at hsym
      obtain rfl := Option.some.inj hsym
      obtain ⟨vars', hassign, hvars'⟩ := assignIn?_stored hframe hfind hnd hslot hreg hsize w
      rw [hassign]
      -- the variables of the other blocks have other room
      have hmem := List.mem_map_of_mem (f := fun s => s.handle.reg?)
        (List.mem_of_find?_eq_some hfind)
      refine .cons hvars' (Stored.other hrest hslot (fun s hs heq => ?_) _)
      exact hapart _ hmem _ (List.mem_map_of_mem hs) (by rw [hreg, heq])
    · rw [hfind] at hsym
      rw [hassign]
      -- the variable is in another block
      obtain ⟨fr, hfr, hfind'⟩ := List.exists_of_findSome?_eq_some hsym
      have hmem := List.mem_map_of_mem (f := fun s => s.handle.reg?)
        (List.mem_flatten_of_mem hfr (List.mem_of_find?_eq_some hfind'))
      refine .cons (other_stored hframe hslot (fun s hs heq => ?_) _) (ih hsym hnd')
      exact hapart _ (List.mem_map_of_mem hs) _ hmem (by rw [hreg, heq])

end

/-! ## Configurations that match -/

/-- The machine is at the point of a body, and variables in scope have the values of a store. -/
structure Body.Matches (f : Func) (b : Body) (σ : Store) (c : Config) : Prop where
  /-- what has been written at the point has been carried out -/
  here : b.draft.Here f c
  /-- each variable has a cell -/
  housed : f.Housed c
  /-- which holds its value -/
  stored : Stored f c.memory b.scopes.inner σ

/-- The machine is at the start of a block, and variables have the values of a store. -/
structure Arrives (f : Func) (k : Label) (frames : List (Frame DataType Value)) (σ : Store)
    (c : Config) : Prop where
  /-- the start of the block -/
  head : f.AtHead k c
  /-- each variable has a cell -/
  housed : f.Housed c
  /-- which holds its value -/
  stored : Stored f c.memory frames σ

/-- The arguments, and the results of the first instructions, are the same. -/
def Agrees (n : Nat) (c c' : Config) : Prop := c'.args = c.args ∧ ∀ r < n, c'.regs r = c.regs r

theorem Agrees.refl (n : Nat) (c : Config) : Agrees n c c := ⟨rfl, fun _ _ => rfl⟩

theorem Agrees.trans {m n : Nat} {c c' c'' : Config} (h₁ : Agrees m c c') (h₂ : Agrees n c' c'')
    (hle : m ≤ n) : Agrees m c c'' :=
  ⟨h₂.1.trans h₁.1, fun r hr => (h₂.2 r (Nat.lt_of_lt_of_le hr hle)).trans (h₁.2 r hr)⟩

section

variable {f : Func} {b b' : Body} {σ : Store} {c : Config}

theorem Arrives.matches {k : Label} {frames : List (Frame DataType Value)}
    (h : Arrives f k frames σ c) (hstarts : b.draft.Starts k) (hframes : b.scopes.inner = frames) :
    b.Matches f σ c :=
  ⟨hstarts.here h.head, h.housed, hframes ▸ h.stored⟩

namespace Body.Matches

/-- Code that has been written elsewhere does not matter. -/
theorem stays (h : b.Matches f σ c) (hstays : b.draft.Stays b'.draft)
    (hscopes : b'.scopes = b.scopes) : b'.Matches f σ c :=
  ⟨h.here.stays hstays, h.housed, hscopes ▸ h.stored⟩

/-- An instruction that leaves memory alone is carried out. -/
theorem put (h : b.Matches f σ c) (hf : f.Executable) {inst : Inst} {v : Value} {s : Scalar}
    (hputs : b.draft.Puts inst v b'.draft) (hscopes : b'.scopes = b.scopes)
    (hle : b'.draft.func.Le f) (ha : inst.isAlloca = false)
    (hout : inst.outcome c = some (some s, c.memory)) :
    f.Reaches 0 c fun c' =>
      Agrees b.draft.func.regs c c' ∧ b'.Matches f σ c' ∧ c'.value v = some s := by
  obtain ⟨c', hstep, hhere, hregs, hmemory, hargs, hhoused⟩ := h.here.puts hf hputs hle ha hout
  refine (Func.Reaches.step hstep (.here ⟨⟨hargs, fun r hr => ?_⟩,
    ⟨hhere, hhoused rfl h.housed, ?_⟩, ?_⟩)).weaken (Nat.zero_le _) fun _ h => h
  · rw [hregs]
    exact Function.update_of_ne (Nat.ne_of_lt hr) _ _
  · rw [hmemory, hscopes]
    exact h.stored
  · obtain ⟨l, d, τ, -, -, -, -, rfl⟩ := hputs
    change c'.regs _ = _
    rw [hregs]
    exact Function.update_self _ _ _

/-- The address of room. -/
theorem address (h : f.Housed c) {i : Nat} {line : Line} {addr : Value}
    (hslot : f.slots[i]? = some line) (hreg : addr.reg? = some line.reg) :
    c.value addr = some (.cell i) := by
  cases addr with
  | result id r name type =>
    obtain rfl := Option.some.inj hreg
    exact h.cells i line hslot
  | _ => cases hreg

/-- A value is kept in room. -/
theorem store (h : b.Matches f σ c) (hf : f.Executable) {v addr u : Value} {w : BitVec 32}
    {i : Nat} {line : Line} (hputs : b.draft.Puts (.store v addr) u b'.draft)
    (hle : b'.draft.func.Le f) (hslot : f.slots[i]? = some line)
    (hreg : addr.reg? = some line.reg) (hv : c.value v = some (.word w)) :
    f.Reaches 0 c fun c' => Agrees b.draft.func.regs c c' ∧ b'.draft.Here f c' ∧ f.Housed c' ∧
      c'.memory = c.memory.set i (some (.word w)) := by
  have hi : i < c.memory.length := by
    rw [h.housed.size]
    exact (List.getElem?_eq_some_iff.1 hslot).1
  have hout : (Inst.store v addr).outcome c =
      some (none, c.memory.set i (some (.word w))) := by
    simp [Inst.outcome, hv, address h.housed hslot hreg, hi]
  obtain ⟨c', hstep, hhere, hregs, hmemory, hargs, hhoused⟩ := h.here.puts hf hputs hle rfl hout
  refine (Func.Reaches.step hstep (.here ⟨⟨hargs, fun r _ => ?_⟩, hhere,
    hhoused (List.length_set) h.housed, hmemory⟩)).weaken (Nat.zero_le _) fun _ h => h
  rw [hregs]
  rfl

/-- Control goes to another block. -/
theorem goes (h : b.Matches f σ c) (hf : f.Executable) {term : Term} {d : Draft} {k : Label}
    (hcloses : b.draft.Closes term d) (hle : d.func.Le f) (hk : k ∈ term.successors)
    (hfollow : f.follow c term = (f.goTo c k).map .inl) :
    f.Reaches 1 c fun c' => Arrives f k b.scopes.inner σ c' ∧ c'.regs = c.regs ∧
      c'.args = c.args ∧ c'.came = some (c.block, c.regs) := by
  have hstep := h.here.closes hf hcloses hle
  obtain ⟨l, e, hl, he, hat⟩ := hcloses
  obtain ⟨e', he', hgrow⟩ := hle.blocks l _ hat
  have hsucc : k ∈ e'.successors := by
    rw [Block.successors, (hgrow.closed term rfl).1]
    exact hk
  obtain ⟨⟨d', hd'⟩, hk0⟩ := hf.shaped.inside l e' he' k hsucc
  obtain ⟨c', hgo, hhead, hregs, hmemory, hargs, hcame⟩ := hf.goTo hd' hk0 c
  rw [hfollow, hgo] at hstep
  refine Func.Reaches.step hstep (.here ⟨⟨hhead, h.housed.same hregs hmemory, ?_⟩, hregs, hargs,
    hcame⟩)
  rw [hmemory]
  exact h.stored

theorem br (h : b.Matches f σ c) (hf : f.Executable) {d : Draft} {k : Label}
    (hcloses : b.draft.Closes (.br k) d) (hle : d.func.Le f) :
    f.Reaches 1 c fun c' => Arrives f k b.scopes.inner σ c' ∧ c'.regs = c.regs ∧
      c'.args = c.args ∧ c'.came = some (c.block, c.regs) :=
  h.goes hf hcloses hle (List.mem_singleton.2 rfl) rfl

theorem condBr (h : b.Matches f σ c) (hf : f.Executable) {d : Draft} {v : Value}
    {yes no : Label} {bit : Bool} (hcloses : b.draft.Closes (.condBr v yes no) d)
    (hle : d.func.Le f) (hv : c.value v = some (.bit bit)) :
    f.Reaches 1 c fun c' => Arrives f (if bit then yes else no) b.scopes.inner σ c' ∧
      c'.regs = c.regs ∧ c'.args = c.args ∧ c'.came = some (c.block, c.regs) := by
  refine h.goes hf hcloses hle ?_ ?_
  · cases bit <;> simp [Term.successors]
  · rw [Func.follow, hv]

end Body.Matches

end

/-! ## Code that simulates -/

/-- Wherever a condition holds, the code between two states does to the variables what a part of the
meaning does to a store, and ends with something known of the result. -/
def Body.Simulates {β : Type} (b b' : Body) (P : Config → Prop)
    (m : Store → Option (Store × β)) (Q : β → Config → Prop) : Prop :=
  ∀ f σ c, f.Executable → b'.draft.func.Le f → b.Matches f σ c → P c →
    ∃ σ' r, m σ = some (σ', r) ∧ f.Reaches 0 c fun c' =>
      Agrees b.draft.func.regs c c' ∧ b'.Matches f σ' c' ∧ Q r c'

namespace Body.Simulates

variable {β γ : Type} {b b' b'' : Body} {P P' : Config → Prop}
  {m m' : Store → Option (Store × β)} {Q Q' : β → Config → Prop}

theorem weaken (h : b.Simulates b' P m Q) (hP : ∀ c, P' c → P c) (hm : ∀ σ, m σ = m' σ)
    (hQ : ∀ r c, Q r c → Q' r c) : b.Simulates b' P' m' Q' := by
  intro f σ c hf hle hc hPc
  obtain ⟨σ', r, hr, hreach⟩ := h f σ c hf hle hc (hP c hPc)
  refine ⟨σ', r, (hm σ).symm.trans hr, hreach.weaken (Nat.le_refl _) ?_⟩
  exact fun c' ⟨hagrees, hc', hQc⟩ => ⟨hagrees, hc', hQ r c' hQc⟩

/-- Code that has been written elsewhere has no effect here. -/
theorem stays (hstays : b.draft.Stays b'.draft) (hscopes : b'.scopes = b.scopes) (r : β) :
    b.Simulates b' P (fun σ => some (σ, r)) fun r' c => r' = r ∧ P c := by
  intro f σ c _ _ hc hPc
  exact ⟨σ, r, rfl, .here ⟨.refl _ _, hc.stays hstays hscopes, rfl, hPc⟩⟩

theorem bind {k : β → Store → Option (Store × γ)} {R : γ → Config → Prop}
    (h₁ : b.Simulates b' P m Q) (hle : b.draft.func.Le b'.draft.func)
    (hle' : b'.draft.func.Le b''.draft.func) (h₂ : ∀ r, b'.Simulates b'' (Q r) (k r) R) :
    b.Simulates b'' P (fun σ => (m σ).bind fun p => k p.2 p.1) R := by
  intro f σ c hf hle'' hc hPc
  obtain ⟨σ₁, r, hr, n₁, c₁, -, htakes₁, hagrees₁, hc₁, hQ₁⟩ :=
    h₁ f σ c hf (hle'.trans hle'') hc hPc
  obtain ⟨σ₂, r', hr', n₂, c₂, -, htakes₂, hagrees₂, hc₂, hR₂⟩ := h₂ r f σ₁ c₁ hf hle'' hc₁ hQ₁
  refine ⟨σ₂, r', ?_, n₁ + n₂, c₂, Nat.zero_le _, htakes₁.trans htakes₂, ?_, hc₂, hR₂⟩
  · dsimp only
    rw [hr]
    exact hr'
  · exact hagrees₁.trans hagrees₂ hle.regs

/-- Another name for the result. -/
theorem map (h : b.Simulates b' P m Q) (g : β → γ) :
    b.Simulates b' P (fun σ => (m σ).map fun p => (p.1, g p.2)) fun r c =>
      ∃ r', r = g r' ∧ Q r' c := by
  intro f σ c hf hle hc hPc
  obtain ⟨σ', r, hr, hreach⟩ := h f σ c hf hle hc hPc
  refine ⟨σ', g r, by simp [hr], hreach.weaken (Nat.le_refl _) ?_⟩
  exact fun c' ⟨hagrees, hc', hQc⟩ => ⟨hagrees, hc', r, rfl, hQc⟩

/-- Code in front that leaves the variables alone. -/
theorem after {m : Store → Option (Store × γ)} {R : γ → Config → Prop} {r : β}
    (h₁ : b.Simulates b' P (fun σ => some (σ, r)) Q) (hle : b.draft.func.Le b'.draft.func)
    (hle' : b'.draft.func.Le b''.draft.func) (h₂ : b'.Simulates b'' (Q r) m R) :
    b.Simulates b'' P m R := by
  intro f σ c hf hle'' hc hPc
  obtain ⟨σ₁, r₁, hr, n₁, c₁, -, htakes₁, hagrees₁, hc₁, hQ₁⟩ :=
    h₁ f σ c hf (hle'.trans hle'') hc hPc
  obtain ⟨rfl, rfl⟩ := Prod.mk.inj (Option.some.inj hr)
  obtain ⟨σ₂, r', hr', n₂, c₂, -, htakes₂, hagrees₂, hc₂, hR₂⟩ := h₂ f σ c₁ hf hle'' hc₁ hQ₁
  exact ⟨σ₂, r', hr', n₁ + n₂, c₂, Nat.zero_le _, htakes₁.trans htakes₂,
    hagrees₁.trans hagrees₂ hle.regs, hc₂, hR₂⟩

/-- What is known of the results so far stays known. -/
theorem frame (h : b.Simulates b' P m Q) {R : Config → Prop}
    (hR : ∀ c c', Agrees b.draft.func.regs c c' → R c → R c') :
    b.Simulates b' (fun c => P c ∧ R c) m fun r c => Q r c ∧ R c := by
  intro f σ c hf hle hc ⟨hPc, hRc⟩
  obtain ⟨σ', r, hr, hreach⟩ := h f σ c hf hle hc hPc
  refine ⟨σ', r, hr, hreach.weaken (Nat.le_refl _) ?_⟩
  exact fun c' ⟨hagrees, hc', hQc⟩ => ⟨hagrees, hc', hQc, hR c c' hagrees hRc⟩

/-- An instruction that leaves memory alone. -/
theorem put {inst : Inst} {v : Value} {s : Scalar} (hputs : b.draft.Puts inst v b'.draft)
    (hscopes : b'.scopes = b.scopes) (ha : inst.isAlloca = false)
    (hout : ∀ c, P c → inst.outcome c = some (some s, c.memory)) (r : β) :
    b.Simulates b' P (fun σ => some (σ, r)) fun r' c => r' = r ∧ c.value v = some s := by
  intro f σ c hf hle hc hPc
  refine ⟨σ, r, rfl, (hc.put hf hputs hscopes hle ha (hout c hPc)).weaken (Nat.le_refl _) ?_⟩
  exact fun c' ⟨hagrees, hc', hv⟩ => ⟨hagrees, hc', rfl, hv⟩

/-- Control goes to the start of another block. -/
theorem goes {d : Draft} {term : Term} {l k : Label} (hcloses : b.draft.Closes term d)
    (hle : d.func.Le b'.draft.func) (hl : b.draft.point = some l) (hk : k ∈ term.successors)
    (hfollow : ∀ (f : Func) c, P c → f.follow c term = (f.goTo c k).map .inl)
    (hstarts : b'.draft.Starts k) (hscopes : b'.scopes = b.scopes) (r : β) :
    b.Simulates b' P (fun σ => some (σ, r)) fun r' c' =>
      r' = r ∧ ∃ c, P c ∧ Config.From l c c' := by
  intro f σ c hf hle' hc hPc
  refine ⟨σ, r, rfl, (hc.goes hf hcloses (hle.trans hle') hk (hfollow f c hPc)).weaken
    (Nat.zero_le _) fun c' ⟨harrives, hregs, hargs, hcame⟩ => ?_⟩
  obtain ⟨l', -, -, hl', -, -, hblock, -⟩ := hc.here
  obtain rfl : l = l' := Option.some.inj (hl.symm.trans hl')
  rw [hblock] at hcame
  exact ⟨⟨hargs, fun _ _ => congrFun hregs _⟩, harrives.matches hstarts (by rw [hscopes]), rfl,
    c, hPc, hcame, hregs, hargs⟩

/-- A variable is read. -/
theorem load {type : Ty} {v : Value} {name : String} {sym : Symbol DataType Value}
    (hputs : b.draft.Puts (.load type sym.handle) v b'.draft) (hscopes : b'.scopes = b.scopes)
    (hsym : b.scopes.local? name = some sym) :
    b.Simulates b' P (fun σ => (σ.get? name).map fun w => (σ, w)) fun w c =>
      c.value v = some (.word w) := by
  intro f σ c hf hle hc _
  obtain ⟨w, hget, -, i, line, hslot, hreg, hcell⟩ := Stored.get? hc.stored hsym
  have hout : (Inst.load type sym.handle).outcome c = some (some (.word w), c.memory) := by
    simp [Inst.outcome, Body.Matches.address hc.housed hslot hreg, hcell]
  exact ⟨σ, w, by simp [hget], hc.put hf hputs hscopes hle rfl hout⟩

/-- A variable gets another value. -/
theorem store {v u : Value} {w : BitVec 32} {name : String} {sym : Symbol DataType Value}
    (hputs : b.draft.Puts (.store v sym.handle) u b'.draft) (hscopes : b'.scopes = b.scopes)
    (hsym : b.scopes.local? name = some sym)
    (hdistinct : (b.scopes.inner.flatten.map fun s => s.handle.reg?).Nodup)
    (hv : ∀ c, P c → c.value v = some (.word w)) (r : β) :
    b.Simulates b' P (fun σ => some (σ.set name w, r)) fun r' _ => r' = r := by
  intro f σ c hf hle hc hPc
  obtain ⟨-, -, -, i, line, hslot, hreg, -⟩ := Stored.get? hc.stored hsym
  refine ⟨σ.set name w, r, rfl, (hc.store hf hputs hle hslot hreg (hv c hPc)).weaken
    (Nat.le_refl _) fun c' ⟨hagrees, hhere, hhoused, hmemory⟩ => ?_⟩
  refine ⟨hagrees, ⟨hhere, hhoused, ?_⟩, rfl⟩
  rw [hmemory, hscopes]
  exact Stored.set hc.stored hsym hdistinct hslot hreg hc.housed.size w

end Body.Simulates

end Lowering

end Shader
