import Shader.Proofs.Ir.Code
import Shader.Proofs.Lowering.Success
import Shader.Proofs.Scopes.Contents

/-!
# Rooms of variables

Memory is written through addresses, and every address that is written through has been made for a
variable: it is that of the room that has been reserved for it, that of a global variable, a
parameter that the function writes to, or it has been computed from one of these for a column of a
matrix. `Room` follows an address back to the variable and says of which type its value is and
whether the variable may only be initialized.

`Traced` is the invariant of a function that is being written: every address that its instructions
write through, or hand over to be written through, is that of a room; a constant is written by the
store that gives it its first value alone; and the values that are kept, handed over and returned
are such as a `Demand` asks of their types.
-/

namespace Shader.Lowering

open Ir

/-! ## Variables -/

/-- Room for a variable of a function. -/
structure Slot where
  /-- the number of the instruction that reserves it -/
  reg : Nat
  /-- the name of its address -/
  name : String
  /-- the type of the variable -/
  type : DataType
  /-- whether the variable may only be initialized -/
  isConst : Bool

/-- The instruction that reserves the room. -/
def Slot.line (s : Slot) : Line := ⟨s.reg, s.name, .alloca (Ty.ofData s.type)⟩

/-- The address of the room. -/
def Slot.addr (id : FuncId) (s : Slot) : Value :=
  .result id s.reg s.name (.pointer (Ty.ofData s.type))

/-- What has been declared while a function is written. -/
structure Ledger where
  /-- the room for its variables -/
  slots : List Slot := []
  /-- the stores that give variables their first values: their numbers and the addresses -/
  first : List (Nat × Value) := []

/-- The order in which more and more is declared. -/
structure Ledger.Le (k k' : Ledger) : Prop where
  /-- no variable is lost -/
  slots : k.slots ⊆ k'.slots
  /-- and no first value -/
  first : k.first ⊆ k'.first

theorem Ledger.Le.refl (k : Ledger) : k.Le k := ⟨fun _ h => h, fun _ h => h⟩

/-- What the code of a function can refer to. -/
structure Setting where
  /-- the function -/
  id : FuncId
  /-- its parameters -/
  params : List Param
  /-- the type of its result -/
  result : DataType
  /-- the functions that can be called -/
  sigs : Signatures
  /-- the global variables, with their types and whether they may only be initialized -/
  globals : GlobalId → DataType → Bool → Prop

/-- An address is that of a variable, or of a column of one: whether the variable may only be
initialized, and the type of what is at the address. -/
inductive Room (E : Setting) (k : Ledger) (f : Func) : Bool → DataType → Value → Prop
  /-- room of the function itself -/
  | slot {s : Slot} (hs : s ∈ k.slots) : Room E k f s.isConst s.type (s.addr E.id)
  /-- a variable of the caller -/
  | param {i : Nat} {p : Param} (hp : E.params[i]? = some p) (hout : p.storage = .output) :
    Room E k f false p.type (.param E.id i p.name.text (formal p).type)
  /-- a global variable -/
  | global {id : GlobalId} {t : DataType} {c : Bool} (hg : E.globals id t c) :
    Room E k f c t (.global id (Ty.ofData t))
  /-- a column of a matrix -/
  | column {c : Bool} {n : Dim} {a idx : Value} {line : Line} {τ : Ty}
    (base : Room E k f c (.matrix n) a) (hline : line ∈ f.code)
    (hinst : line.inst = .elementAddr (Ty.ofData (.matrix n)) a idx)
    (htype : line.inst.type? = some τ) :
    Room E k f c (.vector .float n) (.result E.id line.reg "" τ)

theorem Room.mono {E : Setting} {k k' : Ledger} {f f' : Func} {c : Bool} {t : DataType} {v : Value}
    (hk : k.Le k') (hf : f.Grows f') (h : Room E k f c t v) : Room E k' f' c t v := by
  induction h with
  | slot hs => exact .slot (hk.slots hs)
  | param hp hout => exact .param hp hout
  | global hg => exact .global hg
  | column _ hline hinst htype ih => exact .column ih (hf.code hline) hinst htype

/-! ## Values -/

/-- What is asked of the values in a function, and what the operators that are applied and the notes
that are made while it is written have to be like. -/
structure Demand (E : Setting) where
  /-- the values that a type may have -/
  fit : Ledger → Func → DataType → Value → Prop
  /-- they may still be had later on -/
  fit_mono : ∀ {k k' f f' t v}, k.Le k' → f.Grows f' → fit k f t v → fit k' f' t v
  /-- the operators and the types of their operands -/
  allows : UnaryOp → DataType → Prop
  /-- the notes of the types of names -/
  seen : List (Name × DataType) → Prop
  /-- earlier notes are like later ones -/
  seen_tail : ∀ {note notes}, seen (note :: notes) → seen notes

section

variable {E : Setting} (D : Demand E) (k : Ledger)

/-- An operand is a value as it is asked for, or a variable with room. -/
def Operand.Traced (f : Func) : Operand → Prop
  | .nothing _ => True
  | .value _ t v => D.fit k f t v
  | .place _ t addr _ c => Room E k f c t addr
  | .lane _ s n addr _ _ c => Room E k f c (.vector s n) addr

/-- What a parameter takes: the address of a variable that may be written, or a value. -/
def Passing.Takes (f : Func) (p : Passing) (v : Value) : Prop :=
  if p.isOut then Room E k f false p.type v else D.fit k f p.type v

/-- An instruction keeps to the variables that have been declared. -/
def LineTraced (f : Func) (line : Line) : Prop :=
  match line.inst with
  | .alloca _ => ∃ s ∈ k.slots, line = s.line
  | .store v a => ∃ c t, Room E k f c t a ∧ D.fit k f t v ∧ (c = true → (line.reg, a) ∈ k.first)
  | .call func _ args => args = [] ∨ ∃ name sig, E.sigs name = some sig ∧ func = ⟨sig.name, 0⟩ ∧
      List.Forall₂ (Passing.Takes D k f) sig.params args
  | _ => True

/-- The code of a function that is being written keeps to the variables that have been declared. -/
structure Traced (d : Draft) : Prop where
  /-- the function is the one that is asked for -/
  id : d.func.id = E.id
  /-- it has an entry -/
  entry : d.func.blocks ≠ []
  /-- instructions go to a block of the function -/
  point : ∀ l, d.point = some l → l ∈ d.func.ownLabels
  /-- the room that has been reserved has numbers of the function -/
  below : ∀ s ∈ k.slots, s.reg < d.func.regs
  /-- every instruction keeps to the variables -/
  line : ∀ line ∈ d.func.code, LineTraced D k d.func line
  /-- and what is returned is as it is asked for -/
  term : ∀ v, .ret (some v) ∈ d.func.terms → D.fit k d.func E.result v

/-- And so do the declarations in scope. -/
structure BodyTraced (b : Body) : Prop extends Traced D k b.draft where
  /-- every name in scope has room -/
  scopes : b.scopes.All fun sym => Room E k b.draft.func sym.isConst sym.type sym.handle

end

section

variable {E : Setting} {D : Demand E} {k k' : Ledger} {f f' : Func}

theorem Operand.Traced.mono (hk : k.Le k') (hf : f.Grows f') {x : Operand} (h : x.Traced D k f) :
    x.Traced D k' f' := by
  cases x with
  | nothing => trivial
  | value => exact D.fit_mono hk hf h
  | place => exact Room.mono hk hf h
  | lane => exact Room.mono hk hf h

theorem Passing.Takes.mono (hk : k.Le k') (hf : f.Grows f') {p : Passing} {v : Value}
    (h : p.Takes D k f v) : p.Takes D k' f' v := by
  unfold Passing.Takes at h ⊢
  split
  next hout =>
    rw [if_pos hout] at h
    exact h.mono hk hf
  next hin =>
    rw [if_neg hin] at h
    exact D.fit_mono hk hf h

theorem LineTraced.mono (hk : k.Le k') (hf : f.Grows f') {line : Line} (h : LineTraced D k f line) :
    LineTraced D k' f' line := by
  rcases line with ⟨reg, name, inst⟩
  cases inst with
  | alloca =>
    obtain ⟨s, hs, hline⟩ := h
    exact ⟨s, hk.slots hs, hline⟩
  | store =>
    obtain ⟨c, t, hroom, hfit, hfirst⟩ := h
    exact ⟨c, t, hroom.mono hk hf, D.fit_mono hk hf hfit, fun hc => hk.first (hfirst hc)⟩
  | call =>
    refine h.imp_right fun ⟨name, sig, hsig, hfunc, hargs⟩ => ⟨name, sig, hsig, hfunc, ?_⟩
    exact hargs.imp fun _ _ htakes => htakes.mono hk hf
  | _ => trivial

/-- What computes a value writes nowhere. -/
theorem lineTraced_of_computes {line : Line} (h : line.inst.computes = true) :
    LineTraced D k f line := by
  rcases line with ⟨reg, name, inst⟩
  cases inst with
  | alloca => cases h
  | store => cases h
  | call => cases h
  | _ => trivial

/-! ## What the primitives keep -/

namespace Traced

variable {d d' : Draft}

/-- More has been declared, and the instructions are still those that there were. -/
theorem mono (h : Traced D k d) (hk : k.Le k') (hbelow : ∀ s ∈ k'.slots, s.reg < d.func.regs) :
    Traced D k' d where
  id := h.id
  entry := h.entry
  point := h.point
  below := hbelow
  line := fun line hline => (h.line line hline).mono hk (.refl _)
  term := fun v hv => D.fit_mono hk (.refl _) (h.term v hv)

/-- An instruction that keeps to the variables. -/
theorem append {inst : Inst} {v : Value} (h : Traced D k d)
    (hrun : Emit.append inst d = .ok (v, d'))
    (hline : LineTraced D k d.func { reg := d.func.regs, inst }) :
    Traced D k d' ∧ d.Grows d' ∧ { reg := d.func.regs, inst } ∈ d'.func.code ∧
      ∃ τ, inst.type? = some τ ∧ v = .result E.id d.func.regs "" τ := by
  obtain ⟨l, τ, hl, hτ, rfl, rfl⟩ := Emit.append_cases hrun
  have hown := h.point l hl
  have hgrows : d.func.Grows (d.func.put l inst) := Func.grows_put hown
  refine ⟨⟨h.id, ?_, fun m hm => ?_, fun s hs => ?_, fun line' hmem => ?_, fun w hw => ?_⟩,
    ⟨hgrows, fun hd => hd⟩, (Func.mem_code_put hown).2 (.inr rfl), τ, hτ, by rw [h.id]⟩
  · simpa [Func.put, Func.modifyBlock] using h.entry
  · exact hgrows.labels (h.point m hm)
  · exact Nat.lt_succ_of_lt (h.below s hs)
  · rcases (Func.mem_code_put hown).1 hmem with hold | rfl
    · exact (h.line line' hold).mono (.refl k) hgrows
    · exact hline.mono (.refl k) hgrows
  · exact D.fit_mono (.refl k) hgrows (h.term w (by simpa using hw))

theorem evaluates {α : Type} {act : Emit α} (hact : Evaluates act) {a : α} (h : Traced D k d)
    (hrun : act d = .ok (a, d')) : Traced D k d' ∧ d.Grows d' := by
  refine hact.keeps (R := fun d d' => Traced D k d → Traced D k d' ∧ d.Grows d') ?_ hrun h
  refine ⟨fun d h => ⟨h, .refl _⟩, fun h₁ h₂ h => ?_, fun hinst hrun h => ?_⟩
  · obtain ⟨h, hgrows⟩ := h₁ h
    obtain ⟨h, hgrows'⟩ := h₂ h
    exact ⟨h, hgrows.trans hgrows'⟩
  · obtain ⟨h, hgrows, -⟩ := h.append hrun (lineTraced_of_computes hinst)
    exact ⟨h, hgrows⟩

/-- A store into a variable that may be written. -/
theorem store {t : DataType} {v a : Value} {u : Unit} (h : Traced D k d)
    (hroom : Room E k d.func false t a) (hfit : D.fit k d.func t v)
    (hrun : Emit.store v a d = .ok (u, d')) : Traced D k d' ∧ d.Grows d' := by
  obtain ⟨_, happend⟩ := Emit.discard_cases hrun
  obtain ⟨h, hgrows, -⟩ :=
    h.append happend ⟨false, t, hroom, hfit, fun hc => absurd hc Bool.false_ne_true⟩
  exact ⟨h, hgrows⟩

theorem terminate {term : Term} {u : Unit} (h : Traced D k d)
    (hret : ∀ v, term = .ret (some v) → D.fit k d.func E.result v)
    (hrun : Emit.terminate term d = .ok (u, d')) : Traced D k d' ∧ d.Grows d' := by
  obtain ⟨l, -, rfl⟩ := Emit.terminate_cases hrun
  have hgrows := Func.grows_close (f := d.func) (l := l) (t := term)
  refine ⟨⟨h.id, ?_, fun m hm => hgrows.labels (h.point m hm), h.below, fun line' hmem => ?_,
    fun v hv => ?_⟩, ⟨hgrows, fun hd => hd⟩⟩
  · simpa [Func.close, Func.modifyBlock] using h.entry
  · exact (h.line line' (by simpa using hmem)).mono (.refl k) hgrows
  · refine D.fit_mono (.refl k) hgrows ?_
    rcases Func.mem_terms_close hv with heq | hold
    · exact hret v heq.symm
    · exact h.term v hold

theorem newBlock {hint : String} {l : Label} (h : Traced D k d)
    (hrun : Emit.newBlock hint d = .ok (l, d')) :
    Traced D k d' ∧ d.Grows d' ∧ l ∈ d'.func.ownLabels := by
  obtain ⟨rfl, rfl⟩ := Emit.newBlock_cases hrun
  have hgrows : d.func.Grows (d.func.addBlock hint).2 := Func.grows_addBlock
  refine ⟨⟨h.id, ?_, fun m hm => hgrows.labels (h.point m hm), h.below, fun line' hmem => ?_,
    fun v hv => ?_⟩, ⟨hgrows, fun hd => hd⟩, ?_⟩
  · simp [Func.addBlock]
  · exact (h.line line' (by simpa using hmem)).mono (.refl k) hgrows
  · exact D.fit_mono (.refl k) hgrows (h.term v (by simpa using hv))
  · rw [Func.ownLabels_addBlock]
    exact List.mem_append_right _ List.mem_cons_self

theorem setPoint {p : Option Label} (h : Traced D k d)
    (hp : ∀ l, p = some l → l ∈ d.func.ownLabels) :
    Traced D k { d with point := p } := ⟨h.id, h.entry, hp, h.below, h.line, h.term⟩

/-- Room for another variable. -/
theorem alloca {t : DataType} {hint : String} {v : Value} (h : Traced D k d) (isConst : Bool)
    (hrun : Emit.alloca t hint d = .ok (v, d')) :
    ∃ s : Slot, s.type = t ∧ s.isConst = isConst ∧ s.reg = d.func.regs ∧ v = s.addr E.id ∧
      s.line ∈ d'.func.code ∧ d'.func.regs = s.reg + 1 ∧ d.Grows d' ∧
      Traced D { k with slots := k.slots ++ [s] } d' := by
  obtain ⟨hentry, rfl, rfl⟩ := Emit.alloca_cases hrun
  have hgrows : d.func.Grows (d.func.reserve t hint) := Func.grows_reserve hentry
  let s : Slot := ⟨d.func.regs, (d.func.claimName hint).1, t, isConst⟩
  have hmore : k.Le { k with slots := k.slots ++ [s] } :=
    ⟨List.subset_append_left _ _, fun _ hs => hs⟩
  refine ⟨s, rfl, rfl, rfl, by rw [h.id]; rfl, ?_, rfl, ⟨hgrows, fun hd => hd⟩, h.id, ?_,
    fun m hm => hgrows.labels (h.point m hm), fun s' hs' => ?_, fun line' hmem => ?_,
    fun w hw => ?_⟩
  · exact (Func.mem_code_reserve hentry).2 (.inr rfl)
  · intro hnil
    have hlabels : (d.func.reserve t hint).ownLabels = d.func.ownLabels :=
      Func.ownLabels_reserve
    rw [Func.ownLabels, Func.ownLabels, hnil] at hlabels
    exact hentry (List.map_eq_nil_iff.1 hlabels.symm)
  · rcases List.mem_append.1 hs' with hold | hnew
    · exact Nat.lt_succ_of_lt (h.below s' hold)
    · obtain rfl := List.mem_singleton.1 hnew
      exact Nat.lt_succ_self _
  · rcases (Func.mem_code_reserve hentry).1 hmem with hold | rfl
    · exact (h.line line' hold).mono hmore hgrows
    · exact ⟨s, List.mem_append_right _ List.mem_cons_self, rfl⟩
  · exact D.fit_mono hmore hgrows (h.term w (by simpa using hw))

end Traced

end

end Shader.Lowering
