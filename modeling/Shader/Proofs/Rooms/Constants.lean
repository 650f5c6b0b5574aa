import Shader.Proofs.Rooms.Globals

/-!
# Constants are written once

The address of a variable that may only be initialized is the destination of one store of the whole
module, the one behind the code of its first value. No store goes through the address of a column of
the variable, and no function is handed any of these addresses.
-/

namespace Shader.Ir

/-- The instructions of a module, each with its function. -/
def Module.code (m : Module) : List (FuncId × Line) :=
  m.funcs.flatMap fun g => g.code.map fun line => (g.id, line)

/-- A value is an address, or has been computed from it for a column of the matrix there. -/
inductive Derives (m : Module) (a : Value) : Value → Prop
  /-- the address itself -/
  | self : Derives m a a
  /-- a column of what is at a derived address -/
  | column {b idx : Value} {id : FuncId} {line : Line} {t : Ty} (base : Derives m a b)
    (hline : (id, line) ∈ m.code) (hinst : line.inst = .elementAddr t b idx) (name : String)
    (τ : Ty) : Derives m a (.result id line.reg name τ)

/-- What is at an address is written by one instruction alone, which writes to the address
itself. -/
structure WrittenOnce (m : Module) (a : Value) (id : FuncId) (line : Line) : Prop where
  /-- the instruction writes there -/
  store : ∃ v, line.inst = .store v a
  /-- it stands at one place of the module, and no other instruction writes there, be it through a
  derived address -/
  once : ∃ before after, m.code = before ++ (id, line) :: after ∧
    ∀ x ∈ before ++ after, ∀ v b, x.2.inst = .store v b → ¬ Derives m a b
  /-- no function is handed the address or a derived one -/
  kept : ∀ x ∈ m.code, ∀ func result args, x.2.inst = .call func result args →
    ∀ b ∈ args, ¬ Derives m a b

section

variable {m : Module} {g : Func} {line : Line}

theorem Module.mem_code (hg : g ∈ m.funcs) (hline : line ∈ g.code) : (g.id, line) ∈ m.code :=
  List.mem_flatMap.2 ⟨g, hg, List.mem_map_of_mem hline⟩

theorem Module.exists_of_mem_code {id : FuncId} (h : (id, line) ∈ m.code) :
    ∃ g ∈ m.funcs, g.id = id ∧ line ∈ g.code := by
  obtain ⟨g, hg, hmem⟩ := List.mem_flatMap.1 h
  obtain ⟨line', hline, heq⟩ := List.mem_map.1 hmem
  obtain ⟨rfl, rfl⟩ := Prod.mk.inj heq
  exact ⟨g, hg, rfl, hline⟩

/-- An instruction stands in the function that it is said to stand in. -/
theorem Module.mem_code_iff (hids : (m.funcs.map Func.id).Nodup) (hg : g ∈ m.funcs) :
    (g.id, line) ∈ m.code ↔ line ∈ g.code := by
  refine ⟨fun h => ?_, Module.mem_code hg⟩
  obtain ⟨g', hg', hid, hline⟩ := Module.exists_of_mem_code h
  exact List.inj_on_of_nodup_map hids hg' hg hid ▸ hline

theorem Module.nodup_code (hids : (m.funcs.map Func.id).Nodup)
    (hnumbered : ∀ g ∈ m.funcs, g.Numbered) : m.code.Nodup := by
  refine List.nodup_flatMap.2 ⟨fun g hg => ?_, ?_⟩
  · exact (hnumbered g hg).nodup_code.map fun _ _ h => (Prod.mk.inj h).2
  · refine (List.pairwise_map.1 hids).imp fun {g g'} hne x hx hx' => hne ?_
    obtain ⟨_, -, rfl⟩ := List.mem_map.1 hx
    obtain ⟨_, -, heq⟩ := List.mem_map.1 hx'
    exact (Prod.mk.inj heq).1.symm

end

end Shader.Ir

namespace Shader.Lowering

open Ir

/-! ## Functions that keep to rooms -/

/-- The demand that is always met. -/
def Demand.nothing (E : Setting) : Demand E where
  fit := fun _ _ _ _ => True
  fit_mono := fun _ _ h => h
  allows := fun _ _ => True
  seen := fun _ => True
  seen_tail := id

theorem Operand.IsValue.traced {E : Setting} {k : Ledger} {f : Func} {x : Operand} (h : x.IsValue) :
    x.Traced (.nothing E) k f := by
  cases x with
  | value => trivial
  | _ => cases h

theorem fitness_nothing (E : Setting) : Fitness (.nothing E) where
  plain := fun _ => trivial
  zero := trivial
  bool := fun _ => trivial
  param := fun _ _ => trivial
  call := fun _ _ _ => trivial
  phi := fun _ _ _ => trivial
  setLane := fun _ _ _ _ _ => trivial
  valueOf := fun _ _ _ => trivial
  valueAs := fun _ _ _ => trivial
  build := fun _ _ _ => trivial
  arith := fun _ _ _ hrun => (brings_arith (P := fun _ => True) _ _ _ trivial hrun).traced
  unary := fun _ _ _ hrun => (brings_unary (P := fun _ => True) _ _ _ trivial hrun).traced
  select := fun _ hx hrun => (brings_select _ _ _ hx hrun).elim Operand.IsValue.traced id

/-- No shader names the type of an address, -/
theorem ofData_ne_pointer {t : DataType} {τ : Ty} : Ty.ofData t ≠ .pointer τ := by
  cases t with
  | scalar s => cases s <;> simp [Ty.ofData, Ty.ofScalar]
  | _ => simp [Ty.ofData]

/-- nor that of a vector of addresses. -/
theorem ofData_ne_vector_pointer {t : DataType} {n : Nat} {τ : Ty} :
    Ty.ofData t ≠ .vector n (.pointer τ) := by
  cases t with
  | scalar s => cases s <;> simp [Ty.ofData, Ty.ofScalar]
  | vector s => cases s <;> simp [Ty.ofData, Ty.ofScalar]
  | _ => simp [Ty.ofData]

theorem ofData_ne_type_elementAddr {t : DataType} {τ : Ty} {a idx : Value} :
    (Inst.elementAddr τ a idx).type? ≠ some (Ty.ofData t) := by
  have haddr {elem : Ty} : elem.addressOf a idx ≠ Ty.ofData t := by
    unfold Ty.addressOf
    split
    · exact ofData_ne_vector_pointer.symm
    · split
      · exact ofData_ne_pointer.symm
      · exact ofData_ne_vector_pointer.symm
  intro h
  simp only [Inst.type?] at h
  split at h
  · split at h
    · exact haddr (Option.some.inj h)
    · cases h
  · split at h
    · exact haddr (Option.some.inj h)
    · cases h
  · cases h

theorem permitted_nothing {E : Setting} {x : Expr} : Permitted (.nothing E) x := by
  intros _ _ _ _ _ _ _ _ _
  trivial

/-- A function of a module keeps to the rooms of its variables. -/
structure Housed (m : Module) (E : Setting) (k : Ledger) (g : Func) : Prop where
  /-- it is one of the functions -/
  mem : g ∈ m.funcs
  /-- with the name that is asked for -/
  id : g.id = E.id
  /-- its instructions keep to the rooms -/
  line : ∀ line ∈ g.code, LineTraced (.nothing E) k g line
  /-- which are reserved -/
  slots : ∀ s ∈ k.slots, s.line ∈ g.code
  /-- first values are kept in variables of the function or in global ones -/
  first : ∀ x ∈ k.first, (∃ s ∈ k.slots, x.2 = s.addr E.id) ∨ ∃ id τ, x.2 = .global id τ
  /-- numbers tell instructions apart -/
  numbered : g.Numbered
  /-- and instructions take their operands -/
  typed : g.WellTyped m.outside
  /-- as do the functions that are called -/
  sigs : SignaturesSound m.outside E.sigs

namespace Housed

variable {m : Module} {E : Setting} {k : Ledger} {g : Func} {line : Line} {a b : Value}

section

variable (h : Housed m E k g)
include h

/-- The number of room is not that of the address of a column. -/
theorem slot_ne {s : Slot} {t : Ty} {base idx : Value} (hs : s ∈ k.slots) (hline : line ∈ g.code)
    (hinst : line.inst = .elementAddr t base idx) : s.reg ≠ line.reg := by
  intro hreg
  obtain rfl := h.numbered.line_eq (h.slots s hs) hline hreg
  cases hinst

variable (hids : (m.funcs.map Func.id).Nodup)
include hids

/-- What has been computed from the address of a constant is constant. -/
theorem const_of_derives (ha : ∀ c t, Room E k g c t a → c = true) (hb : Derives m a b) :
    ∀ c t, Room E k g c t b → c = true := by
  induction hb with
  | self => exact ha
  | @column b idx id line t base hline hinst name τ ih =>
    intro c t' hroom
    generalize hv : Value.result id line.reg name τ = v at hroom
    have hmem : id = g.id → line ∈ g.code := fun hid =>
      (Module.mem_code_iff hids h.mem).1 (hid ▸ hline)
    cases hroom with
    | @slot s hs =>
      obtain ⟨hid, hreg, -, -⟩ := Value.result.inj hv
      exact absurd hreg.symm (h.slot_ne hs (hmem (hid.trans h.id.symm)) hinst)
    | param => cases hv
    | global => cases hv
    | @column _ n a idx line' τ' base' hline' hinst' =>
      obtain ⟨hid, hreg, -, -⟩ := Value.result.inj hv
      obtain rfl := h.numbered.line_eq (hmem (hid.trans h.id.symm)) hline' hreg
      obtain ⟨-, rfl, -⟩ := Inst.elementAddr.inj (hinst.symm.trans hinst')
      exact ih _ _ base'

/-- Stores to the address of a constant, or to one that is derived from it, keep first values. -/
theorem store_cases (ha : ∀ c t, Room E k g c t a → c = true) (hb : Derives m a b)
    (hline : line ∈ g.code) {v : Value} (hinst : line.inst = .store v b) :
    b = a ∧ (line.reg, a) ∈ k.first := by
  have htraced := h.line line hline
  rw [LineTraced, hinst] at htraced
  obtain ⟨c, t, hroom, -, hfirst⟩ := htraced
  have hfirst := hfirst (h.const_of_derives hids ha hb c t hroom)
  cases hb with
  | self => exact ⟨rfl, hfirst⟩
  | @column base idx id line' t hbase hline' hinst' name τ =>
    -- first values are not kept in columns
    rcases h.first _ hfirst with ⟨s, hs, haddr⟩ | ⟨_, _, haddr⟩
    · obtain ⟨hid, hreg, -, -⟩ := Value.result.inj haddr
      have hmem := (Module.mem_code_iff hids h.mem).1 (hid.trans h.id.symm ▸ hline')
      exact absurd hreg.symm (h.slot_ne hs hmem hinst')
    · cases haddr

/-- No function is handed the address of a constant, or one that is derived from it. -/
theorem not_passed (ha : ∀ c t, Room E k g c t a → c = true) (htype : ∀ t, a.type ≠ Ty.ofData t)
    (hline : line ∈ g.code) {func : FuncId} {result : Ty} {args : List Value}
    (hinst : line.inst = .call func result args) (hb : b ∈ args) : ¬ Derives m a b := by
  intro hderives
  have htraced := h.line line hline
  rw [LineTraced, hinst] at htraced
  obtain rfl | ⟨name, sig, hsig, rfl, hargs⟩ := htraced
  · cases hb
  obtain ⟨block, hblock, hmem⟩ := Func.mem_code.1 hline
  have htypes := h.typed.line block hblock line hmem
  rw [hinst, Inst.WellTyped, h.sigs name sig hsig] at htypes
  have htypes : sig.params.map Passing.ty = args.map Value.type :=
    (Prod.mk.inj (Option.some.inj htypes)).2
  obtain ⟨p, htakes, hty⟩ : ∃ p : Passing, p.Takes (.nothing E) k g b ∧ p.ty = b.type := by
    obtain ⟨i, hi, rfl⟩ := List.mem_iff_getElem.1 hb
    have hi' : i < sig.params.length := hargs.length_eq ▸ hi
    have hpair := congrArg (fun l => l[i]?) htypes
    exact ⟨sig.params[i], hargs.get hi' hi, by simpa [hi, hi'] using hpair⟩
  by_cases hout : p.isOut = true
  · rw [Passing.Takes, if_pos hout] at htakes
    exact absurd (h.const_of_derives hids ha hderives _ _ htakes) (by simp)
  -- what is only read is no address
  · rw [Passing.ty, if_neg hout] at hty
    cases hderives with
    | self => exact htype _ hty.symm
    | @column base idx id line' t hbase hline' hinst' name τ =>
      obtain ⟨hid, l, c, line₂, hc, hline₂, hreg, -, hτ⟩ :=
        h.typed.operand block hblock line hmem _ (by rw [hinst]; exact hb)
      have hmem' := (Module.mem_code_iff hids h.mem).1 (hid ▸ hline')
      obtain rfl := h.numbered.line_eq (Func.mem_code.2 ⟨c, hc.mem, hline₂⟩) hmem' hreg
      obtain rfl : Ty.ofData p.type = τ := hty
      rw [hinst'] at hτ
      exact ofData_ne_type_elementAddr hτ

end

/-- The address of room is not known in other functions. -/
theorem foreign (h : Housed m E k g) {id : FuncId} {reg : Nat} {name : String} {τ : Ty}
    (hid : id ≠ g.id) : (∀ c t, Room E k g c t (.result id reg name τ) → c = true) ∧
      ∀ n, (n, .result id reg name τ) ∉ k.first := by
  have hid' : id ≠ E.id := h.id ▸ hid
  refine ⟨fun c t hroom => ?_, fun n hn => ?_⟩
  · generalize hv : Value.result id reg name τ = v at hroom
    cases hroom with
    | slot => exact absurd (Value.result.inj hv).1 hid'
    | param => cases hv
    | global => cases hv
    | column => exact absurd (Value.result.inj hv).1 hid'
  · rcases h.first _ hn with ⟨s, -, haddr⟩ | ⟨_, _, haddr⟩
    · exact absurd (Value.result.inj haddr).1 hid'
    · cases haddr

/-- In its own function it is that of a constant, and kept for its first value. -/
theorem ofLocal {n : Nat} {slots : List Slot} {ls : List Local} {ds : List VarDecl} {l : Local}
    (h : Housed m E (Ledger.with { slots } E.id ls) g) (hls : Declared E n ls ds g)
    (hslots : ∀ s ∈ slots, s.reg < n) (hl : l ∈ ls) (hconst : l.decl.isConst = true) :
    (∀ c t, Room E (Ledger.with { slots } E.id ls) g c t (l.addr E.id) → c = true) ∧
      ∀ n, (n, l.addr E.id) ∈ (Ledger.with { slots } E.id ls).first →
        n = (l.store E.id).reg := by
  have hregs : (ls.map Local.reg).Nodup := List.pairwise_map.2 (hls.ordered.imp Nat.ne_of_lt)
  -- local variables are told apart by the numbers of their rooms
  have hsame : ∀ l' ∈ ls, l'.reg = l.reg → l' = l := fun l' hl' =>
    List.inj_on_of_nodup_map hregs hl' hl
  refine ⟨fun c t hroom => ?_, fun n' hn => ?_⟩
  · generalize hv : l.addr E.id = v at hroom
    cases hroom with
    | @slot s hs =>
      obtain ⟨-, hreg, -, -⟩ := Value.result.inj hv
      rcases List.mem_append.1 hs with hs | hs
      · have := hslots s hs
        have := hls.since l hl
        simp only [Local.slot] at hreg
        omega
      · obtain ⟨l', hl', rfl⟩ := List.mem_map.1 hs
        obtain rfl := hsame l' hl' hreg.symm
        exact hconst
    | param => cases hv
    | global => cases hv
    | column _ hline hinst =>
      obtain ⟨-, hreg, -, -⟩ := Value.result.inj hv
      have hslot : l.slot ∈ (Ledger.with { slots } E.id ls).slots :=
        List.mem_append_right _ (List.mem_map_of_mem hl)
      exact absurd hreg (h.slot_ne hslot hline hinst)
  · simp only [Ledger.with, List.nil_append] at hn
    obtain ⟨l', hl', heq⟩ := List.mem_map.1 hn
    obtain ⟨rfl, haddr⟩ := Prod.mk.inj heq
    obtain ⟨-, hreg, -, -⟩ := Value.result.inj haddr
    rw [hsame l' hl' hreg]
    rfl

end Housed

/-! ## Modules -/

/-- An address that is that of a constant in every function, and is kept for one store. -/
theorem writtenOnce {m : Module} {a v : Value} {g : Func} {line : Line}
    (hids : (m.funcs.map Func.id).Nodup)
    (hall : ∀ g' ∈ m.funcs, ∃ E k, Housed m E k g' ∧ (∀ c t, Room E k g' c t a → c = true) ∧
      ∀ n, (n, a) ∈ k.first → g' = g ∧ n = line.reg)
    (hg : g ∈ m.funcs) (hline : line ∈ g.code) (hinst : line.inst = .store v a)
    (htype : ∀ t, a.type ≠ Ty.ofData t) : WrittenOnce m a g.id line := by
  have hnodup : m.code.Nodup := Module.nodup_code hids fun g hg => by
    obtain ⟨E, k, h, -⟩ := hall g hg
    exact h.numbered
  obtain ⟨before, after, hsplit⟩ := List.append_of_mem (Module.mem_code hg hline)
  refine ⟨⟨v, hinst⟩, ⟨before, after, hsplit, ?_⟩, ?_⟩
  · rintro ⟨id, line'⟩ hx w b hstore hderives
    have hmem : (id, line') ∈ m.code := by
      rw [hsplit]
      simp only [List.mem_append, List.mem_cons] at hx ⊢
      tauto
    obtain ⟨g', hg', rfl, hline'⟩ := Module.exists_of_mem_code hmem
    obtain ⟨E, k, h, ha, hfirst⟩ := hall g' hg'
    obtain ⟨rfl, hkept⟩ := h.store_cases hids ha hderives hline' hstore
    obtain ⟨rfl, hreg⟩ := hfirst _ hkept
    obtain rfl := h.numbered.line_eq hline' hline hreg
    rw [hsplit] at hnodup
    exact (List.nodup_middle.1 hnodup).notMem hx
  · rintro ⟨id, line'⟩ hx func result args hcall b hb
    obtain ⟨g', hg', rfl, hline'⟩ := Module.exists_of_mem_code hx
    obtain ⟨E, k, h, ha, -⟩ := hall g' hg'
    exact h.not_passed hids ha htype hline' hcall hb

/-! ## Programs -/

theorem signatures_sound_module {p : Program} {o : Options} {out : Outcome} {c : Context}
    {gs : List Func} {values : Option Func} (h : Lowered o p out c gs values)
    (hfree : NamesFree (funcDecls p)) :
    SignaturesSound out.module.outside (signatures (funcDecls p)) := by
  intro name sig hsig
  have hsound : SignaturesSound (outsideOf (funcDecls p) [] false) (signatures (funcDecls p)) :=
    signatures_sound hfree
  have hsound := hsound name sig hsig
  simp only [outsideOf] at hsound
  split at hsound
  · cases hsound
  · rw [← BodyOf.find? h.bodies] at hsound
    obtain ⟨g, hg, heq⟩ := Option.map_eq_some_iff.1 hsound
    simp [Module.outside, Module.func?, h.funcs, List.find?_append, hg, heq]

/-- The local variables of a function whose declarations are lowered, in the order of the source. -/
structure Locals (Γ : Signatures) (f : FuncDecl) (g : Func) (ls : List Local) : Prop where
  /-- they are those that the statements declare -/
  decls : ls.map Local.decl = Stmt.allDeclared f.body
  /-- each declaration is lowered -/
  lowered : ∀ l ∈ ls, l.Lowered Γ g.id
  /-- to room of its own -/
  written : ∀ l ∈ ls, l.slot.line ∈ g.code
  /-- in this order -/
  ordered : ls.Pairwise fun l l' => l.reg < l'.reg
  /-- behind the room for parameters, and there is no other -/
  rooms : ∀ line ∈ g.code, line.inst.isAlloca = true →
    (∃ l ∈ ls, line = l.slot.line) ∨ ∀ l ∈ ls, line.reg < l.reg

/-- They have been declared, and the code keeps to their room and to that of parameters. -/
theorem Declared.locals {E : Setting} {D : Demand E} {f : FuncDecl} {g : Func} {ls : List Local}
    {n : Nat} {slots : List Slot} (h : Declared E n ls (Stmt.allDeclared f.body) g)
    (hid : g.id = E.id)
    (hline : ∀ line ∈ g.code, LineTraced D (Ledger.with { slots } E.id ls) g line)
    (hslots : ∀ s ∈ slots, s.reg < n) : Locals E.sigs f g ls where
  decls := h.decls
  lowered := hid ▸ h.lowered
  written := fun l hl => (h.written l hl).1
  ordered := h.ordered
  rooms := fun line hmem hroom => by
    have htraced := hline line hmem
    rcases line with ⟨reg, name, inst⟩
    cases inst with
    | alloca t =>
      obtain ⟨s, hs, heq⟩ := htraced
      rcases List.mem_append.1 hs with hs | hs
      · refine .inr fun l hl => Nat.lt_of_lt_of_le ?_ (h.since l hl)
        rw [heq]
        exact hslots s hs
      · obtain ⟨l, hl, rfl⟩ := List.mem_map.1 hs
        exact .inl ⟨l, hl, heq⟩
    | _ => cases hroom

/-- The code of the body of a function keeps to the rooms of its variables. -/
structure BodyHoused (p : Program) (m : Module) (f : FuncDecl) (ls : List Local) (n : Nat)
    (slots : List Slot) (g : Func) : Prop where
  /-- which are room for parameters, and that of the variables that are declared -/
  housed : Housed m (.ofFunc (signatures (funcDecls p)) (FirstGlobal (globalVars p)) f)
    (Ledger.with { slots } ⟨f.name.text, 0⟩ ls) g
  /-- these are declared by its statements -/
  declared : Declared (.ofFunc (signatures (funcDecls p)) (FirstGlobal (globalVars p)) f) n ls
    (Stmt.allDeclared f.body) g
  /-- behind the parameters -/
  slots : ∀ s ∈ slots, s.reg < n

/-- The functions of a module keep to the rooms of their variables. -/
structure ModuleHoused (p : Program) (m : Module) (ss : List Stage) : Prop where
  /-- their names tell them apart -/
  ids : (m.funcs.map Func.id).Nodup
  /-- every function of the program is there -/
  body : ∀ f ∈ funcDecls p, ∃ g ∈ m.funcs, ∃ ls n slots, BodyHoused p m f ls n slots g
  /-- and the one that computes the values of global variables, if it has stages -/
  init : ss ≠ [] → ∃ g ∈ m.funcs, g.id = ⟨initName, 0⟩ ∧ ∀ s ∈ ss, s.store ∈ g.code
  /-- there are no others -/
  cases : ∀ g ∈ m.funcs, (∃ f ∈ funcDecls p, ∃ ls n slots, BodyHoused p m f ls n slots g) ∨
    Housed m (.ofInit (signatures (funcDecls p)) (FirstGlobal (globalVars p))) (.ofStages ss) g

theorem exists_bodyHoused {p : Program} {o : Options} {out : Outcome} {c : Context}
    {gs : List Func} {values : Option Func} (h : Lowered o p out c gs values)
    (hfree : NamesFree (funcDecls p)) {σ : Scopes DataType Value} {hasInit : Bool} {f : FuncDecl}
    {g : Func} {bound : List (Name × DataType)}
    (hscopes : σ.All (NamesGlobal (FirstGlobal (globalVars p)))) (hg : g ∈ out.module.funcs)
    (hrun : lowerBody o ⟨signatures (funcDecls p), σ, hasInit⟩ f = .ok (.ok (), g, bound)) :
    ∃ ls n slots, BodyHoused p out.module f ls n slots g := by
  obtain ⟨n, slots, ls, d, rfl, htraced, hdeclared, hspilled, hslots⟩ := exists_declared
    (fitness_nothing (.ofFunc (signatures (funcDecls p)) (FirstGlobal (globalVars p)) f)) hscopes
    (fun _ _ => permitted_nothing) hrun trivial
  have hfinished := h.finished trivial d.func hg
  refine ⟨ls, n, slots, ⟨hg, htraced.id, htraced.line, fun s hs => ?_, fun x hx => ?_,
    hfinished.dominated.numbered, hfinished.wellTyped, signatures_sound_module h hfree⟩, hdeclared,
    hslots⟩
  · rcases List.mem_append.1 hs with hs | hs
    · exact hspilled.written s hs
    · obtain ⟨l, hl, rfl⟩ := List.mem_map.1 hs
      exact (hdeclared.written l hl).1
  · obtain ⟨l, hl, rfl⟩ := List.mem_map.1 (by simpa [Ledger.with] using hx)
    exact .inl ⟨l.slot, List.mem_append_right _ (List.mem_map_of_mem hl), rfl⟩

/-! ## Constants -/

section

variable {p : Program} {m : Module} {ss : List Stage} {f : FuncDecl} {ls : List Local} {n : Nat}
  {slots : List Slot} {g : Func}

theorem BodyHoused.locals (h : BodyHoused p m f ls n slots g) :
    Locals (signatures (funcDecls p)) f g ls :=
  h.declared.locals h.housed.id h.housed.line h.slots

/-- A constant of a function is written once. -/
theorem BodyHoused.writtenOnce (h : BodyHoused p m f ls n slots g) (hm : ModuleHoused p m ss)
    {l : Local} (hl : l ∈ ls) (hconst : l.decl.isConst = true) :
    WrittenOnce m (l.addr g.id) g.id (l.store g.id) := by
  have hid : g.id = ⟨f.name.text, 0⟩ := h.housed.id
  refine Lowering.writtenOnce hm.ids (fun g' hg' => ?_) h.housed.mem
    (hid ▸ (h.declared.written l hl).2) rfl fun t => ofData_ne_pointer.symm
  by_cases hsame : g'.id = g.id
  · obtain rfl := List.inj_on_of_nodup_map hm.ids hg' h.housed.mem hsame
    obtain ⟨hroom, hfirst⟩ := h.housed.ofLocal h.declared h.slots hl hconst
    rw [h.housed.id]
    exact ⟨_, _, h.housed, hroom, fun n hn => ⟨rfl, hfirst n hn⟩⟩
  · have hforeign : ∃ E k, Housed m E k g' := by
      rcases hm.cases g' hg' with ⟨_, -, _, _, _, h'⟩ | h'
      · exact ⟨_, _, h'.housed⟩
      · exact ⟨_, _, h'⟩
    obtain ⟨E, k, h'⟩ := hforeign
    obtain ⟨hroom, hfirst⟩ := h'.foreign fun heq => hsame heq.symm
    exact ⟨E, k, h', hroom, fun n hn => absurd hn (hfirst n)⟩

/-- A global constant is written once. -/
theorem StagesTraced.writtenOnce {D : Demand (.ofInit (signatures (funcDecls p))
      (FirstGlobal (globalVars p)))} {o : Options} {globals : Globals}
    (h : StagesTraced D o ss (globalVars p) globals) (hm : ModuleHoused p m ss) {s : Stage}
    (hs : s ∈ ss) (hconst : s.var.var.isConst = true) :
    WrittenOnce m s.addr ⟨initName, 0⟩ s.store := by
  obtain ⟨g, hg, hid, hstores⟩ := hm.init (List.ne_nil_of_mem hs)
  have hroom : ∀ {E k f}, E.globals = FirstGlobal (globalVars p) → ∀ c t,
      Room E k f c t s.addr → c = true := by
    intro E k f hE c t hroom
    generalize hv : s.addr = v at hroom
    cases hroom with
    | global hglobal =>
      obtain ⟨rfl, -⟩ := Value.global.inj hv
      rw [hE] at hglobal
      exact ((h.firsts s hs).unique hglobal).2.symm.trans hconst
    | _ => cases hv
  refine hid ▸ Lowering.writtenOnce hm.ids (fun g' hg' => ?_) hg (hstores s hs) rfl fun t =>
    ofData_ne_pointer.symm
  rcases hm.cases g' hg' with ⟨_, -, _, _, _, h'⟩ | h'
  · refine ⟨_, _, h'.housed, hroom rfl, fun n hn => ?_⟩
    simp only [Ledger.with, List.nil_append] at hn
    obtain ⟨l, -, heq⟩ := List.mem_map.1 hn
    cases (Prod.mk.inj heq).2
  · refine ⟨_, _, h', hroom rfl, fun n hn => ?_⟩
    obtain ⟨s', hs', heq⟩ := List.mem_map.1 hn
    obtain ⟨rfl, haddr⟩ := Prod.mk.inj heq
    have hname : s'.var.var.name.text = s.var.var.name.text :=
      congrArg GlobalId.name (Value.global.inj haddr).1
    obtain rfl := List.inj_on_of_nodup_map h.names hs' hs hname
    exact ⟨List.inj_on_of_nodup_map hm.ids hg' hg (h'.id.trans hid.symm), rfl⟩

end

/-- A constant that does not fail has a value. -/
theorem isComputed_of_isConst {v : GlobalVar} (hbad : badGlobal? v = none)
    (hconst : v.var.isConst = true) : isComputed v = true := by
  rcases hinit : v.var.init with _ | x
  · simp only [badGlobal?, hinit, hconst, if_true] at hbad
    split at hbad <;> cases hbad
  · simp [isComputed, hinit]

theorem badGlobal?_of_add {Γ : Signatures} {o : Options} {v : GlobalVar} {g g' : Globals}
    (h : g.add Γ o v = .ok (.ok (), g')) : badGlobal? v = none := by
  generalize hr : (Except.ok () : Except Failure Unit) = r at h
  cases adds_of_add h with
  | bad => cases hr
  | repeated hbad => exact hbad
  | plain hbad => exact hbad
  | failed => cases hr
  | valued hbad => exact hbad

section

variable {s : Source} {p : Program} {o : Options} {out : Outcome}
  (hparse : s.parse.program = some p) (hlower : lower o p = .ok out) (hok : out.problems = [])
include hparse hlower hok

/-- The functions of an accepted program keep to the rooms of their variables. -/
theorem exists_moduleHoused : ∃ ss g, StagesTraced
      (.nothing (.ofInit (signatures (funcDecls p)) (FirstGlobal (globalVars p)))) o ss
      (globalVars p) g ∧ ModuleHoused p out.module ss := by
  obtain ⟨r⟩ := exists_rounds hlower
  have hfree := namesFree_of_parse hparse
  obtain ⟨c, gs', values, hlowered⟩ := exists_lowered hparse hlower hok
  obtain ⟨ss, hss⟩ := StagesTraced.addGlobals
    (fitness_nothing (.ofInit (signatures (funcDecls p)) (FirstGlobal (globalVars p))))
    (r.added_eq hok)
  obtain ⟨hscopes, hsome, hinit⟩ := hss.finish
    ⟨fun _ _ _ h => h, fun _ _ _ _ => permitted_nothing⟩ trivial (r.ended_eq hok hparse)
  -- every function is that of a declaration, or the one that computes the globals
  refine ⟨ss, _, hss, ?_, fun f hf => ?_, fun hne => ?_, fun g hg => ?_⟩
  · refine .of_map FuncId.name ?_
    rw [List.map_map]
    exact (hlowered.names_funcs hfree).1
  · obtain ⟨g, hg, bound, hrun⟩ := r.exists_func hok hf
    rw [r.context_declared hok] at hrun
    exact ⟨g, hg, exists_bodyHoused hlowered hfree hscopes hg hrun⟩
  · obtain ⟨d, hd⟩ := Option.isSome_iff_exists.1 (hsome hne)
    obtain ⟨htraced, hstores⟩ := hinit d hd
    exact ⟨d.func, r.init_mem hok hd, htraced.id, hstores⟩
  · obtain ⟨f, hf, -, bound, hrun, -⟩ | ⟨d, hd, rfl⟩ := r.func_cases hok hparse hg
    · rw [r.context_declared hok] at hrun
      exact .inl ⟨f, hf, exists_bodyHoused hlowered hfree hscopes hg hrun⟩
    · have hfinished := hlowered.finished trivial d.func hg
      obtain ⟨htraced, -⟩ := hinit d hd
      refine .inr ⟨hg, htraced.id, htraced.line, List.forall_mem_nil _, fun x hx => .inr ?_,
        hfinished.dominated.numbered, hfinished.wellTyped, signatures_sound_module hlowered hfree⟩
      obtain ⟨s, -, rfl⟩ := List.mem_map.1 hx
      exact ⟨_, _, rfl⟩

/-- Every constant of an accepted program is written once, by the store of its first value behind
its declaration, and no function is handed its address. -/
theorem writes_constants_once :
    (∀ f ∈ funcDecls p, ∃ g ∈ out.module.funcs, g.id = ⟨f.name.text, 0⟩ ∧ ∃ ls,
      Locals (signatures (funcDecls p)) f g ls ∧ ∀ l ∈ ls, l.decl.isConst = true →
        WrittenOnce out.module (l.addr g.id) g.id (l.store g.id)) ∧
    ∀ v ∈ globalVars p, v.var.isConst = true → ∃ s : Stage, s.var = v ∧
      s.Lowered (signatures (funcDecls p)) ∧
        WrittenOnce out.module s.addr ⟨initName, 0⟩ s.store := by
  obtain ⟨ss, globals, hss, hm⟩ := exists_moduleHoused hparse hlower hok
  refine ⟨fun f hf => ?_, fun v hv hconst => ?_⟩
  · obtain ⟨g, hg, ls, n, slots, h⟩ := hm.body f hf
    exact ⟨g, hg, h.housed.id, ls, h.locals, fun l hl hconst => h.writtenOnce hm hl hconst⟩
  · obtain ⟨r⟩ := exists_rounds hlower
    have hgood : ∀ v ∈ globalVars p, badGlobal? v = none :=
      addGlobals_induction_ok (P := fun done _ => ∀ v ∈ done, badGlobal? v = none)
        (fun done v g g' hdone hadd => List.forall_mem_append.2
          ⟨hdone, List.forall_mem_singleton.2 (badGlobal?_of_add hadd)⟩)
        (List.forall_mem_nil _) (r.added_eq hok)
    have hstage : v ∈ ss.map Stage.var := by
      rw [hss.vars]
      exact List.mem_filter.2 ⟨hv, isComputed_of_isConst (hgood v hv) hconst⟩
    obtain ⟨s, hs, rfl⟩ := List.mem_map.1 hstage
    exact ⟨s, rfl, hss.lowered s hs, hss.writtenOnce hm hs hconst⟩

end

/-- A program with a constant matrix, of which a column is read, and a global constant. -/
def fixedMatrix : Source where
  bytes := "const float a = 2.; void main() { const mat2 m = mat2(a); vec2 v = m[1] * a; }"
    |>.toUTF8.toList

theorem writes_constants_once_fixedMatrix : ∃ p out, fixedMatrix.parse.program = some p ∧
    lower {} p = .ok out ∧
    (∃ g ∈ out.module.funcs, ∃ l : Local, l.decl.isConst = true ∧
      WrittenOnce out.module (l.addr g.id) g.id (l.store g.id)) ∧
    ∃ s : Stage, s.var.var.isConst = true ∧
      WrittenOnce out.module s.addr ⟨initName, 0⟩ s.store := by
  have hreports : fixedMatrix.scan.reports = [] := scan_reports_eq_nil (by decide +kernel)
  obtain ⟨p, out, hparse, hlower, hok, htest⟩ := exists_accepted
    (t := fun p _ => ((funcDecls p).any fun f => (Stmt.allDeclared f.body).any VarDecl.isConst) &&
      (globalVars p).any fun v => v.var.isConst) hreports (by decide +kernel)
  obtain ⟨hlocal, hglobal⟩ := Bool.and_eq_true_iff.1 htest
  obtain ⟨hlocals, hglobals⟩ := writes_constants_once hparse hlower hok
  obtain ⟨f, hf, hdecl⟩ := List.any_eq_true.1 hlocal
  obtain ⟨d, hd, hconst⟩ := List.any_eq_true.1 hdecl
  obtain ⟨g, hg, -, ls, hls, honce⟩ := hlocals f hf
  obtain ⟨l, hl, rfl⟩ := List.mem_map.1 (hls.decls ▸ hd)
  obtain ⟨v, hv, hconst'⟩ := List.any_eq_true.1 hglobal
  obtain ⟨s, rfl, -, honce'⟩ := hglobals v hv hconst'
  exact ⟨p, out, hparse, hlower, ⟨g, hg, l, hconst, honce l hl hconst⟩, s, hconst', honce'⟩

end Shader.Lowering
