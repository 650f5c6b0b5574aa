import Shader.Proofs.Execution.Arithmetic
import Shader.Proofs.Execution.Positions
import Shader.Proofs.Rooms.Booleans

/-!
# Truth values in execution

Wherever a value that is made of truth values is computed, it is zero or one in every component, and
every variable of a type of truth values holds such a value. The types of the variables in memory
are remembered along an execution, since a cell does not tell its own. What one step keeps is shown
of what the functions on their way have computed (`Reliable`), of memory (`Memory.Keeps`), and of
the calls that have not returned (`Steady`).
-/

namespace Shader.Ir

section

variable {R : Type} {N : Arithmetic R}

/-! ## Data -/

/-- A number is zero or one. -/
def Number.IsTruth (x : Number R) : Prop := x = .word 0 ∨ x = .word 1

/-- A value is a number or a vector, and zero or one in every component. -/
def Datum.IsTruth : Datum R → Prop
  | .number x => x.IsTruth
  | .vector xs => ∀ x ∈ xs, x.IsTruth
  | _ => False

theorem Number.isTruth_wordOf (b : Bool) : (word (wordOf b) : Number R).IsTruth := by
  cases b
  · exact .inl rfl
  · exact .inr rfl

namespace Datum

variable {w s w' : Datum R} {i : Nat}

theorem IsTruth.lane? (h : w.IsTruth) (hw : w.lane? i = some w') : w'.IsTruth := by
  cases w with
  | vector xs =>
    obtain ⟨x, hx, rfl⟩ := Option.map_eq_some_iff.1 hw
    exact h x (List.mem_of_getElem? hx)
  | _ => cases hw

/-- A component of a vector is replaced by a number. -/
theorem setLane?_cases (hw : w.setLane? s i = some w') : ∃ xs x, w = .vector xs ∧ s = .number x ∧
    i < xs.length ∧ w' = .vector (xs.set i x) := by
  cases w with
  | vector xs =>
    cases s with
    | number x =>
      simp only [Datum.setLane?] at hw
      split at hw
      next hi => exact ⟨xs, x, rfl, rfl, hi, (Option.some.inj hw).symm⟩
      next => cases hw
    | _ => cases hw
  | _ => cases hw

theorem IsTruth.setLane? (h : w.IsTruth) (hs : s.IsTruth) (hw : w.setLane? s i = some w') :
    w'.IsTruth := by
  obtain ⟨xs, x, rfl, rfl, -, rfl⟩ := setLane?_cases hw
  intro y hy
  rcases List.mem_or_eq_of_mem_set hy with hold | rfl
  · exact h y hold
  · exact hs

/-- Bits become truth values. -/
theorem isTruth_of_zext {p : Precision} (hw : w.map? (CastOp.zext.apply N p) = some w') :
    w'.IsTruth := by
  have hnumber : ∀ x y : Number R, CastOp.zext.apply N p x = some y → y.IsTruth := by
    intro x y hxy
    cases x with
    | bit b =>
      obtain rfl := Option.some.inj hxy
      exact Number.isTruth_wordOf b
    | word => cases hxy
    | real q => cases q <;> cases hxy
    | undefined => cases hxy
  cases w with
  | number x =>
    obtain ⟨y, hy, rfl⟩ := Option.map_eq_some_iff.1 hw
    exact hnumber x y hy
  | vector xs =>
    obtain ⟨ys, hys, rfl⟩ := Option.map_eq_some_iff.1 hw
    intro y hy
    obtain ⟨j, hj, rfl⟩ := List.mem_iff_getElem.1 hy
    have hall := Lowering.forall₂_of_mapM hys
    exact hnumber _ _ (hall.get (hall.length_eq ▸ hj) hj)
  | _ => cases hw

end Datum

/-! ## Variables in memory -/

/-- The type of a variable in memory: global variables have been declared, and the types of cells
are listed. -/
def Place.Holds (G : GlobalId → DataType → Bool → Prop) (cells : List DataType) :
    Place → DataType → Prop
  | .global id, t => ∃ c, G id t c
  | .cell i, t => cells[i]? = some t

/-- The type of what is at an address. -/
inductive Address.Holds (G : GlobalId → DataType → Bool → Prop) (cells : List DataType) :
    DataType → Address → Prop
  /-- a variable -/
  | whole {p : Place} {t : DataType} (h : p.Holds G cells t) : Holds G cells t ⟨p, none⟩
  /-- a column of a matrix -/
  | column {p : Place} {n : Dim} {j : Nat} (h : p.Holds G cells (.matrix n)) :
    Holds G cells (.vector .float n) ⟨p, some j⟩

/-- The variables of types of truth values hold truth values, if they hold something. -/
structure Memory.Keeps (G : GlobalId → DataType → Bool → Prop) (cells : List DataType)
    (m : Memory R) : Prop where
  /-- the types of all cells are known -/
  size : m.cells = cells.length
  /-- what a variable holds -/
  content : ∀ {p t w}, p.Holds G cells t → t.isBoolean = true → m.content p = some w → w.IsTruth

section

variable {G : GlobalId → DataType → Bool → Prop} {cells cells' : List DataType} {t t' : DataType}
  {m m' : Memory R} {a : Address} {w : Datum R}

theorem Place.Holds.mono {p : Place} (h : p.Holds G cells t) (hcells : cells <+: cells') :
    p.Holds G cells' t := by
  cases p with
  | global id => exact h
  | cell i =>
    obtain ⟨more, rfl⟩ := hcells
    rwa [Place.Holds, List.getElem?_append_left (List.getElem?_eq_some_iff.1 h).1]

theorem Address.Holds.mono (h : a.Holds G cells t) (hcells : cells <+: cells') :
    a.Holds G cells' t := by
  cases h with
  | whole h => exact .whole (h.mono hcells)
  | column h => exact .column (h.mono hcells)

namespace Memory.Keeps

/-- What is read from a variable of a type of truth values. -/
theorem read (h : m.Keeps G cells) (ha : a.Holds G cells t) (ht : t.isBoolean = true)
    (hw : m.read a = some w) : w.IsTruth := by
  cases ha with
  | whole hp => exact h.content hp ht hw
  | column => cases ht

/-- Truth values are kept in variables of their types. -/
theorem write (hG : ∀ {id t c t' c'}, G id t c → G id t' c' → t = t') (h : m.Keeps G cells)
    (ha : a.Holds G cells t) (ht : t.isBoolean = true → w.IsTruth) (hm : m.write a w = some m') :
    m'.Keeps G cells := by
  have hunique : ∀ {p : Place} {t t' : DataType}, p.Holds G cells t → p.Holds G cells t' →
      t = t' := by
    rintro (id | i) t t' h h'
    · exact hG h.choose_spec h'.choose_spec
    · exact Option.some.inj (h.symm.trans h')
  cases ha with
  | @whole q _ hq =>
    obtain rfl := Option.some.inj hm
    refine ⟨h.size, fun {p t' w'} hp ht' hw' => ?_⟩
    by_cases hpq : p = q
    · subst hpq
      obtain rfl := hunique hp hq
      obtain rfl : w = w' := by simpa [Memory.put] using hw'
      exact ht ht'
    · refine h.content hp ht' ?_
      simpa [Memory.put, Function.update_of_ne hpq] using hw'
  | @column q n j hq =>
    obtain ⟨old, -, hm⟩ := Option.bind_eq_some_iff.1 hm
    obtain ⟨new, -, rfl⟩ := Option.map_eq_some_iff.1 hm
    refine ⟨h.size, fun {p t' w'} hp ht' hw' => ?_⟩
    by_cases hpq : p = q
    · subst hpq
      obtain rfl := hunique hp hq
      cases ht'
    · refine h.content hp ht' ?_
      simpa [Memory.put, Function.update_of_ne hpq] using hw'

/-- Room for another variable holds nothing. -/
theorem reserve (h : m.Keeps G cells) (t : DataType) : m.reserve.Keeps G (cells ++ [t]) := by
  refine ⟨by simp [Memory.reserve, h.size], fun {p t' w} hp ht' hw => ?_⟩
  by_cases hnew : p = .cell m.cells
  · subst hnew
    simp [Memory.reserve] at hw
  · rw [Memory.reserve] at hw
    dsimp only at hw
    rw [Function.update_of_ne hnew] at hw
    refine h.content ?_ ht' hw
    cases p with
    | global id => exact hp
    | cell i =>
      have hi : i < cells.length := by
        have hlt := (List.getElem?_eq_some_iff.1 hp).1
        have hne : i ≠ cells.length := fun heq => hnew (by rw [heq, h.size])
        rw [List.length_append, List.length_singleton] at hlt
        omega
      rwa [Place.Holds, List.getElem?_append_left hi] at hp

end Memory.Keeps

end

end

end Shader.Ir

namespace Shader.Lowering

open Ir

variable {R : Type} {N : Arithmetic R}

/-! ## Results of a function -/

/-- What is known of a value. -/
def Extent.Holds : Extent → Datum R → Prop
  | .all, w => w.IsTruth
  | .first i n, w => ∃ xs, w = .vector xs ∧ xs.length = n.size ∧ ∀ x ∈ xs.take i, x.IsTruth

theorem Extent.Holds.full {n : Dim} {w : Datum R} (h : (Extent.first n.size n).Holds w) :
    w.IsTruth := by
  obtain ⟨xs, rfl, hlength, hxs⟩ := h
  rwa [← hlength, List.take_length] at hxs

theorem Extent.Holds.next {i : Nat} {n : Dim} {w s w' : Datum R} (h : (Extent.first i n).Holds w)
    (hs : s.IsTruth) (hw : w.setLane? s i = some w') : (Extent.first (i + 1) n).Holds w' := by
  obtain ⟨_, rfl, hlength, hxs⟩ := h
  obtain ⟨xs, x, hvec, rfl, hi, rfl⟩ := Datum.setLane?_cases hw
  cases hvec
  refine ⟨_, rfl, by simpa using hlength, fun y hy => ?_⟩
  rw [List.take_add_one, List.take_set_of_le (Nat.le_refl i)] at hy
  rcases List.mem_append.1 hy with hold | hnew
  · exact hxs y hold
  · obtain rfl : y = x := by simpa [hi] using hnew
    exact hs

/-- The zero of a type of truth values. -/
theorem isTruth_zeroOf {t : DataType} {w : Datum R} (ht : t.isBoolean = true)
    (hw : (Const.zeroOf t).datum N = some w) : w.IsTruth := by
  obtain rfl | ⟨n, rfl⟩ := boolean_cases ht
  · obtain rfl := Option.some.inj hw
    exact .inl rfl
  · obtain rfl := Option.some.inj hw
    exact fun x hx => .inl (List.eq_of_mem_replicate hx)

/-- What a function may be given for a parameter: the address of a variable of its type, if the
function writes to it, and otherwise a truth value, if it is of a type of these. -/
def Suits (G : GlobalId → DataType → Bool → Prop) (cells : List DataType) (p : Param)
    (w : Datum R) : Prop :=
  if p.storage = .output then ∃ a, w = .address a ∧ a.Holds G cells p.type
  else p.type.isBoolean = true → w.IsTruth

/-- What a function may be given. -/
def Suited (G : GlobalId → DataType → Bool → Prop) (cells : List DataType) (ps : List Param)
    (args : List (Datum R)) : Prop :=
  ∀ (i : Nat) p w, ps[i]? = some p → args[i]? = some w → Suits G cells p w

/-- A function that keeps to the rooms of its variables and to truth values. -/
structure Kept (E : Setting) (k : Ledger) (g : Func) : Prop where
  /-- its instructions keep to the rooms -/
  line : ∀ line ∈ g.code, LineTraced (.truths E) k g line
  /-- what is returned is as it is asked for -/
  term : ∀ v, .ret (some v) ∈ g.terms → (Demand.truths E).fit k g E.result v
  /-- rooms have different numbers -/
  rooms : (k.slots.map Slot.reg).Nodup
  /-- and are reserved -/
  reserved : ∀ s ∈ k.slots, s.line ∈ g.code
  /-- numbers tell instructions apart -/
  numbered : g.Numbered
  /-- no block has been taken out -/
  detached : g.detached = []

/-- The values that a function has computed are truth values where they have to be, and addresses
are those of variables. -/
structure Reliable (N : Arithmetic R) (E : Setting) (k : Ledger) (g : Func) (cells : List DataType)
    (args : List (Datum R)) (regs : Results R) : Prop where
  /-- truth values -/
  truth : ∀ {e v w}, Truth E k g e v → v.datum N args regs = some w → e.Holds w
  /-- addresses -/
  room : ∀ {c t v w}, Room E k g c t v → v.datum N args regs = some w →
    ∃ a, w = .address a ∧ a.Holds E.globals cells t

namespace Reliable

variable {E : Setting} {k : Ledger} {g : Func} {cells cells' : List DataType}
  {args : List (Datum R)} {regs : Results R} {line : Line} {v : View R} {w : Datum R}

theorem mono (h : Reliable N E k g cells args regs) (hcells : cells <+: cells') :
    Reliable N E k g cells' args regs where
  truth := h.truth
  room hroom hw :=
    have ⟨a, heq, ha⟩ := h.room hroom hw
    ⟨a, heq, ha.mono hcells⟩

/-- At the start of a function there are the arguments alone. -/
theorem start (hargs : Suited E.globals cells E.params args) :
    Reliable N E k g cells args fun _ => none where
  truth {e v w} hv hw := by
    induction hv with
    | zero ht => exact isTruth_zeroOf ht hw
    | bool c =>
      obtain rfl := Option.some.inj hw
      cases c
      · exact .inl rfl
      · exact .inr rfl
    | undef n =>
      obtain rfl := Option.some.inj hw
      exact ⟨_, rfl, List.length_replicate, nofun⟩
    | param hp hin ht =>
      have hsuits := hargs _ _ _ hp hw
      rw [Suits, if_neg hin] at hsuits
      exact hsuits ht
    | result => cases hw
    | full _ ih => exact (ih hw).full
  room {c t v w} hroom hw := by
    cases hroom with
    | slot => cases hw
    | param hp hout =>
      have hsuits := hargs _ _ _ hp hw
      rwa [Suits, if_pos hout] at hsuits
    | global hg =>
      obtain rfl := Option.some.inj hw
      exact ⟨_, rfl, .whole ⟨c, hg⟩⟩
    | column => cases hw

/-- The result of another instruction. -/
theorem keep (h : Reliable N E k g cells args regs) (hg : Kept E k g) (hline : line ∈ g.code)
    (htruth : ∀ {e operands}, Needs E k g e line.inst operands →
      (∀ x ∈ operands, Truth E k g x.1 x.2) → e.Holds w)
    (hroom : ∀ {c t id name τ}, Room E k g c t (.result id line.reg name τ) →
      ∃ a, w = .address a ∧ a.Holds E.globals cells t) :
    Reliable N E k g cells args (Function.update regs line.reg (some w)) where
  truth {e x w'} hx hw' := by
    cases x with
    | result id r name τ =>
      by_cases hr : r = line.reg
      · subst hr
        obtain rfl : w = w' := by simpa [Value.datum] using hw'
        obtain ⟨e', operands, hneeds, hoperands, rfl | ⟨rfl, n, rfl⟩⟩ :=
          hx.exists_needs hg.numbered hline
        · exact htruth hneeds hoperands
        · exact (htruth hneeds hoperands).full
      · exact h.truth hx (by simpa [Value.datum, Function.update_of_ne hr] using hw')
    | _ => exact h.truth hx hw'
  room {c t x w'} hx hw' := by
    cases x with
    | result id r name τ =>
      by_cases hr : r = line.reg
      · subst hr
        obtain rfl : w = w' := by simpa [Value.datum] using hw'
        exact hroom hx
      · exact h.room hx (by simpa [Value.datum, Function.update_of_ne hr] using hw')
    | _ => exact h.room hx hw'

end Reliable

/-! ## Instructions -/

/-- What an instruction can see is reliable. -/
structure Sees (N : Arithmetic R) (E : Setting) (k : Ledger) (g : Func) (cells : List DataType)
    (v : View R) : Prop where
  /-- the results so far -/
  now : Reliable N E k g cells v.args v.regs
  /-- the results at the end of the block that control came from -/
  came : ∀ {l regs}, v.came = some (l, regs) → Reliable N E k g cells v.args regs
  /-- and memory -/
  memory : v.memory.Keeps E.globals cells

section

variable {E : Setting} {k : Ledger} {g : Func} {cells : List DataType} {v : View R} {w : Datum R}
  {inst : Inst} {line : Line} {e : Extent} {operands : List (Extent × Value)}

/-- Instructions yield truth values, if their operands are. -/
theorem Sees.needs (h : Sees N E k g cells v) (hneeds : Needs E k g e inst operands)
    (hoperands : ∀ x ∈ operands, Truth E k g x.1 x.2) (hw : inst.computed N v = some w) :
    e.Holds w := by
  cases hneeds with
  | call => cases hw
  | load hroom ht =>
    obtain ⟨a, haddr, hw⟩ := Option.bind_eq_some_iff.1 hw
    obtain ⟨_, hx, haddr⟩ := Option.bind_eq_some_iff.1 haddr
    obtain ⟨a', rfl, ha⟩ := h.now.room hroom hx
    obtain rfl := Option.some.inj haddr
    exact h.memory.read ha ht hw
  | bits =>
    obtain ⟨x, -, hw⟩ := Option.bind_eq_some_iff.1 hw
    exact Datum.isTruth_of_zext hw
  | lane =>
    obtain ⟨x, hx, hw⟩ := Option.bind_eq_some_iff.1 hw
    obtain ⟨i, -, hw⟩ := Option.bind_eq_some_iff.1 hw
    exact (h.now.truth (hoperands _ List.mem_cons_self) hx : x.IsTruth).lane? hw
  | setLane =>
    obtain ⟨x, hx, hw⟩ := Option.bind_eq_some_iff.1 hw
    obtain ⟨s, hs, hw⟩ := Option.bind_eq_some_iff.1 hw
    obtain ⟨i, -, hw⟩ := Option.bind_eq_some_iff.1 hw
    have hx : x.IsTruth := h.now.truth (hoperands _ List.mem_cons_self) hx
    exact hx.setLane? (h.now.truth (hoperands _ (.tail _ List.mem_cons_self)) hs) hw
  | @phi type incoming =>
    obtain ⟨⟨l, regs⟩, hcame, hw⟩ := Option.bind_eq_some_iff.1 hw
    obtain ⟨i, hi, hw⟩ := Option.bind_eq_some_iff.1 hw
    have hmem : (Extent.all, i.1) ∈ incoming.map fun i => (Extent.all, i.1) :=
      List.mem_map_of_mem (List.mem_of_find?_eq_some hi)
    exact (h.came hcame).truth (hoperands _ hmem) hw
  | next hi =>
    obtain ⟨x, hx, hw⟩ := Option.bind_eq_some_iff.1 hw
    obtain ⟨s, hs, hw⟩ := Option.bind_eq_some_iff.1 hw
    obtain ⟨j, hj, hw⟩ := Option.bind_eq_some_iff.1 hw
    rw [Pieces.index_lane hi] at hj
    obtain rfl := Option.some.inj hj
    have hx := h.now.truth (hoperands _ List.mem_cons_self) hx
    exact hx.next (h.now.truth (hoperands _ (.tail _ List.mem_cons_self)) hs) hw

/-- The room of a result is reserved by its instruction, or it is a column. -/
theorem Kept.room_cases (hg : Kept E k g) (hline : line ∈ g.code) {c : Bool} {t : DataType}
    {id : FuncId} {name : String} {τ : Ty} (h : Room E k g c t (.result id line.reg name τ)) :
    (∃ s ∈ k.slots, s.line = line ∧ s.type = t) ∨ ∃ n a idx, t = .vector .float n ∧
      Room E k g c (.matrix n) a ∧ line.inst = .elementAddr (Ty.ofData (.matrix n)) a idx := by
  generalize hv : Value.result id line.reg name τ = v at h
  cases h with
  | slot hs =>
    obtain ⟨-, hreg, -, -⟩ := Value.result.inj hv
    exact .inl ⟨_, hs, hg.numbered.line_eq (hg.reserved _ hs) hline hreg.symm, rfl⟩
  | param => cases hv
  | global => cases hv
  | column base hline' hinst =>
    obtain ⟨-, hreg, -, -⟩ := Value.result.inj hv
    obtain rfl := hg.numbered.line_eq hline hline' hreg
    exact .inr ⟨_, _, _, rfl, base, hinst⟩

/-- Columns of variables have addresses. -/
theorem Sees.room (h : Sees N E k g cells v) (hg : Kept E k g) (hline : line ∈ g.code) {c : Bool}
    {t : DataType} {id : FuncId} {name : String} {τ : Ty}
    (hroom : Room E k g c t (.result id line.reg name τ)) (hw : line.inst.computed N v = some w) :
    ∃ a, w = .address a ∧ a.Holds E.globals cells t := by
  obtain ⟨s, -, rfl, -⟩ | ⟨n, a, idx, rfl, hbase, hinst⟩ := hg.room_cases hline hroom
  · cases hw
  · rw [hinst] at hw
    obtain ⟨x, hx, hw⟩ := Option.bind_eq_some_iff.1 hw
    obtain ⟨i, -, hw⟩ := Option.bind_eq_some_iff.1 hw
    obtain ⟨b, rfl, hb⟩ := h.now.room hbase hx
    cases hb with
    | whole hp =>
      simp only [Datum.columnAt?] at hw
      split at hw
      · obtain rfl := Option.some.inj hw
        exact ⟨_, rfl, .column hp⟩
      · cases hw

end

/-! ## Functions on their way -/

/-- A function on its way has computed reliable values. -/
structure Underway (N : Arithmetic R) (E : Setting) (k : Ledger) (g : Func) (cells : List DataType)
    (a : Activation R) : Prop where
  /-- up to now -/
  now : Reliable N E k g cells a.args a.regs
  /-- and in the block that control came from -/
  came : ∀ {l regs}, a.came = some (l, regs) → Reliable N E k g cells a.args regs
  /-- what is left are instructions of the function -/
  rest : ∀ line ∈ a.rest, line ∈ g.code

section

variable {E : Setting} {k : Ledger} {g : Func} {cells cells' : List DataType} {a : Activation R}
  {memory memory' : Memory R} {line : Line} {rest : List Line} {w : Option (Datum R)}

namespace Underway

theorem mono (h : Underway N E k g cells a) (hcells : cells <+: cells') :
    Underway N E k g cells' a :=
  ⟨h.now.mono hcells, fun hcame => (h.came hcame).mono hcells, h.rest⟩

theorem behind (h : Underway N E k g cells a) (hnext : a.rest = line :: rest)
    (hkeep : Reliable N E k g cells a.args (a.regs.keep line.reg w)) :
    Underway N E k g cells (a.behind line.reg rest w) :=
  ⟨hkeep, h.came, fun line' hline' => h.rest line' (hnext ▸ .tail _ hline')⟩

/-- An instruction that computes a value leaves memory alone. -/
theorem compute (h : Underway N E k g cells a) (hg : Kept E k g)
    (hm : memory.Keeps E.globals cells) (hnext : a.rest = line :: rest) {w : Datum R}
    (hw : line.inst.computed N (a.view memory) = some w) :
    Underway N E k g cells (a.behind line.reg rest (some w)) := by
  have hline : line ∈ g.code := h.rest line (hnext ▸ List.mem_cons_self)
  have hsees : Sees N E k g cells (a.view memory) := ⟨h.now, h.came, hm⟩
  exact h.behind hnext (h.now.keep hg hline
    (fun hneeds hoperands => hsees.needs hneeds hoperands hw) fun hroom =>
      hsees.room hg hline hroom hw)

/-- Room is reserved for a variable, whose type is known. -/
theorem reserve (h : Underway N E k g cells a) (hg : Kept E k g)
    (hm : memory.Keeps E.globals cells) (hnext : a.rest = line :: rest) {t : Ty}
    (hinst : line.inst = .alloca t) : ∃ s ∈ k.slots, s.line = line ∧
      Underway N E k g (cells ++ [s.type])
        (a.behind line.reg rest (some (.address ⟨.cell memory.cells, none⟩))) := by
  have hline : line ∈ g.code := h.rest line (hnext ▸ List.mem_cons_self)
  have htraced := hg.line line hline
  rw [LineTraced, hinst] at htraced
  obtain ⟨s, hs, rfl⟩ := htraced
  refine ⟨s, hs, rfl, (h.mono (List.prefix_append _ _)).behind hnext ?_⟩
  refine (h.now.mono (List.prefix_append _ _)).keep hg hline (fun hneeds => ?_) fun hroom => ?_
  · rw [hinst] at hneeds
    cases hneeds
  obtain ⟨s', hs', heq, rfl⟩ | ⟨n, b, idx, -, -, hcolumn⟩ := hg.room_cases hline hroom
  · -- the number tells which variable it is
    have hreg : s'.reg = s.reg := congrArg Line.reg heq
    obtain rfl := List.inj_on_of_nodup_map hg.rooms hs' hs hreg
    refine ⟨_, rfl, .whole ?_⟩
    simp [Place.Holds, hm.size]
  · rw [hinst] at hcolumn
    cases hcolumn

/-- An instruction is carried out. -/
theorem effect (hG : ∀ {id t c t' c'}, E.globals id t c → E.globals id t' c' → t = t')
    (h : Underway N E k g cells a) (hg : Kept E k g) (hm : memory.Keeps E.globals cells)
    (hnext : a.rest = line :: rest)
    (heffect : line.inst.effect N (a.view memory) = some (w, memory')) :
    ∃ cells', cells <+: cells' ∧ Underway N E k g cells' (a.behind line.reg rest w) ∧
      memory'.Keeps E.globals cells' := by
  -- most instructions compute a value and leave memory alone
  have hcomputed (hw : (line.inst.computed N (a.view memory)).map (fun w => (some w, memory)) =
      some (w, memory')) : ∃ cells', cells <+: cells' ∧
        Underway N E k g cells' (a.behind line.reg rest w) ∧ memory'.Keeps E.globals cells' := by
    obtain ⟨w', hw', heq⟩ := Option.map_eq_some_iff.1 hw
    obtain ⟨rfl, rfl⟩ := Prod.mk.inj heq
    exact ⟨cells, List.prefix_refl _, h.compute hg hm hnext hw', hm⟩
  cases hinst : line.inst with
  | alloca t =>
    rw [hinst] at heffect
    obtain ⟨rfl, rfl⟩ := Prod.mk.inj (Option.some.inj heffect)
    obtain ⟨s, -, -, hs⟩ := h.reserve hg hm hnext hinst
    exact ⟨_, List.prefix_append _ _, hs, hm.reserve s.type⟩
  | store x addr =>
    have htraced := hg.line line (h.rest line (hnext ▸ List.mem_cons_self))
    rw [LineTraced, hinst] at htraced
    obtain ⟨c, t, hroom, hfit, -⟩ := htraced
    rw [hinst] at heffect
    obtain ⟨x', hx, heffect⟩ := Option.bind_eq_some_iff.1 heffect
    obtain ⟨b, haddr, heffect⟩ := Option.bind_eq_some_iff.1 heffect
    obtain ⟨m, hwrite, heffect⟩ := Option.bind_eq_some_iff.1 heffect
    obtain ⟨rfl, rfl⟩ := Prod.mk.inj (Option.some.inj heffect)
    obtain ⟨_, haddr', haddr⟩ := Option.bind_eq_some_iff.1 haddr
    obtain ⟨b', rfl, hb⟩ := h.now.room hroom haddr'
    obtain rfl := Option.some.inj haddr
    refine ⟨cells, List.prefix_refl _, h.behind hnext h.now, ?_⟩
    exact hm.write hG hb (fun ht => h.now.truth (hfit ht) hx) hwrite
  | call id result args =>
    rw [hinst] at heffect
    cases heffect
  | _ =>
    rw [hinst] at heffect hcomputed
    exact hcomputed heffect

end Underway

end

/-! ## Machines -/

/-- The functions of a module keep to rooms and to truth values, and are called as they are
declared. -/
structure ModuleKept (m : Module) (G : GlobalId → DataType → Bool → Prop) (S : FuncId → Setting)
    (K : FuncId → Ledger) : Prop where
  /-- a global variable has one type -/
  unique : ∀ {id t c t' c'}, G id t c → G id t' c' → t = t'
  /-- all functions know the same global variables -/
  globals : ∀ id, (S id).globals = G
  /-- they keep to their rooms -/
  func : ∀ {id g}, m.func? id = some g → Kept (S id) (K id) g
  /-- and to the signatures of others -/
  call : ∀ {id name sig}, (S id).sigs name = some sig →
    (S ⟨sig.name, 0⟩).params.map passing = sig.params ∧ (S ⟨sig.name, 0⟩).result = sig.result

/-- A function has been called by another, which is still at the call. -/
def CalledBy (callee caller : Activation R) : Prop :=
  ∃ line rest result args, caller.rest = line :: rest ∧ line.inst = .call callee.func result args

/-- Memory keeps truth values, and the functions on their way have computed reliable values. -/
structure Steady (m : Module) (N : Arithmetic R) (G : GlobalId → DataType → Bool → Prop)
    (S : FuncId → Setting) (K : FuncId → Ledger) (cells : List DataType) (s : Machine R) :
    Prop where
  /-- memory -/
  memory : s.memory.Keeps G cells
  /-- the functions -/
  stack : ∀ a ∈ s.stack, ∃ g, m.func? a.func = some g ∧
    Underway N (S a.func) (K a.func) g cells a
  /-- each has called the next -/
  calls : s.stack.IsChain CalledBy

section

variable {m : Module} {G : GlobalId → DataType → Bool → Prop} {S : FuncId → Setting}
  {K : FuncId → Ledger} {cells cells' : List DataType} {a caller : Activation R}
  {below : List (Activation R)} {memory memory' : Memory R} {s t : Machine R}

theorem isChain_of_func {a a' : Activation R} (h : (a :: below).IsChain CalledBy)
    (hfunc : a'.func = a.func) : (a' :: below).IsChain CalledBy := by
  cases h with
  | singleton => exact .singleton _
  | cons_cons hcall h =>
    refine .cons_cons ?_ h
    rwa [CalledBy, hfunc]

/-- Blocks hold instructions of the function. -/
theorem Kept.block {E : Setting} {k : Ledger} {g : Func} (h : Kept E k g) {id : FuncId} {l : Label}
    {b : Block} (hfunc : m.func? id = some g) (hb : m.block? id l = some b) : b ∈ g.blocks := by
  rw [Module.block?, hfunc, Option.bind_some] at hb
  have hmem := List.mem_of_find?_eq_some hb
  rwa [Func.allBlocks, h.detached, List.append_nil] at hmem

/-- What is returned is a truth value where it has to be. -/
theorem Underway.returned {E : Setting} {k : Ledger} {g : Func} (h : Underway N E k g cells a)
    (hg : Kept E k g) {b : Block} {x : Value} {w : Datum R} (hb : b ∈ g.blocks)
    (hterm : b.term = some (.ret (some x))) (ht : E.result.isBoolean = true)
    (hw : a.value N x = some w) : w.IsTruth :=
  h.now.truth (hg.term x (Func.mem_terms.2 ⟨b, hb, hterm⟩) ht) hw

/-- A function starts with what it has been given. -/
theorem Underway.start {E : Setting} {k : Ledger} {g : Func} {args : List (Datum R)}
    (hargs : Suited E.globals cells E.params args) (hstart : g.activation args = some a) :
    Underway N E k g cells a := by
  obtain ⟨entry, hentry, rfl⟩ := Option.map_eq_some_iff.1 hstart
  refine ⟨.start hargs, nofun, fun line hline => ?_⟩
  exact Func.mem_code.2 ⟨entry, List.mem_of_mem_head? hentry, hline⟩

/-- The arguments of a call are what the function takes. -/
theorem Underway.suited {E E' : Setting} {k : Ledger} {g : Func} {sig : Signature}
    {args : List Value} {ws : List (Datum R)} (h : Underway N E k g cells a)
    (hG : E'.globals = E.globals) (hparams : E'.params.map passing = sig.params)
    (hargs : List.Forall₂ (Passing.Takes (.truths E) k g) sig.params args)
    (hws : args.mapM (a.value N) = some ws) : Suited E'.globals cells E'.params ws := by
  intro i p w hp hw
  have hall := forall₂_of_mapM hws
  obtain ⟨hi, rfl⟩ := List.getElem?_eq_some_iff.1 hw
  have hi' : i < args.length := hall.length_eq ▸ hi
  have hi'' : i < sig.params.length := hargs.length_eq ▸ hi'
  have htakes := hargs.get hi'' hi'
  have hvalue := hall.get hi' hi
  have hpassing : sig.params[i] = passing p := by
    have hmap : (E'.params.map passing)[i]? = some (passing p) := by
      rw [List.getElem?_map, hp, Option.map_some]
    rw [hparams, List.getElem?_eq_getElem hi''] at hmap
    exact Option.some.inj hmap
  simp only [List.get_eq_getElem] at htakes hvalue
  rw [hpassing, Passing.Takes] at htakes
  rw [Suits]
  by_cases hout : p.storage = .output
  · rw [if_pos (by simp [passing, hout])] at htakes
    rw [if_pos hout, hG]
    exact h.now.room htakes hvalue
  · rw [if_neg (by simp [passing, hout])] at htakes
    rw [if_neg hout]
    exact fun ht => h.now.truth (htakes ht) hvalue

namespace Steady

/-- Functions stay reliable when there are more variables in memory. -/
theorem stack_mono (hcells : cells <+: cells')
    (h : ∀ a ∈ below, ∃ g, m.func? a.func = some g ∧
      Underway N (S a.func) (K a.func) g cells a) :
    ∀ a ∈ below, ∃ g, m.func? a.func = some g ∧
      Underway N (S a.func) (K a.func) g cells' a := fun a ha =>
  have ⟨g, hg, hunder⟩ := h a ha
  ⟨g, hg, hunder.mono hcells⟩

/-- A function is called. -/
theorem call (hm : ModuleKept m G S K) (h : Steady m N G S K cells ⟨a :: below, memory⟩)
    {callee : Activation R} {line : Line} {rest : List Line} {id : FuncId} {result : Ty}
    {args : List Value} {f : Func} {ws : List (Datum R)} (hnext : a.rest = line :: rest)
    (hinst : line.inst = .call id result args) (hfunc : m.func? id = some f)
    (hws : args.mapM (a.value N) = some ws) (hstart : f.activation ws = some callee) :
    Steady m N G S K cells ⟨callee :: a :: below, memory⟩ := by
  have hid : f.id = id := by simpa using List.find?_some hfunc
  have hcallee : callee.func = id := by
    obtain ⟨entry, -, rfl⟩ := Option.map_eq_some_iff.1 hstart
    exact hid
  refine ⟨h.memory, List.forall_mem_cons.2 ⟨⟨f, hcallee ▸ hfunc, .start ?_ hstart⟩, h.stack⟩,
    .cons_cons ⟨line, rest, result, args, hnext, hcallee ▸ hinst⟩ h.calls⟩
  obtain ⟨g, hg, ha⟩ := h.stack a List.mem_cons_self
  have htraced := (hm.func hg).line line (ha.rest line (hnext ▸ List.mem_cons_self))
  rw [LineTraced, hinst] at htraced
  obtain rfl | ⟨name, sig, hsig, hname, hargs⟩ := htraced
  · obtain rfl := Option.some.inj hws
    exact fun i p w _ => nofun
  · rw [hcallee.trans hname]
    have hG := (hm.globals ⟨sig.name, 0⟩).trans (hm.globals a.func).symm
    exact ha.suited hG (hm.call hsig).1 hargs hws

/-- A function returns. -/
theorem leave (hm : ModuleKept m G S K)
    (h : Steady m N G S K cells ⟨a :: caller :: below, memory⟩) {caller' : Activation R}
    {b : Block} {x : Option Value} {w : Option (Datum R)}
    (hblock : m.block? a.func a.block = some b) (hterm : b.term = some (.ret x))
    (hvalue : a.returned N x = some w) (hresume : caller.resume w = some caller') :
    Steady m N G S K cells ⟨caller' :: below, memory⟩ := by
  obtain ⟨g, hg, ha⟩ := h.stack a List.mem_cons_self
  obtain ⟨g', hg', hcaller⟩ := h.stack caller (.tail _ List.mem_cons_self)
  -- the caller waits at its call, and goes on behind it with what is returned
  obtain ⟨line, rest, result, args, hnext, hinst⟩ : CalledBy a caller := by
    cases h.calls with
    | cons_cons hcall => exact hcall
  have hchain : (caller :: below).IsChain CalledBy := by
    cases h.calls with
    | cons_cons _ hchain => exact hchain
  rw [Activation.resume, hnext] at hresume
  obtain rfl := Option.some.inj hresume
  refine ⟨h.memory, List.forall_mem_cons.2 ⟨⟨g', hg', hcaller.behind hnext ?_⟩, fun a' ha' =>
    h.stack a' (.tail _ (.tail _ ha'))⟩, isChain_of_func hchain rfl⟩
  cases x with
  | none =>
    obtain rfl := Option.some.inj hvalue
    exact hcaller.now
  | some x =>
    obtain ⟨w, hw, rfl⟩ := Option.map_eq_some_iff.1 hvalue
    have hline := hcaller.rest line (hnext ▸ List.mem_cons_self)
    refine hcaller.now.keep (hm.func hg') hline (fun hneeds _ => ?_) fun hroom => ?_
    · rw [hinst] at hneeds
      generalize hid : a.func = id at hneeds
      cases hneeds with
      | call hsig ht =>
        obtain ⟨-, hresult⟩ := hm.call hsig
        refine ha.returned (hm.func hg) ((hm.func hg).block hg hblock) hterm ?_ hw
        rw [hid, hresult]
        exact ht
    · obtain ⟨s, -, rfl, -⟩ | ⟨n, c, idx, -, -, hcolumn⟩ :=
        (hm.func hg').room_cases hline hroom
      · cases hinst
      · rw [hinst] at hcolumn
        cases hcolumn

/-- What one step keeps. -/
theorem step (hm : ModuleKept m G S K) (h : Steady m N G S K cells s) (hstep : m.Moves N s t) :
    ∃ cells', cells <+: cells' ∧ Steady m N G S K cells' t := by
  cases hstep with
  | @compute a below memory memory' line rest w hnext heffect =>
    obtain ⟨g, hg, ha⟩ := h.stack a List.mem_cons_self
    have hG := hm.globals a.func
    obtain ⟨cells', hcells, ha', hmemory⟩ := ha.effect (hG ▸ hm.unique) (hm.func hg)
      (hG ▸ h.memory) hnext heffect
    refine ⟨cells', hcells, hG ▸ hmemory, List.forall_mem_cons.2 ⟨⟨g, hg, ha'⟩, ?_⟩,
      isChain_of_func h.calls rfl⟩
    exact stack_mono hcells fun a' hmem => h.stack a' (.tail _ hmem)
  | call hnext hinst hfunc hws hstart =>
    exact ⟨cells, List.prefix_refl _, h.call hm hnext hinst hfunc hws hstart⟩
  | @go a below memory b b' term l _ _ _ _ htarget =>
    obtain ⟨g, hg, ha⟩ := h.stack a List.mem_cons_self
    refine ⟨cells, List.prefix_refl _, h.memory, List.forall_mem_cons.2 ⟨⟨g, hg, ha.now, ?_, ?_⟩,
      fun a' hmem => h.stack a' (.tail _ hmem)⟩, isChain_of_func h.calls rfl⟩
    · intro _ _ hcame
      obtain ⟨-, rfl⟩ := Prod.mk.inj (Option.some.inj hcame)
      exact ha.now
    · exact fun line hline => Func.mem_code.2 ⟨b', (hm.func hg).block hg htarget, hline⟩
  | leave _ hblock hterm hvalue hresume =>
    exact ⟨cells, List.prefix_refl _, h.leave hm hblock hterm hvalue hresume⟩

/-- What a whole run keeps. -/
theorem run (hm : ModuleKept m G S K) (h : Steady m N G S K cells s) (hrun : m.Reaches N s t) :
    ∃ cells', cells <+: cells' ∧ Steady m N G S K cells' t := by
  refine hrun.invariant (P := fun s => ∃ cells', cells <+: cells' ∧ Steady m N G S K cells' s)
    ⟨cells, List.prefix_refl _, h⟩ fun s t ⟨cells', hcells, hs⟩ hstep => ?_
  obtain ⟨cells'', hcells', ht⟩ := hs.step hm (Module.moves_of_step hstep)
  exact ⟨cells'', hcells.trans hcells', ht⟩

end Steady

end

end Shader.Lowering
