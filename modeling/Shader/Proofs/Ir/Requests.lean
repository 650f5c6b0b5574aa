import Shader.Ir.Builder
import Shader.Proofs.Ir.Dumping
import Shader.Proofs.Lowering.Stepwise
import Shader.Proofs.Lowering.Success

/-!
# Requests to a builder

A module is built by requests, one after another: functions are declared, entered and left, blocks
are made, room is reserved, and code is written at the point.

What code writes depends on the place only, and not on what stands there already. So it can be read
off a builder of which all blocks have been emptied: what stands at the point afterwards is what has
been written, in the order of writing. `Code.written` is that, and `Inscribes.run_at` shows that the
same is put behind what stands at the point when no block is emptied.

The history of requests keeps apart what comes to a function in two ways: the rooms that were
reserved while it was current, and the code that was written to its blocks.
-/

namespace Shader.Ir

variable {α β : Type}

/-! ## Requests -/

/-- Code that is written at the point. -/
inductive Code where
  /-- the value of a type at an address -/
  | load (t : ValueType) (addr : Value)
  /-- keeps a value at an address -/
  | store (v addr : Value)
  /-- the address of a column of a matrix -/
  | columnAddr (t : ValueType) (addr idx : Value)
  /-- a number in every component of a type -/
  | const (t : ValueType) (x : Numeral.Dyadic)
  /-- the arithmetic operation with a number -/
  | binary (code : Nat) (t : ValueType) (x y : Value)
  /-- the other sign -/
  | neg (t : ValueType) (x : Value)
  /-- a comparison -/
  | compare (op : RelOp) (t : ValueType) (x y : Value)
  /-- whether a value is not zero -/
  | truth (t : ValueType) (x : Value)
  /-- a bit as an integer -/
  | fromBool (c : Value)
  /-- a conversion -/
  | convert (x : Value) (src dst : ValueType)
  /-- a component of a vector -/
  | lane (x idx : Value)
  /-- a vector with a component replaced -/
  | setLane (x elem idx : Value)
  /-- a column of a matrix -/
  | column (x : Value) (i : Nat)
  /-- a matrix with a column replaced -/
  | setColumn (x col : Value) (i : Nat)
  /-- the call of a function -/
  | call (func : FuncId) (result : Ty) (args : List Value)
  /-- the value that belongs to the block from which control came -/
  | phi (incoming : List (Value × Label))
  /-- goes to a block -/
  | br (target : Label)
  /-- goes to one of two blocks -/
  | condBr (c : Value) (yes no : Label)
  /-- leaves the function -/
  | ret (v : Option Value)

/-- Writes code at the point. -/
def Code.act : Code → Build Unit
  | load t addr => discard (Build.typed t fun t => Emit.load t addr)
  | store v addr => Build.atPoint (Emit.store v addr)
  | columnAddr t addr idx => discard (Build.typed t fun t => Emit.columnAddr t addr idx)
  | const t x => discard (Build.typed t fun t => Emit.const t x)
  | binary code t x y => discard (Build.binary code t x y)
  | neg t x => discard (Build.typed t fun t => Emit.neg t x)
  | compare op t x y => discard (Build.compare op t x y)
  | truth t x => discard (Build.typed t fun t => Emit.truth t x)
  | fromBool c => discard (Build.atPoint (Emit.fromBool c))
  | convert x src dst => discard (Build.convert x src dst)
  | lane x idx => discard (Build.atPoint (Emit.lane x idx))
  | setLane x elem idx => discard (Build.atPoint (Emit.setLane x elem idx))
  | column x i => discard (Build.atPoint (Emit.column x i))
  | setColumn x col i => discard (Build.atPoint (Emit.setColumn x col i))
  | call func result args => discard (Build.atPoint (Emit.call func result args))
  | phi incoming => discard (Build.atPoint (Emit.phi incoming))
  | br target => Build.atPoint (Emit.br target)
  | condBr c yes no => Build.atPoint (Emit.condBr c yes no)
  | ret v => Build.atPoint (Emit.ret v)

/-- What a builder can be asked for. -/
inductive Request where
  /-- a function is declared -/
  | declareFunc (name : String) (result : ValueType) (params : List Build.ParamSpec)
  /-- a global variable is declared -/
  | declareGlobal (name : String) (t : ValueType) (storage : Storage) (layout : List LayoutEntry)
  /-- a function becomes current -/
  | enter (id : FuncId)
  /-- the current function is left -/
  | leave
  /-- a block is made in the current function -/
  | newBlock (hint : String)
  /-- the open blocks of the current function are listed -/
  | openBlocks
  /-- the point is moved -/
  | setPoint (p : Option Label)
  /-- the point is asked for -/
  | point
  /-- the zero of a type is asked for -/
  | zero (t : ValueType)
  /-- room is reserved in the current function -/
  | alloca (t : ValueType) (hint : String)
  /-- code is written at the point -/
  | write (code : Code)
  /-- the text of the module is asked for, and what has no name gets a number -/
  | print

/-- Does what a request asks for. -/
def Request.act : Request → Build Unit
  | declareFunc name result params => discard (Build.declareFunc name result params)
  | declareGlobal name t storage layout => discard (Build.declareGlobal name t storage layout)
  | enter id => discard (Build.enter id)
  | leave => Build.leave
  | newBlock hint => discard (Build.newBlock hint)
  | openBlocks => discard Build.openBlocks
  | setPoint p => Build.setPoint p
  | point => discard Build.point
  | zero t => discard (Build.zero t)
  | alloca t hint => discard (Build.alloca t hint)
  | write code => code.act
  | print => modify fun b => { b with module := b.module.print.1 }

/-- Does what requests ask for, one after another. -/
def Request.acts : List Request → Build Unit
  | [] => pure ()
  | r :: rs => do
    r.act
    acts rs

/-! ## Histories -/

/-- The function without the instructions of its blocks. -/
def Func.emptied (f : Func) : Func :=
  { f with blocks := f.blocks.map fun b => { b with lines := [] } }

/-- The builder without the instructions of all blocks. -/
def Builder.emptied (b : Builder) : Builder :=
  { b with module := { b.module with funcs := b.module.funcs.map Func.emptied } }

/-- The instructions of the block with a label; none if there is no such block. -/
def Module.linesAt (m : Module) (l : Label) : List Line :=
  ((m.func? l.func).bind fun f => f.blocks.find? fun b => b.label = l).elim [] Block.lines

/-- What code writes to the block at a label: what stands there afterwards if all blocks have been
emptied before. -/
def Code.written (c : Code) (b : Builder) (l : Label) : List Line :=
  match c.act.run b.emptied with
  | .ok (_, b') => b'.module.linesAt l
  | .error _ => []

/-- What has come to a function. -/
inductive Note where
  /-- a reservation that was asked for while the function was current -/
  | room (func : FuncId) (line : Line)
  /-- another instruction, which was written at the end of a block -/
  | code (block : Label) (line : Line)

namespace Note

/-- The function that it has come to. -/
def func : Note → FuncId
  | room func _ => func
  | code block _ => block.func

/-- What has come to the function. -/
def line : Note → Line
  | room _ line => line
  | code _ line => line

/-- The reservations for a function. -/
def rooms (id : FuncId) (ns : List Note) : List Line :=
  ns.filterMap fun
    | room func line => if func = id then some line else none
    | code _ _ => none

/-- The instructions for a block. -/
def codeAt (l : Label) (ns : List Note) : List Line :=
  ns.filterMap fun
    | room _ _ => none
    | code block line => if block = l then some line else none

end Note

namespace Request

/-- What a request brings to the functions of a module. Room for a type is asked of the current
function, which gives it the next number. -/
def notes (b : Builder) : Request → List Note
  | alloca (.data t) hint =>
    ((b.current.bind b.module.func?).map fun f => .room f.id (f.slotLine t hint)).toList
  | write code => b.point.elim [] fun l => (code.written b l).map (.code l)
  | _ => []

/-- What requests bring to the functions of a module, in the order of the requests. -/
def history (b : Builder) : List Request → List Note
  | [] => []
  | r :: rs =>
    r.notes b ++
      match r.act.run b with
      | .ok (_, b') => history b' rs
      | .error _ => []

end Request

/-! ## Writing to the end of a block -/

namespace Block

variable {l : Label} {lines : List Line} {term : Option Term} {b : Block}

/-- The block with instructions at its end, and perhaps a terminator behind them, if it is the one
with a label. -/
def write (l : Label) (lines : List Line) (term : Option Term) (b : Block) : Block :=
  if b.label = l then { b with lines := b.lines ++ lines, term := term.or b.term } else b

@[simp] theorem label_write : (b.write l lines term).label = b.label := by
  unfold write
  split <;> rfl

theorem lines_write :
    (b.write l lines term).lines = b.lines ++ if b.label = l then lines else [] := by
  unfold write
  split
  · rfl
  · rw [List.append_nil]

theorem write_write {more : List Line} :
    (b.write l lines none).write l more none = b.write l (lines ++ more) none := by
  by_cases hb : b.label = l
  · simp [write, hb]
  · simp [write, hb]

end Block

namespace Func

variable {f : Func} {l : Label} {lines : List Line} {term : Option Term}

/-- Puts instructions at the end of a block, and perhaps a terminator behind them. -/
def write (f : Func) (l : Label) (lines : List Line) (term : Option Term) : Func :=
  { f with
    blocks := f.blocks.map (Block.write l lines term)
    detached := f.detached.map (Block.write l lines term)
    regs := f.regs + lines.length }

@[simp] theorem write_nil : f.write l [] none = f := by
  have hblock : Block.write l [] none = fun b => b := by
    funext b
    simp [Block.write]
  simp [write, hblock]

theorem write_write {more : List Line} :
    (f.write l lines none).write l more none = f.write l (lines ++ more) none := by
  have hblock : Block.write l more none ∘ Block.write l lines none =
      Block.write l (lines ++ more) none := funext fun _ => Block.write_write
  simp only [write, List.map_map, hblock, List.length_append, Nat.add_assoc]

theorem put_eq_write {inst : Inst} :
    f.put l inst = f.write l [{ reg := f.regs, inst }] none := rfl

theorem close_eq_write {t : Term} : f.close l t = f.write l [] (some t) := by
  have hblock : Block.write l [] (some t) = fun b =>
      if b.label = l then { b with term := some t } else b := by
    funext b
    simp [Block.write]
  rw [write, hblock]
  rfl

end Func

/-- Instructions as they are written: none reserves room, and they are numbered from a number on. -/
structure Consecutive (n : Nat) (lines : List Line) : Prop where
  /-- they are numbered one after another -/
  regs : lines.map Line.reg = List.range' n lines.length
  /-- none of them reserves room -/
  noRoom : ∀ line ∈ lines, line.inst.isAlloca = false

namespace Consecutive

variable {n : Nat} {lines more : List Line}

theorem nil : Consecutive n [] where
  regs := rfl
  noRoom := List.forall_mem_nil _

theorem append (h : Consecutive n lines) (hmore : Consecutive (n + lines.length) more) :
    Consecutive n (lines ++ more) where
  regs := by
    rw [List.map_append, h.regs, hmore.regs, List.length_append, List.range'_append_1]
  noRoom := fun line hline => (List.mem_append.1 hline).elim (h.noRoom line) (hmore.noRoom line)

theorem reg_mem (h : Consecutive n lines) {line : Line} (hline : line ∈ lines) :
    n ≤ line.reg ∧ line.reg < n + lines.length := by
  have hreg := List.mem_map_of_mem (f := Line.reg) hline
  rw [h.regs] at hreg
  exact List.mem_range'_1.1 hreg

theorem sorted (h : Consecutive n lines) : lines.Pairwise fun x y => x.reg < y.reg := by
  have hregs : (lines.map Line.reg).Pairwise (· < ·) := by
    rw [h.regs]
    exact List.pairwise_lt_range'
  exact List.pairwise_map.1 hregs

end Consecutive

/-! ## What code writes -/

/-- Writing does nothing but put instructions at the point that reserve no room. -/
def Places (act : Emit α) : Prop := Composed (fun inst => inst.isAlloca = false) act

theorem Evaluates.places {act : Emit α} (h : Evaluates act) : Places act :=
  h.mono fun inst hinst => by
    cases inst with
    | alloca => cases hinst
    | _ => rfl

/-- What is written at a point does not depend on what stands there. -/
theorem Places.run_at {act : Emit α} (h : Places act) {l : Label} :
    ∀ {f : Func} {a : α} {d : Draft}, act { func := f, point := some l } = .ok (a, d) →
      ∃ lines, Consecutive f.regs lines ∧ ∀ g : Func, g.id = f.id → g.regs = f.regs →
        act { func := g, point := some l } =
          .ok (a, { func := g.write l lines none, point := some l }) := by
  -- An instruction sees the identity and the next number of its function, and no more of it; both
  -- are still the same for the second part of a composition.
  induction h with
  | pure =>
    rintro f _ _ ⟨⟩
    exact ⟨[], .nil, fun g _ _ => by rw [Func.write_nil]; rfl⟩
  | throw =>
    rintro f a d ⟨⟩
  | @append inst hinst =>
    intro f v d hrun
    obtain ⟨k, τ, hk, hτ, rfl, -⟩ := Emit.append_cases hrun
    obtain rfl := Option.some.inj hk
    refine ⟨[{ reg := f.regs, inst }], ⟨rfl, by simpa using hinst⟩, fun g hid hregs => ?_⟩
    simp only [Emit.append, hτ]
    rw [← hid, ← hregs, ← Func.put_eq_write]
    rfl
  | @bind _ _ act rest _ _ ih ihrest =>
    intro f b d hrun
    obtain ⟨a, d₁, hact, hgo⟩ := Emit.bind_cases hrun
    obtain ⟨lines, hlines, hwrites⟩ := ih hact
    have hfirst := hact.symm.trans (hwrites f rfl rfl)
    obtain ⟨-, rfl⟩ := Prod.mk.inj (Except.ok.inj hfirst)
    obtain ⟨more, hmore, hwrites'⟩ := ihrest a hgo
    refine ⟨lines ++ more, hlines.append hmore, fun g hid hregs => ?_⟩
    change Except.bind (act _) _ = _
    rw [hwrites g hid hregs, ← Func.write_write]
    exact hwrites' (g.write l lines none) hid (congrArg (· + _) hregs)

/-- Building does nothing but write at the point. -/
inductive Inscribes : {α : Type} → Build α → Prop where
  /-- nothing is written -/
  | pure {α : Type} {a : α} : Inscribes (Pure.pure a : Build α)
  /-- it ends with a fault -/
  | throw {α : Type} {e : Fault} : Inscribes (MonadExcept.throw e : Build α)
  /-- instructions are put at the point -/
  | places {α : Type} {act : Emit α} (h : Places act) : Inscribes (Build.atPoint act)
  /-- the block at the point is ended -/
  | terminate {t : Term} : Inscribes (Build.atPoint (Emit.terminate t))
  /-- it does not matter what comes of it -/
  | discard {α : Type} {act : Build α} (h : Inscribes act) :
    Inscribes (Functor.discard act : Build Unit)

theorem Inscribes.typed {act : DataType → Emit α} (h : ∀ t, Places (act t)) :
    ∀ {t : ValueType}, Inscribes (Build.typed t act)
  | .data t => .places (h t)
  | .error => .throw
  | .unlisted _ => .throw

theorem Code.inscribes (c : Code) : Inscribes c.act := by
  have happend : ∀ {inst : Inst}, inst.isAlloca = false → Places (Emit.append inst) :=
    fun h => Composed.append h
  cases c with
  | load => exact .discard (.typed fun _ => happend rfl)
  | store => exact .places (.bind (happend rfl) fun _ => .pure)
  | columnAddr => exact .discard (.typed fun _ => happend rfl)
  | const => exact .discard (.typed fun _ => Evaluates.const.places)
  | binary code =>
    refine .discard ?_
    unfold Build.binary
    split
    · exact .throw
    · exact .places (happend rfl)
  | neg => exact .discard (.typed fun _ => Evaluates.neg.places)
  | compare => exact .discard (.places Evaluates.compare.places)
  | truth => exact .discard (.typed fun _ => Evaluates.compare.places)
  | convert =>
    refine .discard ?_
    unfold Build.convert
    split
    · exact .places Evaluates.convert.places
    · split
      · exact .pure
      · exact .throw
  | phi => exact .discard (.places Evaluates.phi.places)
  | fromBool | lane | setLane | column | setColumn | call => exact .discard (.places (happend rfl))
  | br | condBr | ret => exact .terminate

/-! ## What code does to a builder -/

namespace Module

variable {m : Module} {f : Func}

theorem id_of_func? {id : FuncId} (h : m.func? id = some f) : f.id = id := by
  simpa using List.find?_some h

/-- What is found is found under its own identity. -/
theorem func?_self {id : FuncId} (h : m.func? id = some f) : m.func? f.id = some f := by
  rwa [id_of_func? h]

/-- Nothing changes if a function is replaced by itself. -/
theorem setFunc_self (hids : (m.funcs.map Func.id).Nodup) (hf : m.func? f.id = some f) :
    m.setFunc f = m := by
  have hsame : ∀ g ∈ m.funcs, (if g.id = f.id then f else g) = id g := by
    intro g hg
    split
    next hid => exact List.inj_on_of_nodup_map hids (List.mem_of_find?_eq_some hf) hg hid.symm
    next => rfl
  rw [setFunc, List.map_congr_left hsame, List.map_id]

end Module

namespace Builder

variable {b b' : Builder} {l : Label} {f : Func}

theorem func?_emptied (b : Builder) (id : FuncId) :
    b.emptied.module.func? id = (b.module.func? id).map Func.emptied := by
  simp only [emptied, Module.func?, List.find?_map]
  rfl

theorem ids_emptied (b : Builder) :
    b.emptied.module.funcs.map Func.id = b.module.funcs.map Func.id := by
  simp only [emptied, List.map_map]
  rfl

/-- What has been put into an emptied block is what stands there. -/
theorem linesAt_write (hf : b.module.func? l.func = some f) {lines : List Line}
    {term : Option Term} :
    (b.emptied.module.setFunc (f.emptied.write l lines term)).linesAt l =
      if l ∈ f.ownLabels then lines else [] := by
  have hid : f.id = l.func := Module.id_of_func? hf
  have hfunc : (b.emptied.module.setFunc (f.emptied.write l lines term)).func? l.func =
      some (f.emptied.write l lines term) := by
    have hemptied : b.emptied.module.func? l.func = some f.emptied := by
      rw [func?_emptied, hf]
      rfl
    rw [← hid]
    exact Module.func?_setFunc (f := f.emptied) (Module.func?_self hemptied)
  have hlabel : (fun c : Block => decide (c.label = l)) ∘
      Block.write l lines term ∘ (fun c : Block => { c with lines := [] }) =
      fun c => decide (c.label = l) := by
    funext c
    simp
  rw [Module.linesAt, hfunc, Option.bind_some]
  simp only [Func.write, Func.emptied, List.map_map, List.find?_map, hlabel]
  rcases hfind : f.blocks.find? (fun c => c.label = l) with _ | c
  · have hout : l ∉ f.ownLabels := by
      rintro hl
      obtain ⟨c, hc, rfl⟩ := List.mem_map.1 hl
      simpa using List.find?_eq_none.1 hfind c hc
    simp [hfind, hout]
  · have hc : c.label = l := by simpa using List.find?_some hfind
    have hin : l ∈ f.ownLabels := List.mem_map.2 ⟨c, List.mem_of_find?_eq_some hfind, hc⟩
    simp [hfind, hin, Block.lines_write, hc]

end Builder

namespace Build

variable {b b' : Builder} {l : Label} {f : Func}

/-- Building one thing after another. -/
theorem bind_cases {act : Build α} {rest : α → Build β} {x : β}
    (h : (act >>= rest) b = .ok (x, b')) :
    ∃ a b₁, act b = .ok (a, b₁) ∧ rest a b₁ = .ok (x, b') := by
  change Except.bind (act b) _ = _ at h
  rcases hact : act b with e | ⟨a, b₁⟩
  · rw [hact] at h
    cases h
  · rw [hact] at h
    exact ⟨a, b₁, rfl, h⟩

theorem discard_cases {act : Build α} {u : Unit} (h : discard act b = .ok (u, b')) :
    ∃ a, act b = .ok (a, b') := by
  have hbind : (act >>= fun _ => pure ()) b = .ok (u, b') := h
  obtain ⟨a, b₁, hact, hpure⟩ := bind_cases hbind
  cases hpure
  exact ⟨a, hact⟩

theorem atPoint_eq {act : Emit α} (hl : b.point = some l) (hf : b.module.func? l.func = some f) :
    atPoint act b = (act { func := f, point := some l }).bind fun (a, d) =>
      .ok (a, { b with module := b.module.setFunc d.func }) := by
  have hsite : (b.point.bind fun l => b.module.func? l.func) = some f := by rw [hl]; exact hf
  simp only [atPoint, get, getThe, MonadStateOf.get, StateT.get, bind, StateT.bind, Except.bind,
    pure, Except.pure, hsite, StateT.run]
  rw [hl]
  rcases act { func := f, point := some l } with e | ⟨a, d⟩
  · rfl
  · rfl

/-- Without a block at the point nothing is written. -/
theorem atPoint_nowhere {act : Emit α} {a : α}
    (hsite : (b.point.bind fun l => b.module.func? l.func) = none)
    (h : atPoint act b = .ok (a, b')) : b' = b := by
  simp only [atPoint, get, getThe, MonadStateOf.get, StateT.get, bind, StateT.bind, Except.bind,
    pure, Except.pure, hsite, StateT.run] at h
  rcases hact : act { func := { id := ⟨"", 0⟩, result := .void, params := [] } } with e | ⟨a, d⟩
  · rw [hact] at h
    cases h
  · rw [hact] at h
    cases h
    rfl

end Build

namespace Inscribes

variable {act : Build α} {a : α} {b b' : Builder} {l : Label} {f : Func}

/-- What is written at a point does not depend on what stands there, nor elsewhere. -/
theorem run_at (h : Inscribes act) (hl : b.point = some l) (hf : b.module.func? l.func = some f)
    (hrun : act b = .ok (a, b')) :
    ∃ lines term, Consecutive f.regs lines ∧ ∀ (c : Builder) (g : Func),
      (c.module.funcs.map Func.id).Nodup → c.point = some l → c.module.func? l.func = some g →
      g.id = f.id → g.regs = f.regs →
      act c = .ok (a, { c with module := c.module.setFunc (g.write l lines term) }) := by
  induction h generalizing b' with
  | pure =>
    cases hrun
    refine ⟨[], none, .nil, fun c g hids _ hg hid _ => ?_⟩
    rw [Func.write_nil, Module.setFunc_self hids (Module.func?_self hg)]
    rfl
  | throw => cases hrun
  | @places _ act hplaces =>
    rw [Build.atPoint_eq hl hf] at hrun
    rcases hact : act { func := f, point := some l } with e | ⟨a, d⟩
    · rw [hact] at hrun
      cases hrun
    · rw [hact] at hrun
      cases hrun
      obtain ⟨lines, hlines, hwrites⟩ := hplaces.run_at hact
      refine ⟨lines, none, hlines, fun c g _ hpoint hg hid hregs => ?_⟩
      rw [Build.atPoint_eq hpoint hg, hwrites g hid hregs]
      rfl
  | @terminate t =>
    refine ⟨[], some t, .nil, fun c g _ hpoint hg _ _ => ?_⟩
    rw [Build.atPoint_eq hpoint hg, ← Func.close_eq_write]
    rfl
  | discard _ ih =>
    obtain ⟨a, hact⟩ := Build.discard_cases hrun
    obtain ⟨lines, term, hlines, hwrites⟩ := ih hact
    refine ⟨lines, term, hlines, fun c g hids hpoint hg hid hregs => ?_⟩
    change Except.bind (_ : Except Fault (_ × Builder)) _ = _
    rw [hwrites c g hids hpoint hg hid hregs]
    rfl

theorem run_nowhere (h : Inscribes act)
    (hsite : (b.point.bind fun l => b.module.func? l.func) = none) (hrun : act b = .ok (a, b')) :
    b' = b := by
  induction h generalizing b' with
  | pure =>
    cases hrun
    rfl
  | throw => cases hrun
  | places | terminate => exact Build.atPoint_nowhere hsite hrun
  | discard _ ih =>
    obtain ⟨a, hact⟩ := Build.discard_cases hrun
    exact ih hact

end Inscribes

namespace Code

variable {b b' : Builder} {l : Label} {f : Func} {u : Unit}

/-- What code writes comes behind what stands at the point. -/
theorem run_at (c : Code) (hids : (b.module.funcs.map Func.id).Nodup) (hl : b.point = some l)
    (hf : b.module.func? l.func = some f) (hrun : c.act b = .ok (u, b')) :
    ∃ lines term, Consecutive f.regs lines ∧
      b' = { b with module := b.module.setFunc (f.write l lines term) } ∧
      c.written b l = if l ∈ f.ownLabels then lines else [] := by
  obtain ⟨lines, term, hlines, hwrites⟩ := c.inscribes.run_at hl hf hrun
  have hhere := hrun.symm.trans (hwrites b f hids hl hf rfl rfl)
  have hemptied := hwrites b.emptied f.emptied (by rwa [Builder.ids_emptied]) hl
    (by rw [Builder.func?_emptied, hf]; rfl) rfl rfl
  refine ⟨lines, term, hlines, (Prod.mk.inj (Except.ok.inj hhere)).2, ?_⟩
  rw [written, StateT.run, hemptied]
  exact Builder.linesAt_write hf

/-- Without a block at the point nothing is written. -/
theorem run_nowhere (c : Code) (hsite : (b.point.bind fun l => b.module.func? l.func) = none)
    (hrun : c.act b = .ok (u, b')) : b' = b := c.inscribes.run_nowhere hsite hrun

theorem written_nowhere (c : Code) (hl : b.point = some l) (hf : b.module.func? l.func = none) :
    c.written b l = [] := by
  have hsite : (b.emptied.point.bind fun l => b.emptied.module.func? l.func) = none := by
    change (b.point.bind fun l => b.emptied.module.func? l.func) = none
    rw [hl, Option.bind_some, Builder.func?_emptied, hf]
    rfl
  rw [written]
  split
  next b' hrun =>
    obtain rfl := c.run_nowhere hsite hrun
    rw [Module.linesAt, Builder.func?_emptied, hf]
    rfl
  next => rfl

end Code

end Shader.Ir
