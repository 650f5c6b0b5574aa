import Shader.Proofs.Ir.Numbering
import Shader.Proofs.Ir.Requests

/-!
# Where reservations stand

Room can be reserved at any time: when the entry has been ended, when the point is in another block
or in another function, and when the function has been left and entered again. Wherever the point
is, the entry of a function holds the reservations that were asked for while the function was
current, one behind the other, and behind them what was written at its end. No other block holds a
reservation.

`Builder.Arranged` says so of a builder and of the notes of what was asked for. Every request keeps
it, as its notes come behind the others: `Request.arranged_act`. From that the arrangement follows
for all runs by induction on the requests.
-/

namespace Shader.Ir

/-! ## Notes -/

namespace Note

variable {id : FuncId} {l : Label} {ns ms : List Note}

theorem rooms_append : rooms id (ns ++ ms) = rooms id ns ++ rooms id ms := List.filterMap_append

theorem codeAt_append : codeAt l (ns ++ ms) = codeAt l ns ++ codeAt l ms := List.filterMap_append

theorem rooms_map_code {lines : List Line} : rooms id (lines.map (.code l)) = [] := by
  simp [rooms, List.filterMap_map]

theorem codeAt_map_code {k : Label} {lines : List Line} :
    codeAt k (lines.map (.code l)) = if l = k then lines else [] := by
  rw [codeAt, List.filterMap_map]
  split
  next heq => simp [heq]
  next hne => simp [hne]

/-- Notes about other functions are about no room of a function. -/
theorem rooms_eq_nil (h : ∀ n ∈ ns, n.func ≠ id) : rooms id ns = [] := by
  refine List.filterMap_eq_nil_iff.2 fun n hn => ?_
  cases n with
  | room func line => exact if_neg (h _ hn)
  | code => rfl

/-- Nor are they about its blocks. -/
theorem codeAt_eq_nil (h : ∀ n ∈ ns, n.func ≠ l.func) : codeAt l ns = [] := by
  refine List.filterMap_eq_nil_iff.2 fun n hn => ?_
  cases n with
  | room => rfl
  | code block line => exact if_neg fun heq => h _ hn (congrArg Label.func heq)

/-- What is noted as a reservation is one, and what is noted as code is none. -/
def Fits : Note → Prop
  | room _ line => line.inst.isAlloca = true
  | code _ line => line.inst.isAlloca = false

theorem isAlloca_of_mem_rooms (h : ∀ n ∈ ns, n.Fits) {line : Line} (hline : line ∈ rooms id ns) :
    line.inst.isAlloca = true := by
  obtain ⟨n, hn, hsome⟩ := List.mem_filterMap.1 hline
  cases n with
  | room func line' =>
    obtain ⟨-, rfl⟩ : func = id ∧ line' = line := by simpa using hsome
    exact h _ hn
  | code => cases hsome

theorem isAlloca_of_mem_codeAt (h : ∀ n ∈ ns, n.Fits) {line : Line} (hline : line ∈ codeAt l ns) :
    line.inst.isAlloca = false := by
  obtain ⟨n, hn, hsome⟩ := List.mem_filterMap.1 hline
  cases n with
  | room => cases hsome
  | code block line' =>
    obtain ⟨-, rfl⟩ : block = l ∧ line' = line := by simpa using hsome
    exact h _ hn

end Note

/-! ## Functions -/

/-- The blocks of a function hold what has been noted for it. -/
structure Func.Arranged (f : Func) (ns : List Note) : Prop where
  /-- the entry holds the reservations, and code behind them -/
  entry : ∀ e ∈ f.blocks.head?, e.lines = Note.rooms f.id ns ++ Note.codeAt e.label ns
  /-- the other blocks hold code -/
  others : ∀ c ∈ f.blocks.tail, c.lines = Note.codeAt c.label ns
  /-- the blocks are told to be in the function, and were made for it -/
  own : ∀ c ∈ f.blocks, c.label.func = f.id ∧ c.label.index < f.labels
  /-- nothing has been written to blocks that are not made yet -/
  new : ∀ l : Label, l.func = f.id → f.labels ≤ l.index → Note.codeAt l ns = []
  /-- nothing has been reserved before there is an entry -/
  idle : f.blocks = [] → Note.rooms f.id ns = []
  /-- and the reservations have been counted -/
  counted : (Note.rooms f.id ns).length = f.reserved
  /-- there is an entry once writing has begun -/
  begun : f.last = none ↔ f.blocks = []
  /-- all that has been noted was numbered -/
  below : ∀ n ∈ ns, n.func = f.id → n.line.reg < f.regs

theorem Func.blocks_addBlock_ne_nil {f : Func} {hint : String} : (f.addBlock hint).2.blocks ≠ [] :=
  List.append_ne_nil_of_right_ne_nil _ (List.cons_ne_nil _ _)

namespace Func.Arranged

variable {f : Func} {ns ms : List Note} {l : Label} {lines : List Line}

/-- What comes to other functions does not matter. -/
theorem foreign (h : f.Arranged ns) (hms : ∀ n ∈ ms, n.func ≠ f.id) : f.Arranged (ns ++ ms) := by
  have hrooms : Note.rooms f.id (ns ++ ms) = Note.rooms f.id ns := by
    rw [Note.rooms_append, Note.rooms_eq_nil hms, List.append_nil]
  have hcode : ∀ l : Label, l.func = f.id → Note.codeAt l (ns ++ ms) = Note.codeAt l ns := by
    intro l hl
    have hnil : Note.codeAt l ms = [] := Note.codeAt_eq_nil (by rwa [hl])
    rw [Note.codeAt_append, hnil, List.append_nil]
  refine ⟨fun e he => ?_, fun c hc => ?_, h.own, fun l hl hidx => ?_, fun hnil => ?_, ?_, h.begun,
    fun n hn hid => ?_⟩
  · rw [hrooms, hcode _ (h.own e (List.mem_of_mem_head? he)).1]
    exact h.entry e he
  · rw [hcode _ (h.own c (List.mem_of_mem_tail hc)).1]
    exact h.others c hc
  · rw [hcode l hl]
    exact h.new l hl hidx
  · rw [hrooms]
    exact h.idle hnil
  · rw [hrooms]
    exact h.counted
  · rcases List.mem_append.1 hn with hn | hn
    · exact h.below n hn hid
    · exact absurd hid (hms n hn)

/-- Code comes behind what stands in its block, if there is such a block. -/
theorem write (h : f.Arranged ns) (hl : l.func = f.id) (hlines : Consecutive f.regs lines)
    {term : Option Term} : (f.write l lines term).Arranged
      (ns ++ (if l ∈ f.ownLabels then lines else []).map (.code l)) := by
  -- what is noted is code of one block, so the rooms stay and only that block gets longer
  have hrooms : Note.rooms f.id (ns ++ (if l ∈ f.ownLabels then lines else []).map (.code l)) =
      Note.rooms f.id ns := by
    rw [Note.rooms_append, Note.rooms_map_code, List.append_nil]
  have hcode : ∀ c ∈ f.blocks,
      Note.codeAt c.label (ns ++ (if l ∈ f.ownLabels then lines else []).map (.code l)) =
        Note.codeAt c.label ns ++ if c.label = l then lines else [] := by
    intro c hc
    rw [Note.codeAt_append, Note.codeAt_map_code]
    by_cases hcl : l = c.label
    · subst hcl
      simp [ownLabels, List.mem_map_of_mem hc]
    · rw [if_neg hcl, if_neg (Ne.symm hcl)]
  constructor
  case entry =>
    intro e he
    rw [Func.write, List.head?_map] at he
    obtain ⟨c, hc, rfl⟩ := Option.map_eq_some_iff.1 he
    rw [Block.lines_write, Block.label_write, hcode c (List.mem_of_mem_head? hc),
      h.entry c hc, List.append_assoc]
    exact congrArg (· ++ _) hrooms.symm
  case others =>
    intro c hc
    rw [Func.write, ← List.map_tail] at hc
    obtain ⟨d, hd, rfl⟩ := List.mem_map.1 hc
    rw [Block.lines_write, Block.label_write, hcode d (List.mem_of_mem_tail hd), h.others d hd]
  case own =>
    intro c hc
    obtain ⟨d, hd, rfl⟩ := List.mem_map.1 hc
    rw [Block.label_write]
    exact h.own d hd
  case new =>
    intro k hk hidx
    rw [Note.codeAt_append, Note.codeAt_map_code, h.new k hk hidx, List.nil_append]
    split
    next heq =>
      subst heq
      refine if_neg fun hin => ?_
      obtain ⟨c, hc, rfl⟩ := List.mem_map.1 hin
      exact absurd (h.own c hc).2 (Nat.not_lt.2 hidx)
    next => rfl
  case idle =>
    intro hnil
    exact hrooms.trans (h.idle (List.map_eq_nil_iff.1 hnil))
  case counted =>
    exact (congrArg List.length hrooms).trans h.counted
  case begun =>
    exact h.begun.trans List.map_eq_nil_iff.symm
  case below =>
    intro n hn hid
    rcases List.mem_append.1 hn with hn | hn
    · exact Nat.lt_add_right _ (h.below n hn hid)
    · obtain ⟨line, hline, rfl⟩ := List.mem_map.1 hn
      exact (hlines.reg_mem (List.mem_ite_nil_right.1 hline).2).2

/-- At the head of an entry, as many reservations stand as have been counted: another one comes
behind them and in front of the code. -/
theorem insertAlloca_eq (h : f.Arranged ns) {e : Block} (he : e ∈ f.blocks.head?) (line : Line) :
    Emit.insertAlloca f.reserved line e.lines =
      Note.rooms f.id ns ++ line :: Note.codeAt e.label ns := by
  rw [h.entry e he, insertAlloca_append h.counted]

/-- A reservation is noted where it is made. -/
theorem reserve (h : f.Arranged ns) (hblocks : f.blocks ≠ []) {t : DataType} {hint : String} :
    (f.reserve t hint).Arranged (ns ++ [.room f.id (f.slotLine t hint)]) := by
  obtain ⟨e, rest, heq⟩ := List.exists_cons_of_ne_nil hblocks
  have hreserve : (f.reserve t hint).blocks =
      { e with lines := Emit.insertAlloca f.reserved (f.slotLine t hint) e.lines } :: rest := by
    simp [Func.reserve, heq, slotLine]
  -- a room is noted, so the code of all blocks is the same
  have hrooms : Note.rooms f.id (ns ++ [.room f.id (f.slotLine t hint)]) =
      Note.rooms f.id ns ++ [f.slotLine t hint] := by
    rw [Note.rooms_append]
    simp [Note.rooms]
  have hcode : ∀ l, Note.codeAt l (ns ++ [.room f.id (f.slotLine t hint)]) = Note.codeAt l ns := by
    intro l
    rw [Note.codeAt_append]
    simp [Note.codeAt]
  constructor
  case entry =>
    intro c hc
    rw [hreserve] at hc
    obtain rfl := Option.some.inj hc
    change Emit.insertAlloca f.reserved _ e.lines = Note.rooms f.id _ ++ Note.codeAt e.label _
    rw [h.insertAlloca_eq (by rw [heq]; rfl), hrooms, hcode, List.append_assoc,
      List.singleton_append]
  case others =>
    intro c hc
    rw [hcode]
    refine h.others c ?_
    rw [hreserve] at hc
    rwa [heq]
  case own =>
    intro c hc
    rw [hreserve] at hc
    rcases List.mem_cons.1 hc with rfl | hc
    · exact h.own e (by rw [heq]; exact List.mem_cons_self)
    · exact h.own c (by rw [heq]; exact List.mem_cons_of_mem _ hc)
  case new =>
    intro l hl hidx
    rw [hcode]
    exact h.new l hl hidx
  case idle =>
    intro hnil
    rw [hreserve] at hnil
    cases hnil
  case counted =>
    change (Note.rooms f.id _).length = f.reserved + 1
    rw [hrooms, List.length_append, h.counted]
    rfl
  case begun =>
    rw [hreserve]
    refine iff_of_false (fun hlast => hblocks (h.begun.1 hlast)) (by simp)
  case below =>
    intro n hn hid
    rcases List.mem_append.1 hn with hn | hn
    · exact Nat.lt_succ_of_lt (h.below n hn hid)
    · obtain rfl := List.mem_singleton.1 hn
      exact Nat.lt_succ_self _

/-- A new block is empty; the first one is the entry. -/
theorem addBlock (h : f.Arranged ns) {hint : String} {last : Option Label} (hlast : last ≠ none) :
    ({ (f.addBlock hint).2 with last } : Func).Arranged ns := by
  have hblocks : (f.addBlock hint).2.blocks = f.blocks ++ [{ label := (f.addBlock hint).1 }] := rfl
  have hnew : Note.codeAt (f.addBlock hint).1 ns = [] := h.new _ rfl (Nat.le_refl _)
  constructor
  case entry =>
    intro e he
    change e ∈ (f.addBlock hint).2.blocks.head? at he
    rw [hblocks] at he
    rcases hold : f.blocks with _ | ⟨c, rest⟩
    -- the first block is the entry, and neither rooms nor code are noted yet
    · rw [hold] at he
      obtain rfl := Option.some.inj he
      change [] = Note.rooms f.id ns ++ Note.codeAt (f.addBlock hint).1 ns
      rw [h.idle hold, hnew, List.append_nil]
    · refine h.entry e ?_
      rw [hold] at he ⊢
      exact he
  case others =>
    intro c hc
    change c ∈ (f.addBlock hint).2.blocks.tail at hc
    rw [hblocks] at hc
    rcases hold : f.blocks with _ | ⟨e, rest⟩
    · rw [hold] at hc
      cases hc
    · rw [hold] at hc
      rcases List.mem_append.1 hc with hc | hc
      · exact h.others c (by rw [hold]; exact hc)
      · obtain rfl := List.mem_singleton.1 hc
        exact hnew.symm
  case own =>
    intro c hc
    change c ∈ (f.addBlock hint).2.blocks at hc
    rw [hblocks] at hc
    rcases List.mem_append.1 hc with hc | hc
    · exact ⟨(h.own c hc).1, Nat.lt_succ_of_lt (h.own c hc).2⟩
    · obtain rfl := List.mem_singleton.1 hc
      exact ⟨rfl, Nat.lt_succ_self _⟩
  case new => exact fun l hl hidx => h.new l hl (Nat.le_of_succ_le hidx)
  case idle =>
    exact fun hnil => absurd hnil blocks_addBlock_ne_nil
  case counted => exact h.counted
  case begun =>
    exact iff_of_false hlast blocks_addBlock_ne_nil
  case below => exact h.below

/-- Names that have been asked for do not matter. -/
theorem renamed (h : f.Arranged ns) (names : List (String × Nat)) :
    ({ f with names } : Func).Arranged ns := ⟨h.1, h.2, h.3, h.4, h.5, h.6, h.7, h.8⟩

theorem foldl_countName : ∀ (names : List String) {f : Func}, f.Arranged ns →
    (names.foldl countName f).Arranged ns ∧ (names.foldl countName f).id = f.id
  | [], _, h => ⟨h, rfl⟩
  | _ :: names, _, h => foldl_countName names (h.renamed _)

/-- Writing a function begins with an empty entry, unless it has begun before. -/
theorem start (h : f.Arranged ns) (ν : Numbering) :
    (f.start ν).2.Arranged ns ∧ (f.start ν).2.id = f.id ∧ (f.start ν).2.blocks ≠ [] := by
  unfold Func.start
  split
  next l hlast =>
    refine ⟨h, rfl, fun hnil => ?_⟩
    rw [h.begun.2 hnil] at hlast
    cases hlast
  next =>
    obtain ⟨hnamed, hid⟩ := foldl_countName (f.paramNames ν) h
    exact ⟨hnamed.addBlock (Option.some_ne_none _), hid, blocks_addBlock_ne_nil⟩

/-- Where writing goes on is moved. -/
theorem moved (h : f.Arranged ns) (hblocks : f.blocks ≠ []) (l : Label) :
    ({ f with last := some l } : Func).Arranged ns :=
  ⟨h.1, h.2, h.3, h.4, h.5, h.6, iff_of_false (by simp) hblocks, h.8⟩

/-- A function that has just been declared, of which nothing has been noted. -/
theorem declared {id : FuncId} {result : Ty} {params : List Formal} (h : ∀ n ∈ ns, n.func ≠ id) :
    ({ id, result, params } : Func).Arranged ns where
  entry := nofun
  others := nofun
  own := nofun
  new := fun _ hl _ => Note.codeAt_eq_nil (by rwa [hl])
  idle := fun _ => Note.rooms_eq_nil h
  counted := congrArg List.length (Note.rooms_eq_nil h)
  begun := iff_of_true rfl rfl
  below := fun n hn hid => absurd hid (h n hn)

end Func.Arranged

/-! ## Builders -/

namespace Module

variable {m : Module} {g : Func}

theorem ids_setFunc (m : Module) (g : Func) :
    (m.setFunc g).funcs.map Func.id = m.funcs.map Func.id := by
  rw [setFunc, List.map_map]
  refine List.map_congr_left fun f _ => ?_
  change (if f.id = g.id then g else f).id = f.id
  split
  next heq => exact heq.symm
  next => rfl

theorem func?_setFunc_ne {id : FuncId} (hne : id ≠ g.id) :
    (m.setFunc g).func? id = m.func? id := by
  rw [func?, func?, setFunc]
  induction m.funcs with
  | nil => rfl
  | cons f fs ih =>
    rw [List.map_cons, List.find?_cons, List.find?_cons, ih]
    by_cases hf : f.id = g.id
    · simp [hf, Ne.symm hne]
    · simp [hf]

end Module

namespace Builder

variable {b : Builder} {ns ms : List Note} {f g : Func} {id : FuncId}

/-- Writing a function has begun. -/
def Begun (b : Builder) (id : FuncId) : Prop :=
  ∃ f, b.module.func? id = some f ∧ f.blocks ≠ []

theorem Begun.setFunc (h : b.Begun id) (hf : b.module.func? g.id = some f)
    (hblocks : f.blocks ≠ [] → g.blocks ≠ []) :
    ({ b with module := b.module.setFunc g } : Builder).Begun id := by
  obtain ⟨x, hx, hne⟩ := h
  by_cases hid : id = g.id
  · subst hid
    obtain rfl := Option.some.inj (hf.symm.trans hx)
    exact ⟨g, Module.func?_setFunc hf, hblocks hne⟩
  · exact ⟨x, (Module.func?_setFunc_ne hid).trans hx, hne⟩

theorem Begun.declare (h : b.Begun id) {name : String} {result : Ty} {params : List Formal} :
    ({ b with module := (b.module.declareFunc name result params).2 } : Builder).Begun id := by
  obtain ⟨f, hf, hne⟩ := h
  refine ⟨f, ?_, hne⟩
  rw [Module.func?] at hf ⊢
  simp only [Module.declareFunc, List.find?_append, hf, Option.some_or]

/-- The functions of a module hold what has been noted for them. -/
structure Arranged (b : Builder) (ns : List Note) : Prop where
  /-- each of them does -/
  funcs : ∀ f ∈ b.module.funcs, f.Arranged ns
  /-- they are told apart -/
  nodup : (b.module.funcs.map Func.id).Nodup
  /-- each counts fewer than have its name -/
  copies : ∀ i ∈ b.module.funcs.map Func.id,
    i.copy < (b.module.funcs.map Func.id).countP fun k => k.name = i.name
  /-- writing the current function has begun -/
  current : ∀ id ∈ b.current, b.Begun id
  /-- the notes are about these functions -/
  known : ∀ n ∈ ns, n.func ∈ b.module.funcs.map Func.id
  /-- reservations are noted as such -/
  fits : ∀ n ∈ ns, n.Fits
  /-- the notes about a function are in the order of their numbers -/
  sorted : ns.Pairwise fun m n => m.func = n.func → m.line.reg < n.line.reg

namespace Arranged

theorem start : ({} : Builder).Arranged [] where
  funcs := List.forall_mem_nil _
  nodup := List.nodup_nil
  copies := List.forall_mem_nil _
  current := fun _ hid => by cases hid
  known := List.forall_mem_nil _
  fits := List.forall_mem_nil _
  sorted := .nil

theorem func (h : b.Arranged ns) (hf : b.module.func? id = some f) : f.Arranged ns :=
  h.funcs f (List.mem_of_find?_eq_some hf)

/-- The current function has an entry. -/
theorem blocks_ne_nil (h : b.Arranged ns) (hid : b.current = some id)
    (hf : b.module.func? id = some f) : f.blocks ≠ [] := by
  obtain ⟨g, hg, hne⟩ := h.current id hid
  rwa [Option.some.inj (hf.symm.trans hg)]

/-- Neither the point nor what is not about functions matters, as long as writing the current
function has begun. -/
theorem goto (h : b.Arranged ns) {current : Option FuncId} (hcurrent : ∀ id ∈ current, b.Begun id)
    {globals : List Global} {numbers : Numbering} {point : Option Label} :
    ({ module := { b.module with globals, numbers }, current, point } : Builder).Arranged ns :=
  ⟨h.funcs, h.nodup, h.copies, hcurrent, h.known, h.fits, h.sorted⟩

/-- A function is changed, and what comes to it is noted. -/
theorem setFunc (h : b.Arranged ns) (hf : b.module.func? g.id = some f)
    (hg : g.Arranged (ns ++ ms)) (hblocks : f.blocks ≠ [] → g.blocks ≠ [])
    (hms : ∀ n ∈ ms, n.func = g.id ∧ f.regs ≤ n.line.reg ∧ n.Fits)
    (hsorted : ms.Pairwise fun m n => m.line.reg < n.line.reg) :
    ({ b with module := b.module.setFunc g } : Builder).Arranged (ns ++ ms) := by
  constructor
  case funcs =>
    intro x hx
    obtain ⟨y, hy, rfl⟩ := List.mem_map.1 hx
    split
    next => exact hg
    next hne => exact (h.funcs y hy).foreign fun n hn heq => hne (heq.symm.trans (hms n hn).1)
  case nodup => exact (Module.ids_setFunc b.module g).symm ▸ h.nodup
  case copies => exact (Module.ids_setFunc b.module g).symm ▸ h.copies
  case current => exact fun id hid => (h.current id hid).setFunc hf hblocks
  case known =>
    intro n hn
    rw [Module.ids_setFunc]
    rcases List.mem_append.1 hn with hn | hn
    · exact h.known n hn
    · rw [(hms n hn).1, ← Module.id_of_func? hf]
      exact List.mem_map_of_mem (List.mem_of_find?_eq_some hf)
  case fits =>
    intro n hn
    exact (List.mem_append.1 hn).elim (h.fits n) fun hn => (hms n hn).2.2
  case sorted =>
    rw [List.pairwise_append]
    refine ⟨h.sorted, hsorted.imp ?_, fun m hm n hn heq => ?_⟩
    · intro m n hlt _
      exact hlt
    have hid : m.func = f.id := (heq.trans (hms n hn).1).trans (Module.id_of_func? hf).symm
    exact Nat.lt_of_lt_of_le ((h.func hf).below m hm hid) (hms n hn).2.1

/-- A function is changed without anything that is noted. -/
theorem setFunc_same (h : b.Arranged ns) (hf : b.module.func? g.id = some f)
    (hg : g.Arranged ns) (hblocks : f.blocks ≠ [] → g.blocks ≠ []) :
    ({ b with module := b.module.setFunc g } : Builder).Arranged ns := by
  have hmore : g.Arranged (ns ++ []) := by rwa [List.append_nil]
  have hset := h.setFunc hf hmore hblocks (List.forall_mem_nil _) .nil
  rwa [List.append_nil] at hset

/-- A function that has been declared is told apart from the others. -/
theorem declare (h : b.Arranged ns) {name : String} {result : Ty} {params : List Formal} :
    ({ b with module := (b.module.declareFunc name result params).2 } : Builder).Arranged ns := by
  have hids : (b.module.declareFunc name result params).2.funcs.map Func.id =
      b.module.funcs.map Func.id ++ [(b.module.declareFunc name result params).1.id] :=
    List.map_append
  have hcopy : (b.module.declareFunc name result params).1.id.copy =
      (b.module.funcs.map Func.id).countP fun k => k.name = name := by
    rw [List.countP_map, List.countP_eq_length_filter]
    rfl
  -- The new function counts those that have its name, which is more than any of them counts.
  have hnew : (b.module.declareFunc name result params).1.id ∉ b.module.funcs.map Func.id := by
    intro hmem
    have := h.copies _ hmem
    rw [hcopy] at this
    exact Nat.lt_irrefl _ this
  constructor
  case funcs =>
    intro f hf
    rcases List.mem_append.1 hf with hf | hf
    · exact h.funcs f hf
    · obtain rfl := List.mem_singleton.1 hf
      refine Func.Arranged.declared fun n hn heq => hnew ?_
      exact Eq.mp (congrArg (· ∈ _) heq) (h.known n hn)
  case nodup =>
    rw [hids]
    exact List.nodup_append.2 ⟨h.nodup, List.nodup_singleton _, fun i hi k hk heq =>
      hnew (List.mem_singleton.1 hk ▸ heq ▸ hi)⟩
  case copies =>
    intro i hi
    rw [hids] at hi ⊢
    rw [List.countP_append]
    rcases List.mem_append.1 hi with hi | hi
    · exact Nat.lt_add_right _ (h.copies i hi)
    · obtain rfl := List.mem_singleton.1 hi
      rw [hcopy]
      exact Nat.lt_add_of_pos_right (by simp [Module.declareFunc])
  case current => exact fun id hid => (h.current id hid).declare
  case known =>
    intro n hn
    rw [hids]
    exact List.mem_append_left _ (h.known n hn)
  case fits => exact h.fits
  case sorted => exact h.sorted

end Arranged

end Builder

/-! ## Requests -/

/-- Printing gives numbers, and changes nothing else. -/
theorem Module.exists_print (m : Module) : ∃ numbers, m.print.1 = { m with numbers } := by
  unfold Module.print
  split
  next numbers _ _ => exact ⟨numbers, rfl⟩
  next => exact ⟨_, rfl⟩

namespace Build

variable {α : Type} {b b' : Builder}

theorem get_cases {rest : Builder → Build α} {a : α} (h : (get >>= rest) b = .ok (a, b')) :
    rest b b = .ok (a, b') := h

/-- What fails or not, and nothing else, does not change the builder. -/
theorem lift_cases {x : Except Fault α} {a : α} (h : (liftM x : Build α) b = .ok (a, b')) :
    x = .ok a ∧ b' = b := by
  rcases x with e | a
  · cases h
  · cases h
    exact ⟨rfl, rfl⟩

/-- What is written to the current function. -/
theorem inCurrent_cases {act : Emit α} {a : α} (h : inCurrent act b = .ok (a, b')) :
    ∃ id f d, b.current = some id ∧ b.module.func? id = some f ∧
      act { func := f } = .ok (a, d) ∧ b' = { b with module := b.module.setFunc d.func } := by
  have hrun := get_cases h
  rcases hcurrent : b.current with _ | id
  · simp only [hcurrent, Option.bind_none] at hrun
    cases hrun
  rcases hf : b.module.func? id with _ | f
  · simp only [hcurrent, Option.bind_some, hf] at hrun
    cases hrun
  simp only [hcurrent, Option.bind_some, hf] at hrun
  obtain ⟨⟨a', d⟩, b₁, hact, hset⟩ := bind_cases hrun
  obtain ⟨hd, rfl⟩ := lift_cases hact
  cases hset
  exact ⟨id, f, d, rfl, hf, hd, rfl⟩

theorem params_cases {params : List ParamSpec} : ∀ {b b' : Builder} {formals : List Formal},
    (params.mapM fun (name, t, out) => do
      let t := Ty.ofData (← dataType t)
      return ({ name, type := if out then .pointer t else t } : Formal) : Build (List Formal)) b =
        .ok (formals, b') → b' = b := by
  induction params with
  | nil =>
    rintro b _ _ ⟨⟩
    rfl
  | cons p params ih =>
    intro b b' formals h
    rw [List.mapM_cons] at h
    obtain ⟨_, b₁, hone, hrest⟩ := bind_cases h
    obtain ⟨t, b₂, ht, hpure⟩ := bind_cases hone
    obtain ⟨-, rfl⟩ := lift_cases ht
    cases hpure
    obtain ⟨_, b₃, hmore, hpure⟩ := bind_cases hrest
    cases hpure
    exact ih hmore

theorem declareFunc_cases {name : String} {result : ValueType} {params : List ParamSpec} {f : Func}
    (h : declareFunc name result params b = .ok (f, b')) : ∃ t formals,
      b' = { b with module := (b.module.declareFunc name t formals).2 } := by
  obtain ⟨formals, b₁, hparams, hrest⟩ := bind_cases h
  obtain rfl := params_cases hparams
  obtain ⟨t, b₂, ht, hset⟩ := bind_cases hrest
  obtain ⟨-, rfl⟩ := lift_cases ht
  cases hset
  exact ⟨Ty.ofData t, formals, rfl⟩

theorem declareGlobal_cases {name : String} {t : ValueType} {storage : Storage}
    {layout : List LayoutEntry} {v : Value}
    (h : declareGlobal name t storage layout b = .ok (v, b')) :
    ∃ globals, b' = { b with module := { b.module with globals } } := by
  obtain ⟨t, b₁, ht, hrest⟩ := bind_cases h
  obtain ⟨-, rfl⟩ := lift_cases ht
  cases hrest
  exact ⟨_, rfl⟩

/-- A function has become current. -/
theorem enter_cases {id : FuncId} {l : Label} (h : enter id b = .ok (l, b')) :
    ∃ f, b.module.func? id = some f ∧ b' =
      { module := b.module.setFunc (f.start b.module.numbers).2
        current := some id, point := some (f.start b.module.numbers).1 } := by
  have hrun := get_cases h
  rcases hf : b.module.func? id with _ | f
  · simp only [hf] at hrun
    cases hrun
  · simp only [hf] at hrun
    cases hrun
    exact ⟨f, rfl, rfl⟩

/-- The current function has been left, and it has been kept where the point was, if anywhere. -/
theorem leave_cases {u : Unit} (h : leave b = .ok (u, b')) :
    b' = { b with current := none } ∨ ∃ id f l, b.current = some id ∧
      b.module.func? id = some f ∧ b' =
        { module := b.module.setFunc { f with last := some l }
          current := none, point := none } := by
  have hrun := get_cases h
  rcases hpoint : b.point with _ | l
  · simp only [hpoint] at hrun
    cases hrun
    exact .inl rfl
  rcases hcurrent : b.current with _ | id
  · simp only [hpoint, hcurrent, Option.bind_none] at hrun
    cases hrun
  rcases hf : b.module.func? id with _ | f
  · simp only [hpoint, hcurrent, Option.bind_some, hf] at hrun
    cases hrun
  simp only [hpoint, hcurrent, Option.bind_some, hf] at hrun
  cases hrun
  exact .inr ⟨id, f, l, rfl, hf, rfl⟩

theorem alloca_cases {t : ValueType} {hint : String} {v : Value}
    (h : alloca t hint b = .ok (v, b')) :
    ∃ t' : DataType, t = .data t' ∧ inCurrent (Emit.alloca t' hint) b = .ok (v, b') := by
  obtain ⟨t', b₁, ht, hrest⟩ := bind_cases h
  obtain ⟨hdata, rfl⟩ := lift_cases ht
  cases t with
  | data t =>
    obtain rfl := Except.ok.inj hdata
    exact ⟨t, rfl, hrest⟩
  | error | unlisted => cases hdata

end Build

namespace Request

variable {b b' : Builder} {ns : List Note}

/-- Notes of what requests do come behind those of what has been done before. -/
def Keeps (b : Builder) (ns : List Note) (b' : Builder) (ms : List Note) : Prop :=
  b'.Arranged (ns ++ ms) ∧ ∀ id, b.Begun id → b'.Begun id

/-- Nothing is noted of a request that only moves the point or is not about functions. -/
theorem keeps_goto (h : b.Arranged ns) {current : Option FuncId}
    (hcurrent : ∀ id ∈ current, b.Begun id) {globals : List Global} {numbers : Numbering}
    {point : Option Label} :
    Keeps b ns { module := { b.module with globals, numbers }, current, point } [] := by
  refine ⟨?_, fun id hid => hid⟩
  rw [List.append_nil]
  exact h.goto hcurrent

/-- Nothing is noted where a function is changed but no instruction written. -/
theorem keeps_setFunc (h : b.Arranged ns) {f g : Func} (hf : b.module.func? g.id = some f)
    (hg : g.Arranged ns) (hblocks : f.blocks ≠ [] → g.blocks ≠ []) :
    Keeps b ns { b with module := b.module.setFunc g } [] := by
  refine ⟨?_, fun id hid => hid.setFunc hf hblocks⟩
  rw [List.append_nil]
  exact h.setFunc_same hf hg hblocks

theorem keeps_write (h : b.Arranged ns) {code : Code} {u : Unit}
    (hrun : code.act b = .ok (u, b')) : Keeps b ns b' ((write code).notes b) := by
  rcases hpoint : b.point with _ | l
  · obtain rfl := code.run_nowhere (by rw [hpoint]; rfl) hrun
    simp only [notes, hpoint, Option.elim_none]
    exact keeps_goto h h.current
  rcases hf : b.module.func? l.func with _ | f
  · obtain rfl := code.run_nowhere (by rw [hpoint]; exact hf) hrun
    simp only [notes, hpoint, Option.elim_some, code.written_nowhere hpoint hf, List.map_nil]
    exact keeps_goto h h.current
  obtain ⟨lines, term, hlines, rfl, hwritten⟩ := code.run_at h.nodup hpoint hf hrun
  have hid : f.id = l.func := Module.id_of_func? hf
  have hf' : b.module.func? (f.write l lines term).id = some f := Module.func?_self hf
  have hblocks : f.blocks ≠ [] → (f.write l lines term).blocks ≠ [] := fun hne hnil =>
    hne (List.map_eq_nil_iff.1 hnil)
  have hnotes : (write code).notes b = (if l ∈ f.ownLabels then lines else []).map (.code l) := by
    simp only [notes, hpoint, Option.elim_some, hwritten]
  rw [hnotes]
  refine ⟨h.setFunc hf' ((h.func hf).write hid.symm hlines) hblocks ?_ ?_,
    fun id hbegun => hbegun.setFunc hf' hblocks⟩
  · intro n hn
    obtain ⟨line, hline, rfl⟩ := List.mem_map.1 hn
    replace hline : line ∈ lines := (List.mem_ite_nil_right.1 hline).2
    exact ⟨hid.symm, (hlines.reg_mem hline).1, hlines.noRoom line hline⟩
  · rw [List.pairwise_map]
    split
    · exact hlines.sorted
    · exact .nil

/-- One reservation is noted, and the address of its room is what comes of it. -/
theorem notes_alloca {t : ValueType} {hint : String} {v : Value}
    (hrun : Build.alloca t hint b = .ok (v, b')) : ∃ id line type,
      (alloca t hint).notes b = [.room id line] ∧ line.inst = .alloca type ∧
      v = .result id line.reg line.name (.pointer type) := by
  obtain ⟨t', rfl, hcurrent⟩ := Build.alloca_cases hrun
  obtain ⟨id, f, d, hid, hf, hact, -⟩ := Build.inCurrent_cases hcurrent
  obtain ⟨-, rfl, -⟩ := Emit.alloca_cases hact
  exact ⟨f.id, f.slotLine t' hint, Ty.ofData t', by simp [notes, hid, hf], rfl, rfl⟩

theorem keeps_alloca (h : b.Arranged ns) {t : ValueType} {hint : String} {v : Value}
    (hrun : Build.alloca t hint b = .ok (v, b')) : Keeps b ns b' ((alloca t hint).notes b) := by
  obtain ⟨t', rfl, hcurrent⟩ := Build.alloca_cases hrun
  obtain ⟨id, f, d, hid, hf, hact, rfl⟩ := Build.inCurrent_cases hcurrent
  obtain ⟨hne, rfl, rfl⟩ := Emit.alloca_cases hact
  have hf' : b.module.func? (f.reserve t' hint).id = some f := Module.func?_self hf
  have hblocks : f.blocks ≠ [] → (f.reserve t' hint).blocks ≠ [] := fun hne => by
    simpa [Func.reserve, List.modify_eq_nil_iff] using hne
  have hnotes : (alloca (.data t') hint).notes b = [.room f.id (f.slotLine t' hint)] := by
    simp [notes, hid, hf]
  rw [hnotes]
  refine ⟨h.setFunc hf' ((h.func hf).reserve hne) hblocks ?_ (List.pairwise_singleton _ _),
    fun id hbegun => hbegun.setFunc hf' hblocks⟩
  intro n hn
  obtain rfl := List.mem_singleton.1 hn
  exact ⟨rfl, Nat.le_refl _, rfl⟩

theorem keeps_enter (h : b.Arranged ns) {id : FuncId} {l : Label}
    (hrun : Build.enter id b = .ok (l, b')) : Keeps b ns b' [] ∧ b'.Begun id := by
  obtain ⟨f, hf, rfl⟩ := Build.enter_cases hrun
  obtain ⟨hstart, hid, hne⟩ := (h.func hf).start b.module.numbers
  rw [Module.id_of_func? hf] at hid
  have hf' : b.module.func? (f.start b.module.numbers).2.id = some f := by rw [hid, hf]
  obtain ⟨harranged, hbegun⟩ := keeps_setFunc h hf' hstart fun _ => hne
  rw [List.append_nil] at harranged
  have hentered : ∀ k ∈ some id,
      ({ b with module := b.module.setFunc (f.start b.module.numbers).2 } : Builder).Begun k := by
    rintro k ⟨⟩
    exact ⟨_, hid ▸ Module.func?_setFunc hf', hne⟩
  exact ⟨⟨(keeps_goto harranged hentered).1, hbegun⟩, hentered id rfl⟩

theorem keeps_leave (h : b.Arranged ns) {u : Unit} (hrun : Build.leave b = .ok (u, b')) :
    Keeps b ns b' [] := by
  obtain rfl | ⟨id, f, l, hid, hf, rfl⟩ := Build.leave_cases hrun
  · exact keeps_goto h fun _ hk => by cases hk
  · have hf' : b.module.func? ({ f with last := some l } : Func).id = some f := Module.func?_self hf
    have hne : f.blocks ≠ [] := h.blocks_ne_nil hid hf
    obtain ⟨harranged, hbegun⟩ := keeps_setFunc h hf' ((h.func hf).moved hne l) fun hne => hne
    rw [List.append_nil] at harranged
    refine ⟨(keeps_goto harranged fun _ hk => ?_).1, hbegun⟩
    cases hk

/-- What is done to the current function without an instruction. -/
theorem keeps_inCurrent (h : b.Arranged ns) {α : Type} {act : Emit α} {a : α}
    (hact : ∀ (f : Func) a d, f.Arranged ns → f.blocks ≠ [] → act { func := f } = .ok (a, d) →
      d.func.id = f.id ∧ d.func.Arranged ns ∧ d.func.blocks ≠ [])
    (hrun : Build.inCurrent act b = .ok (a, b')) : Keeps b ns b' [] := by
  obtain ⟨id, f, d, hid, hf, hd, rfl⟩ := Build.inCurrent_cases hrun
  obtain ⟨hdid, harranged, hdne⟩ := hact f a d (h.func hf) (h.blocks_ne_nil hid hf) hd
  have hf' : b.module.func? d.func.id = some f := by
    rw [hdid]
    exact Module.func?_self hf
  exact keeps_setFunc h hf' harranged fun _ => hdne

theorem keeps_declare (h : b.Arranged ns) {name : String} {result : Ty} {params : List Formal} :
    Keeps b ns { b with module := (b.module.declareFunc name result params).2 } [] := by
  refine ⟨?_, fun id hid => hid.declare⟩
  rw [List.append_nil]
  exact h.declare

/-- Every request keeps the arrangement of the functions. -/
theorem keeps_act (h : b.Arranged ns) {r : Request} {u : Unit} (hrun : r.act b = .ok (u, b')) :
    Keeps b ns b' (r.notes b) := by
  cases r with
  | declareFunc name result params =>
    obtain ⟨f, hdeclare⟩ := Build.discard_cases hrun
    obtain ⟨t, formals, rfl⟩ := Build.declareFunc_cases hdeclare
    exact keeps_declare h
  | declareGlobal name t storage layout =>
    obtain ⟨v, hdeclare⟩ := Build.discard_cases hrun
    obtain ⟨globals, rfl⟩ := Build.declareGlobal_cases hdeclare
    exact keeps_goto h h.current
  | enter id =>
    obtain ⟨l, henter⟩ := Build.discard_cases hrun
    exact (keeps_enter h henter).1
  | leave => exact keeps_leave h hrun
  | newBlock hint =>
    obtain ⟨l, hblock⟩ := Build.discard_cases hrun
    refine keeps_inCurrent h (fun f l d hf hne hd => ?_) hblock
    obtain ⟨-, rfl⟩ := Emit.newBlock_cases hd
    -- a block is asked for where the point is, so there is one already
    have hlast : f.last ≠ none := fun hnone => hne (hf.begun.1 hnone)
    exact ⟨rfl, hf.addBlock hlast, Func.blocks_addBlock_ne_nil⟩
  | openBlocks =>
    obtain ⟨ls, hblocks⟩ := Build.discard_cases hrun
    refine keeps_inCurrent h (fun f l d hf hne hd => ?_) hblocks
    cases hd
    exact ⟨rfl, hf, hne⟩
  | setPoint p =>
    cases hrun
    exact keeps_goto h h.current
  | point =>
    cases hrun
    exact keeps_goto h h.current
  | zero t =>
    obtain ⟨v, hzero⟩ := Build.discard_cases hrun
    obtain ⟨t', b₁, ht, hpure⟩ := Build.bind_cases hzero
    obtain ⟨-, rfl⟩ := Build.lift_cases ht
    cases hpure
    exact keeps_goto h h.current
  | alloca t hint =>
    obtain ⟨v, halloca⟩ := Build.discard_cases hrun
    exact keeps_alloca h halloca
  | write code => exact keeps_write h hrun
  | print =>
    cases hrun
    obtain ⟨numbers, hprint⟩ := Module.exists_print b.module
    change Keeps b ns { b with module := b.module.print.1 } []
    rw [hprint]
    exact keeps_goto h h.current

theorem begun_enter (h : b.Arranged ns) {id : FuncId} {u : Unit}
    (hrun : (enter id).act b = .ok (u, b')) : b'.Begun id := by
  obtain ⟨l, henter⟩ := Build.discard_cases hrun
  exact (keeps_enter h henter).2

/-- So do requests one after another, and writing has begun where a function has been entered. -/
theorem keeps_acts : ∀ {rs : List Request} {b : Builder} {ns : List Note} {u : Unit},
    b.Arranged ns → acts rs b = .ok (u, b') →
      Keeps b ns b' (history b rs) ∧ ∀ id, enter id ∈ rs → b'.Begun id
  | [], b, ns, _, h, hrun => by
    cases hrun
    exact ⟨keeps_goto h h.current, fun _ hid => absurd hid List.not_mem_nil⟩
  | r :: rs, b, ns, _, h, hrun => by
    -- What the first request brings is noted already when the others are looked at.
    obtain ⟨⟨⟩, b₁, hone, hmore⟩ := Build.bind_cases hrun
    obtain ⟨harranged, hbegun⟩ := keeps_act h hone
    obtain ⟨⟨hall, hbegun'⟩, hentered⟩ := keeps_acts harranged hmore
    have hhistory : history b (r :: rs) = r.notes b ++ history b₁ rs := by
      rw [history, StateT.run, hone]
    refine ⟨⟨?_, fun id hid => hbegun' id (hbegun id hid)⟩, fun id hid => ?_⟩
    · rw [hhistory, ← List.append_assoc]
      exact hall
    · rcases List.mem_cons.1 hid with rfl | hid
      · exact hbegun' id (begun_enter h hone)
      · exact hentered id hid

/-- After any requests, the entry of a function that has been entered holds the reservations that
were asked for while the function was current, in their order, and behind them what was written at
its end, in the order of writing. The other blocks hold what was written to them, and no
reservation. Numbers tell the order in which the instructions of a function were written. -/
theorem arranges_entries {rs : List Request} {b : Builder} (h : (acts rs).run {} = .ok ((), b)) :
    (∀ id, enter id ∈ rs → ∃ f entry others, b.module.func? id = some f ∧
      f.blocks = entry :: others ∧ entry.lines =
        Note.rooms id (history {} rs) ++ Note.codeAt entry.label (history {} rs)) ∧
    (∀ f ∈ b.module.funcs, ∀ c ∈ f.blocks.tail, c.lines = Note.codeAt c.label (history {} rs) ∧
      ∀ line ∈ c.lines, line.inst.isAlloca = false) ∧
    (∀ id, ∀ line ∈ Note.rooms id (history {} rs), line.inst.isAlloca = true) ∧
    (∀ l, ∀ line ∈ Note.codeAt l (history {} rs), line.inst.isAlloca = false) ∧
    (history {} rs).Pairwise fun m n => m.func = n.func → m.line.reg < n.line.reg := by
  obtain ⟨⟨harranged, -⟩, hbegun⟩ := keeps_acts Builder.Arranged.start h
  rw [List.nil_append] at harranged
  refine ⟨fun id hid => ?_, fun f hf c hc => ?_, fun id line hline => ?_, fun l line hline => ?_,
    harranged.sorted⟩
  · obtain ⟨f, hf, hne⟩ := hbegun id hid
    obtain ⟨entry, others, hblocks⟩ := List.exists_cons_of_ne_nil hne
    refine ⟨f, entry, others, hf, hblocks, ?_⟩
    rw [← Module.id_of_func? hf]
    exact (harranged.func hf).entry entry (by rw [hblocks]; rfl)
  · have hlines := (harranged.funcs f hf).others c hc
    refine ⟨hlines, fun line hline => ?_⟩
    rw [hlines] at hline
    exact Note.isAlloca_of_mem_codeAt harranged.fits hline
  · exact Note.isAlloca_of_mem_rooms harranged.fits hline
  · exact Note.isAlloca_of_mem_codeAt harranged.fits hline

/-- Two functions that are written in turns: room is reserved behind the end of an entry, and a
vector is made in the entry of the function that is not current. -/
def interleaved : List Request :=
  let f : FuncId := ⟨"f", 0⟩
  let g : FuncId := ⟨"g", 0⟩
  let next : Label := ⟨f, 1, "next"⟩
  [ .declareFunc "f" (.data .int) [("c", .data .int, false)],
    .declareFunc "g" (.data .void) [],
    .enter f, .alloca (.data .int) "a",
    .write (.store (.param f 0 "c" .i32) (.result f 0 "a" (.pointer .i32))),
    .newBlock "next", .write (.br next), .setPoint (some next), .alloca (.data .float) "x", .leave,
    .enter g, .alloca (.data .int) "y", .setPoint (some ⟨f, 0, "entry"⟩),
    .write (.const (.data (.vector .float .two)) .zero), .setPoint (some ⟨g, 0, "entry"⟩),
    .write (.ret none), .leave,
    .enter f, .alloca (.data .bool) "b", .write (.ret (some (.int 0))), .leave ]

theorem arranges_entries_interleaved : ∃ b f entry others,
    (acts interleaved).run {} = .ok ((), b) ∧ b.module.func? ⟨"f", 0⟩ = some f ∧
    f.blocks = entry :: others ∧ entry.lines = Note.rooms ⟨"f", 0⟩ (history {} interleaved) ++
      Note.codeAt entry.label (history {} interleaved) ∧
    (Note.rooms ⟨"f", 0⟩ (history {} interleaved)).map Line.name = ["a", "x", "b"] ∧
    (Note.rooms ⟨"g", 0⟩ (history {} interleaved)).map Line.name = ["y"] ∧
    (Note.codeAt ⟨⟨"f", 0⟩, 0, "entry"⟩ (history {} interleaved)).map Line.reg = [1, 3, 4] := by
  rcases hrun : (acts interleaved).run {} with e | ⟨⟨⟩, b⟩
  · have hok : ((acts interleaved).run {}).toOption.isSome = true := by decide +kernel
    rw [hrun] at hok
    cases hok
  · obtain ⟨hentries, -⟩ := arranges_entries hrun
    obtain ⟨f, entry, others, hf, hblocks, hlines⟩ :=
      hentries ⟨"f", 0⟩ (by simp [interleaved])
    exact ⟨b, f, entry, others, rfl, hf, hblocks, hlines, by decide +kernel, by decide +kernel,
      by decide +kernel⟩

end Request

end Shader.Ir
