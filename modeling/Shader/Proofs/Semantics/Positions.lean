import Shader.Proofs.Ir.Numbering
import Shader.Proofs.Ir.WellFormed
import Shader.Proofs.Semantics.Machine

/-!
# Positions

While a function is written, the end of what has been written is a position of the machine: it has
carried out the instructions of the block at the point that are there now, and those that will be
written next come next. `Draft.Here` says that a configuration is at the point of a draft, with
respect to the finished function, and this module says how the machine goes on from there when an
instruction or a terminator has been written.

Room is reserved at the head of the entry, and no other instruction has the number of a
reservation. So once the reservations have been carried out, the addresses stay where they are.
-/

namespace Shader.Ir

namespace Func

/-- A function whose code has been written step by step. -/
structure Executable (f : Func) : Prop where
  /-- labels are places -/
  tidy : f.Tidy
  /-- control stays in the function, and does not come back to the entry -/
  shaped : f.Shaped
  /-- numbers tell instructions apart -/
  numbered : f.Numbered
  /-- room is reserved first -/
  slotsFirst : f.SlotsFirst

/-- The reservations of a function. -/
def slots (f : Func) : List Line := (f.blocks.head?.map Block.slots).getD []

/-- Each reservation has a cell, and there are no other cells. -/
structure Housed (f : Func) (c : Config) : Prop where
  /-- the address of a reservation -/
  cells : ∀ (i : Nat) line, f.slots[i]? = some line → c.regs line.reg = some (.cell i)
  /-- the number of cells -/
  size : c.memory.length = f.slots.length

variable {f : Func} {c c' : Config}

/-- A reservation stands in the entry. -/
theorem Executable.mem_slots (h : f.Executable) {line : Line} (hline : line ∈ f.slots) :
    ∃ l b, f.At l b ∧ line ∈ b.lines ∧ line.inst.isAlloca = true := by
  rcases hblocks : f.blocks with _ | ⟨entry, blocks⟩
  · exact absurd hblocks h.tidy.entry
  · have hslots : f.slots = entry.slots := by simp [slots, hblocks]
    rw [hslots] at hline
    obtain ⟨hmem, ha⟩ := List.mem_filter.1 hline
    exact ⟨_, entry, h.tidy.at_of_mem (by simp [hblocks]), hmem, ha⟩

/-- Room that is reserved has a cell. -/
theorem Executable.exists_slot (h : f.Executable) {r : Nat} (hr : f.IsSlot r) :
    ∃ (i : Nat) (line : Line), f.slots[i]? = some line ∧ line.reg = r := by
  obtain ⟨l, b, line, hb, hline, hreg, ha⟩ := hr
  have hmem : line ∈ b.slots := List.mem_filter.2 ⟨hline, ha⟩
  have hindex : l.index = 0 := by
    by_contra hne
    rw [h.slotsFirst.entry l b hb hne] at hmem
    cases hmem
  have hslots : f.slots = b.slots := by
    have hhead : f.blocks.head? = some b := by
      rw [List.head?_eq_getElem?, ← hindex]
      exact hb.1
    simp [slots, hhead]
  obtain ⟨i, hi⟩ := List.mem_iff_getElem?.1 (hslots ▸ hmem)
  exact ⟨i, line, hi, hreg⟩

/-- Instructions with the same number are the same. -/
theorem Executable.line_unique (h : f.Executable) {k l : Label} {b d : Block} {x y : Line}
    (hb : f.At k b) (hd : f.At l d) (hx : x ∈ b.lines) (hy : y ∈ d.lines)
    (hreg : x.reg = y.reg) : x = y := by
  have hxr : x.reg ∈ b.regs := List.mem_map_of_mem hx
  have hyr : x.reg ∈ d.regs := hreg ▸ List.mem_map_of_mem hy
  obtain rfl := h.numbered.block_unique hb hd hxr hyr
  obtain rfl := hb.unique hd
  have hnodup : (b.lines.map Line.reg).Nodup :=
    (List.nodup_flatMap.1 h.numbered.once).1 b hb.mem
  exact List.inj_on_of_nodup_map hnodup hx hy hreg

/-- Instructions that reserve no room leave the addresses alone. -/
theorem Housed.behind (hf : f.Executable) (h : f.Housed c) {l : Label} {b : Block} {line : Line}
    (hb : f.At l b) (hline : line ∈ b.lines) (ha : line.inst.isAlloca = false)
    (hregs : ∀ r, r ≠ line.reg → c'.regs r = c.regs r)
    (hsize : c'.memory.length = c.memory.length) : f.Housed c' where
  cells := fun i slot hslot => by
    obtain ⟨k, d, hd, hmem, halloca⟩ := hf.mem_slots (List.mem_of_getElem? hslot)
    have hne : slot.reg ≠ line.reg := by
      intro hreg
      rw [hf.line_unique hd hb hmem hline hreg, ha] at halloca
      cases halloca
    rw [hregs _ hne]
    exact h.cells i slot hslot
  size := hsize.trans h.size

theorem Housed.same (h : f.Housed c) (hregs : c'.regs = c.regs) (hmemory : c'.memory = c.memory) :
    f.Housed c' where
  cells := fun i line hi => by
    rw [hregs]
    exact h.cells i line hi
  size := by
    rw [hmemory]
    exact h.size

/-- The machine is at the start of a block. -/
def AtHead (f : Func) (l : Label) (c : Config) : Prop :=
  ∃ b, f.At l b ∧ c.block = l ∧ c.rest = b.body

/-- Control goes to a block other than the entry. -/
theorem Executable.goTo (hf : f.Executable) {k : Label} {b : Block} (hb : f.At k b)
    (hk : k.index ≠ 0) (c : Config) : ∃ c', f.goTo c k = some c' ∧ f.AtHead k c' ∧
      c'.regs = c.regs ∧ c'.memory = c.memory ∧ c'.args = c.args ∧
      c'.came = some (c.block, c.regs) := by
  have hlines : b.lines = b.body := by
    have hfirst := hf.slotsFirst.first k b hb
    rwa [hf.slotsFirst.entry k b hb hk, List.nil_append] at hfirst
  refine ⟨c.enter b, ?_, ⟨b, hb, hb.2, hlines⟩, rfl, rfl, rfl, rfl⟩
  rw [Func.goTo, hf.tidy.block?_eq hb]
  rfl

end Func

/-! ## The point of a draft -/

namespace Draft

/-- The machine has carried out what has been written in the block at the point. -/
def Here (d : Draft) (f : Func) (c : Config) : Prop :=
  ∃ l b b', d.point = some l ∧ d.func.At l b ∧ f.At l b' ∧ c.block = l ∧
    c.rest = b'.body.drop b.body.length

variable {f : Func} {c : Config} {d d' : Draft}

theorem Here.stays (h : d.Here f c) (hstays : d.Stays d') : d'.Here f c := by
  obtain ⟨l, b, b', hl, hb, hb', hblock, hrest⟩ := h
  obtain ⟨e, he, hbody⟩ := hstays.2 l b hl hb
  exact ⟨l, e, b', hstays.1.trans hl, he, hb', hblock, by rw [hbody]; exact hrest⟩

theorem Starts.here {l : Label} (h : d.Starts l) (hc : f.AtHead l c) : d.Here f c := by
  obtain ⟨hl, b, hb, hbody⟩ := h
  obtain ⟨b', hb', hblock, hrest⟩ := hc
  exact ⟨l, b, b', hl, hb, hb', hblock, by rw [hbody]; exact hrest⟩

/-- An instruction that has been written is carried out. -/
theorem Here.puts (h : d.Here f c) (hf : f.Executable) {inst : Inst} {v : Value}
    (hputs : d.Puts inst v d') (hle : d'.func.Le f) (ha : inst.isAlloca = false)
    {r : Option Scalar} {memory : List (Option Scalar)}
    (hout : inst.outcome c = some (r, memory)) :
    ∃ c', f.step c = some (.inl c') ∧ d'.Here f c' ∧ c'.regs = c.keep d.func.regs r ∧
      c'.memory = memory ∧ c'.args = c.args ∧
      (memory.length = c.memory.length → f.Housed c → f.Housed c') := by
  obtain ⟨l, b, b', hl, hb, hb', hblock, hrest⟩ := h
  obtain ⟨l', b'', τ, hl', hb'', rfl, -, -⟩ := hputs
  obtain rfl : l = l' := Option.some.inj (hl.symm.trans hl')
  obtain rfl := hb.unique hb''
  let line : Line := { reg := d.func.regs, inst }
  have hat : (d.func.put l inst).At l (d.func.withLine inst b) := Func.at_put_self hb
  have hbody : (d.func.withLine inst b).body = b.body ++ [line] := by
    simp [Func.withLine, Block.body, ha, line]
  -- the block goes on in the finished function, so the line is the next one there
  obtain ⟨e, he, hble⟩ := hle.blocks l _ hat
  obtain rfl := he.unique hb'
  obtain ⟨more, hmore⟩ := hble.body
  rw [hbody, List.append_assoc] at hmore
  have hnext : c.rest = line :: more := by
    rw [hrest, ← hmore, List.drop_left]
    rfl
  have hmem : line ∈ e.lines := by
    have : line ∈ e.body := by
      rw [← hmore]
      simp
    exact (List.mem_filter.1 this).1
  have hstep : f.step c = some (.inl (c.behind line more r memory)) := by
    simp only [Func.step, hnext]
    rw [show line.inst.outcome c = some (r, memory) from hout]
    rfl
  refine ⟨c.behind line more r memory, hstep, ?_, rfl, rfl, rfl, fun hsize hhoused => ?_⟩
  · refine ⟨l, _, e, hl, hat, hb', hblock, ?_⟩
    have hlen : (d.func.withLine inst b).body.length = (b.body ++ [line]).length := by rw [hbody]
    change more = _
    rw [hlen, ← hmore, ← List.append_assoc, List.drop_left]
  · refine hhoused.behind hf hb' hmem ha (fun k hk => ?_) hsize
    cases r with
    | none => rfl
    | some s => exact Function.update_of_ne hk _ _

/-- The end of a block: control goes where the terminator says. -/
theorem Here.closes (h : d.Here f c) (hf : f.Executable) {term : Term}
    (hcloses : d.Closes term d') (hle : d'.func.Le f) : f.step c = f.follow c term := by
  obtain ⟨l, b, b', hl, hb, hb', hblock, hrest⟩ := h
  obtain ⟨l', b'', hl', hb'', hat⟩ := hcloses
  obtain rfl : l = l' := Option.some.inj (hl.symm.trans hl')
  obtain rfl := hb.unique hb''
  obtain ⟨e, he, hble⟩ := hle.blocks l _ hat
  obtain rfl := he.unique hb'
  obtain ⟨hterm, hbody⟩ := hble.closed term rfl
  have hnil : c.rest = [] := by
    rw [hrest, hbody]
    exact List.drop_length
  simp only [Func.step, hnil, hblock, hf.tidy.block?_eq hb', Option.bind_some, hterm]

end Draft

end Shader.Ir
