import Shader.Ir

/-!
# Numbering

What has no name is printed as a number. The numbers of a module count its global variables and
then its functions, from zero. The numbers of a function count from zero again: its parameters,
then every block in front of the results of its instructions.

Numbers are kept from one printing to the next. What already has a number other than zero must get
the same number again; otherwise numbering stops there, and only what stands before it has its
number.
-/

namespace Shader.Ir

namespace Numbering

/-- Gives a number to an entity. -/
def set (ν : Numbering) (e : Entity) (n : Nat) : Numbering := (e, n) :: ν

/-- Numbers entities from a number on. The second part tells where numbering stopped: the number
that was expected and the one that was found. -/
def assign (ν : Numbering) (n : Nat) : List Entity → Numbering × Option (Nat × Nat)
  | [] => (ν, none)
  | e :: es =>
    let old := ν.get e
    if old ≠ 0 ∧ old ≠ n then (ν, some (n, old)) else (ν.set e n).assign (n + 1) es

theorem get_set (ν : Numbering) (e k : Entity) (n : Nat) :
    (ν.set e n).get k = if k = e then n else ν.get k := by
  by_cases h : k = e
  · simp [get, set, h]
  · simp [get, set, List.lookup_cons, h, beq_eq_false_iff_ne.2 h]

end Numbering

/-- The locals of a block that take a number, in their order. -/
def Block.unnamed (b : Block) : List Entity :=
  (if b.label.name = "" then [Entity.block b.label] else []) ++
    (b.lines.filter fun l => l.name = "" && l.inst.hasResult).map fun l =>
      .result b.label.func l.reg

namespace Func

/-- The locals of a function that take a number, in their order. -/
def unnamed (f : Func) : List Entity :=
  ((f.params.zipIdx.filter fun p => p.1.name = "").map fun p => Entity.param f.id p.2) ++
    f.blocks.flatMap Block.unnamed

/-- Numbers the locals of a function. -/
def number (f : Func) (ν : Numbering) : Numbering × Option (Nat × Nat) := ν.assign 0 f.unnamed

end Func

namespace Module

/-- The global variables and functions of a module that take a number, in their order. -/
def unnamed (m : Module) : List Entity :=
  ((m.globals.filter fun g => g.id.name = "").map fun g => Entity.global g.id) ++
    (m.funcs.filter fun f => f.id.name = "").map fun f => .func f.id

/-- Numbers the global variables and the functions of a module. -/
def number (m : Module) : Numbering × Option (Nat × Nat) := m.numbers.assign 0 m.unnamed

end Module

end Shader.Ir
