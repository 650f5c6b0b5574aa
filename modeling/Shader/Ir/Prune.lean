import Shader.Ir

/-!
# Blocks that control cannot reach

Control reaches the entry of a function, and every block to which a block that it reaches can go.
Pruning takes the other blocks out of the function, and drops the values that choices have for
them.
-/

namespace Shader.Ir

/-- The blocks to which control can go from a block among some. -/
def successorsIn (blocks : List Block) (l : Label) : List Label :=
  ((blocks.find? fun b => b.label = l).map Block.successors).getD []

/-- Adds the labels that are not there yet. -/
def addNew (seen : List Label) : List Label → List Label
  | [] => seen
  | l :: ls => addNew (if seen.contains l then seen else seen ++ [l]) ls

/-- The labels that are reached from those in `seen`, of which the ones before `done` have been
followed. Following one label is one step. -/
def reachFrom (next : Label → List Label) : Nat → Nat → List Label → List Label
  | 0, _, seen => seen
  | steps + 1, done, seen =>
    match seen[done]? with
    | none => seen
    | some l => reachFrom next steps (done + 1) (addNew seen (next l))

namespace Func

/-- The labels that control reaches, where a terminator may also go to blocks elsewhere. -/
def reachable (f : Func) (elsewhere : List Block) : List Label :=
  match f.blocks with
  | [] => []
  | entry :: _ =>
    let blocks := f.blocks ++ elsewhere
    reachFrom (successorsIn blocks) (blocks.length + 1) 0 [entry.label]

/-- Drops the values of choices that belong to blocks that are not kept. -/
def dropIncoming (kept : List Label) (line : Line) : Line :=
  match line.inst with
  | .phi type incoming =>
    { line with inst := .phi type (incoming.filter fun i => kept.contains i.2) }
  | _ => line

/-- Takes out the blocks that control cannot reach. -/
def prune (f : Func) (elsewhere : List Block) : Func :=
  let live := f.reachable elsewhere
  if live.length = f.blocks.length then f
  else
    let clean (b : Block) : Block := { b with lines := b.lines.map (dropIncoming live) }
    { f with
      blocks := (f.blocks.filter fun b => live.contains b.label).map clean
      detached := f.detached ++ f.blocks.filter fun b => !live.contains b.label }

end Func

namespace Module

/-- The blocks of a module that are not in a function. -/
def blocksBeside (m : Module) (f : Func) : List Block :=
  f.detached ++ (m.funcs.filter fun g => g.id ≠ f.id).flatMap Func.allBlocks

/-- Takes the blocks that control cannot reach out of a function. -/
def prune (m : Module) (f : Func) : Module := m.setFunc (f.prune (m.blocksBeside f))

end Module

end Shader.Ir
