import Mathlib.Data.Finmap
import Shader.Scopes

/-!
# Scopes as a stack of tables

Scopes do what a stack of finite maps does, one map for each open block. Whatever is opened, closed,
declared, looked up and made constant or not, in any order, both give the same answers. A symbol may
be made constant long after it was looked up: its block is still open then, or it is never seen
again.

So a block leaves no trace. Once it is closed, every name refers to what it referred to before,
whatever was declared under the name inside; only whether a declaration is constant stays as it was
set inside.
-/

namespace Shader

variable {τ α : Type}

/-! ## Operations -/

/-- What can be done with scopes. -/
inductive ScopeOp (τ α : Type) where
  /-- opens a block -/
  | enter
  /-- closes the innermost block -/
  | exit
  /-- declares a name in the innermost block -/
  | declare (name : String) (type : τ) (handle : α)
  /-- looks a name up -/
  | lookup (name : String)
  /-- sets whether the symbol is constant that is found for a name from outside of some inner
  blocks: that which was found before they were opened -/
  | mark (blocks : Nat) (name : String) (isConst : Bool)

/-- What is answered. -/
inductive ScopeAnswer (τ α : Type) where
  /-- nothing -/
  | done
  /-- the symbol that a name refers to, if it refers to one -/
  | found (sym : Option (Symbol τ α))
  /-- the new symbol -/
  | declared (sym : Symbol τ α)
  /-- the symbol that the block has for the name already -/
  | redeclared (earlier : Symbol τ α)
  /-- the outermost scope cannot be closed -/
  | outermost

/-- What a name is bound to: a symbol, but for whether it is constant. -/
def Symbol.binding (sym : Symbol τ α) : String × τ × α := (sym.name, sym.type, sym.handle)

/-- The symbol, constant or not. -/
def Symbol.mark (sym : Symbol τ α) (isConst : Bool) : Symbol τ α := { sym with isConst }

namespace Scopes

/-- Sets whether the symbol is constant that a name refers to outside of some inner blocks. -/
def markOutside (s : Scopes τ α) (blocks : Nat) (name : String) (isConst : Bool) : Scopes τ α :=
  if s.inner.length < blocks then s
  else
    let outer := { s with inner := s.inner.drop blocks }.mark name isConst
    { outer with inner := s.inner.take blocks ++ outer.inner }

/-- Carries out an operation. -/
def step (s : Scopes τ α) : ScopeOp τ α → ScopeAnswer τ α × Scopes τ α
  | .enter => (.done, s.enter)
  | .exit =>
    match s.exit? with
    | none => (.outermost, s)
    | some s => (.done, s)
  | .declare name type handle =>
    match s.declare { name, type, handle } with
    | .error earlier => (.redeclared earlier, s)
    | .ok s => (.declared { name, type, handle }, s)
  | .lookup name => (.found (s.lookup? name), s)
  | .mark blocks name isConst => (.done, s.markOutside blocks name isConst)

/-- Carries out operations, one after another. -/
def run (s : Scopes τ α) : List (ScopeOp τ α) → List (ScopeAnswer τ α) × Scopes τ α
  | [] => ([], s)
  | op :: ops => ((s.step op).1 :: ((s.step op).2.run ops).1, ((s.step op).2.run ops).2)

/-- Operations are carried out one after another. -/
theorem run_append (s : Scopes τ α) (ops more : List (ScopeOp τ α)) :
    s.run (ops ++ more) = ((s.run ops).1 ++ ((s.run ops).2.run more).1,
      ((s.run ops).2.run more).2) := by
  induction ops generalizing s with
  | nil => rfl
  | cons op ops ih => simp [run, ih]

end Scopes

/-! ## Tables -/

/-- The symbols of a block, by their names. -/
abbrev Table (τ α : Type) := Finmap fun _ : String => Symbol τ α

/-- The tables of the open blocks, innermost first. -/
structure Tables (τ α : Type) where
  /-- the table of the innermost block -/
  top : Table τ α
  /-- the tables of the blocks around it -/
  below : List (Table τ α)

namespace Tables

/-- The outermost scope, without a symbol. -/
def empty : Tables τ α := ⟨∅, []⟩

/-- All tables, innermost first. -/
def toList (t : Tables τ α) : List (Table τ α) := t.top :: t.below

/-- The symbol of a name in the innermost table that has one. -/
def lookup? (t : Tables τ α) (name : String) : Option (Symbol τ α) :=
  t.toList.findSome? fun table => table.lookup name

/-- Sets whether the symbol of a name is constant, in the first table that has one. -/
def markFirst (name : String) (isConst : Bool) : List (Table τ α) → List (Table τ α)
  | [] => []
  | table :: tables =>
    match table.lookup name with
    | some sym => table.insert name (sym.mark isConst) :: tables
    | none => table :: markFirst name isConst tables

/-- Sets whether the symbol of a name is constant, in the first table behind some that has one. -/
def mark (t : Tables τ α) (blocks : Nat) (name : String) (isConst : Bool) : Tables τ α :=
  match t.toList.take blocks ++ markFirst name isConst (t.toList.drop blocks) with
  | [] => t
  | top :: below => ⟨top, below⟩

/-- Carries out an operation. -/
def step (t : Tables τ α) : ScopeOp τ α → ScopeAnswer τ α × Tables τ α
  | .enter => (.done, ⟨∅, t.top :: t.below⟩)
  | .exit =>
    match t.below with
    | [] => (.outermost, t)
    | top :: below => (.done, ⟨top, below⟩)
  | .declare name type handle =>
    match t.top.lookup name with
    | some earlier => (.redeclared earlier, t)
    | none =>
      (.declared { name, type, handle }, { t with top := t.top.insert name { name, type, handle } })
  | .lookup name => (.found (t.lookup? name), t)
  | .mark blocks name isConst => (.done, t.mark blocks name isConst)

/-- Carries out operations, one after another. -/
def run (t : Tables τ α) : List (ScopeOp τ α) → List (ScopeAnswer τ α) × Tables τ α
  | [] => ([], t)
  | op :: ops => ((t.step op).1 :: ((t.step op).2.run ops).1, ((t.step op).2.run ops).2)

/-- Tables are the same if their lists are. -/
theorem ext_toList {t u : Tables τ α} (h : t.toList = u.toList) : t = u := by
  rcases t with ⟨top, below⟩
  rcases u with ⟨top', below'⟩
  obtain ⟨rfl, rfl⟩ := List.cons.inj h
  rfl

/-- Marking a name changes the first table behind some blocks that has it. -/
theorem toList_mark (t : Tables τ α) {blocks : Nat} {name : String} {isConst : Bool}
    (h : t.toList.take blocks ++ markFirst name isConst (t.toList.drop blocks) ≠ []) :
    (t.mark blocks name isConst).toList =
      t.toList.take blocks ++ markFirst name isConst (t.toList.drop blocks) := by
  unfold mark
  split
  next heq => exact absurd heq h
  next top below heq => exact heq.symm

end Tables

/-! ## Frames as tables -/

/-- The table of a frame. A name is bound to its first symbol. -/
def Frame.table (f : Frame τ α) : Table τ α :=
  f.foldr (fun sym table => table.insert sym.name sym) ∅

namespace Frame

theorem table_cons (sym : Symbol τ α) (f : Frame τ α) :
    Frame.table (sym :: f) = f.table.insert sym.name sym := rfl

/-- A name is looked up in the table of a block as in the block itself. -/
theorem lookup_table (f : Frame τ α) (name : String) : f.table.lookup name = f.find? name := by
  induction f with
  | nil => rfl
  | cons sym f ih =>
    rw [table_cons, find?, List.find?_cons]
    by_cases hname : sym.name = name
    · subst hname
      simp
    · simp only [hname, decide_false]
      rw [Finmap.lookup_insert_of_ne _ (Ne.symm hname), ih]
      rfl

/-- The table of a frame with a new symbol at its end. -/
theorem table_concat {f : Frame τ α} {sym : Symbol τ α} (h : f.find? sym.name = none) :
    Frame.table (f ++ [sym]) = f.table.insert sym.name sym := by
  refine Finmap.ext_lookup fun name => ?_
  rw [lookup_table, find?, List.find?_append]
  by_cases hname : sym.name = name
  · subst hname
    rw [find?] at h
    simp [h]
  · rw [Finmap.lookup_insert_of_ne _ (Ne.symm hname), lookup_table, find?]
    simp [hname]

section

variable {name : String} {isConst : Bool}

/-- Marking a name changes what is found for it and for no other. -/
theorem find?_markFrame (f : Frame τ α) (other : String) :
    Frame.find? (Scopes.markFrame name isConst f) other =
      (f.find? other).map fun sym => if name = other then sym.mark isConst else sym := by
  induction f with
  | nil => rfl
  | cons sym f ih =>
    rw [Scopes.markFrame]
    split
    next hname =>
      subst hname
      by_cases hother : sym.name = other
      · simp [find?, hother, Symbol.mark]
      · simp [find?, hother]
    next hname =>
      by_cases hother : sym.name = other
      · subst hother
        simp [find?, Ne.symm hname]
      · simp only [find?, List.find?_cons, hother, decide_false] at ih ⊢
        exact ih

/-- The table of a frame of which one symbol has been set to be constant or not. -/
theorem table_markFrame {f : Frame τ α} {sym : Symbol τ α} (h : f.find? name = some sym) :
    Frame.table (Scopes.markFrame name isConst f) = f.table.insert name (sym.mark isConst) := by
  refine Finmap.ext_lookup fun other => ?_
  rw [lookup_table, find?_markFrame]
  by_cases hother : other = name
  · subst hother
    simp [h]
  · rw [Finmap.lookup_insert_of_ne _ hother, lookup_table]
    simp [Ne.symm hother]

/-- A name that is not there cannot be marked. -/
theorem markFrame_eq_self {f : Frame τ α} (h : f.find? name = none) :
    Scopes.markFrame name isConst f = f := by
  induction f with
  | nil => rfl
  | cons sym f ih =>
    rw [find?, List.find?_cons] at h
    by_cases hname : sym.name = name
    · simp [hname] at h
    · simp only [hname, decide_false] at h
      rw [Scopes.markFrame, if_neg hname, ih h]

end

end Frame

namespace Scopes

/-- The tables of the open blocks. -/
def tables (s : Scopes τ α) : Tables τ α where
  top := s.top.table
  below :=
    match s.inner with
    | [] => []
    | _ :: inner => (inner ++ [s.root]).map Frame.table

/-- The tables are those of the blocks. -/
theorem toList_tables (s : Scopes τ α) : s.tables.toList = s.frames.map Frame.table := by
  rcases s with ⟨_ | ⟨f, inner⟩, root⟩ <;> rfl

theorem tables_enter (s : Scopes τ α) : s.enter.tables = ⟨∅, s.tables.toList⟩ := by
  refine Tables.ext_toList ?_
  rw [toList_tables, Tables.toList, toList_tables]
  rfl

/-- A name is looked up in the tables as in the blocks. -/
theorem lookup?_tables (s : Scopes τ α) (name : String) :
    s.tables.lookup? name = s.lookup? name := by
  rw [Tables.lookup?, toList_tables, List.findSome?_map, lookup?]
  exact congrArg (fun p => s.frames.findSome? p) (funext fun f => f.lookup_table name)

theorem lookup_top (s : Scopes τ α) (name : String) :
    s.tables.top.lookup name = s.top.find? name := s.top.lookup_table name

/-- Declaring a name changes the innermost table. -/
theorem tables_setTop (s : Scopes τ α) (f : Frame τ α) :
    (s.setTop f).tables = { s.tables with top := f.table } := by
  rcases s with ⟨_ | ⟨g, inner⟩, root⟩ <;> rfl

/-- Marking a name in the tables is marking it in the blocks. -/
theorem markFirst_frames (name : String) (isConst : Bool) (inner : List (Frame τ α))
    (root : Frame τ α) :
    Tables.markFirst name isConst ((inner ++ [root]).map Frame.table) =
      (({ inner, root } : Scopes τ α).mark name isConst).frames.map Frame.table := by
  induction inner with
  | nil =>
    simp only [List.nil_append, List.map_cons, List.map_nil, Tables.markFirst, Frame.lookup_table]
    rcases hroot : root.find? name with _ | sym
    · simp [mark, frames, Frame.markFrame_eq_self hroot]
    · simp [mark, frames, Frame.table_markFrame hroot]
  | cons f inner ih =>
    rw [List.cons_append, List.map_cons, Tables.markFirst, Frame.lookup_table]
    rcases hf : f.find? name with _ | sym
    · simp only [ih, mark, List.any_cons, hf, Option.isSome_none, Bool.false_or, markFrames]
      split <;> simp [frames]
    · simp [mark, markFrames, hf, frames, Frame.table_markFrame hf]

/-- So it is behind some blocks. -/
theorem tables_markOutside (s : Scopes τ α) (blocks : Nat) (name : String) (isConst : Bool) :
    (s.markOutside blocks name isConst).tables = s.tables.mark blocks name isConst := by
  -- the tables behind some are those of the scopes without the inner blocks
  have hmark : s.tables.toList.take blocks ++
      Tables.markFirst name isConst (s.tables.toList.drop blocks) =
        (s.markOutside blocks name isConst).frames.map Frame.table := by
    rw [toList_tables, ← List.map_take, ← List.map_drop, markOutside, frames]
    split
    next hlt =>
      have hlen : (s.inner ++ [s.root]).length ≤ blocks := by simp; omega
      rw [List.take_of_length_le hlen, List.drop_of_length_le hlen]
      exact List.append_nil _
    next hle =>
      rw [Nat.not_lt] at hle
      rw [List.take_append_of_le_length hle, List.drop_append_of_le_length hle, markFirst_frames]
      simp [frames]
  refine Tables.ext_toList ?_
  rw [toList_tables, Tables.toList_mark] <;> rw [hmark]
  simp [frames]

/-! ## The same answers -/

/-- One operation does to the tables what it does to the blocks. -/
theorem step_tables (s : Scopes τ α) (op : ScopeOp τ α) :
    ((s.step op).1, (s.step op).2.tables) = s.tables.step op := by
  cases op with
  | enter => exact congrArg (Prod.mk _) s.tables_enter
  | exit => rcases s with ⟨_ | ⟨f, _ | ⟨g, inner⟩⟩, root⟩ <;> rfl
  | declare name type handle =>
    simp only [step, Tables.step, lookup_top, declare]
    rcases hfind : s.top.find? name with _ | earlier
    · let sym : Symbol τ α := { name, type, handle }
      have hconcat : Frame.table (s.top ++ [sym]) = s.top.table.insert sym.name sym :=
        Frame.table_concat hfind
      simp only [tables_setTop, hconcat, sym]
      rfl
    · rfl
  | lookup name =>
    exact congrArg (fun sym => (ScopeAnswer.found sym, s.tables)) (s.lookup?_tables name).symm
  | mark blocks name isConst =>
    exact congrArg (Prod.mk _) (s.tables_markOutside blocks name isConst)

/-- Operations do to the tables what they do to the blocks. -/
theorem run_tables (ops : List (ScopeOp τ α)) (s : Scopes τ α) :
    ((s.run ops).1, (s.run ops).2.tables) = s.tables.run ops := by
  induction ops generalizing s with
  | nil => rfl
  | cons op ops ih =>
    have hanswer : (s.step op).1 = (s.tables.step op).1 := congrArg Prod.fst (s.step_tables op)
    have hstep : (s.step op).2.tables = (s.tables.step op).2 :=
      congrArg Prod.snd (s.step_tables op)
    rw [run, Tables.run, ← hanswer, ← hstep, ← ih (s.step op).2]

end Scopes

/-! ## Balanced operations -/

/-- Operations that close each block that they open, and no other. -/
inductive ScopeOp.Balanced : List (ScopeOp τ α) → Prop
  /-- nothing is done -/
  | nil : Balanced []
  /-- a declaration -/
  | declare (name : String) (type : τ) (handle : α) {w : List (ScopeOp τ α)} :
    Balanced w → Balanced (.declare name type handle :: w)
  /-- a look at a name -/
  | lookup (name : String) {w : List (ScopeOp τ α)} : Balanced w → Balanced (.lookup name :: w)
  /-- a symbol is set to be constant or not -/
  | mark (blocks : Nat) (name : String) (isConst : Bool) {w : List (ScopeOp τ α)} :
    Balanced w → Balanced (.mark blocks name isConst :: w)
  /-- a block -/
  | block {v w : List (ScopeOp τ α)} : Balanced v → Balanced w →
    Balanced (.enter :: v ++ .exit :: w)

namespace Scopes

/-- What the names of each open block are bound to, innermost block first. -/
def bindings (s : Scopes τ α) : List (List (String × τ × α)) :=
  s.frames.map (List.map Symbol.binding)

theorem bindings_enter (s : Scopes τ α) : s.enter.bindings = [] :: s.bindings := rfl

/-- Declaring a name changes the innermost bindings. -/
theorem bindings_setTop (s : Scopes τ α) (f : Frame τ α) :
    (s.setTop f).bindings = f.map Symbol.binding :: s.bindings.tail := by
  rcases s with ⟨_ | ⟨g, inner⟩, root⟩ <;> rfl

/-- Leaving a block drops the innermost bindings. -/
theorem bindings_exit? {s t : Scopes τ α} (h : s.exit? = some t) :
    t.bindings = s.bindings.tail := by
  rcases s with ⟨_ | ⟨f, inner⟩, root⟩
  · cases h
  · cases h
    rfl

/-- A block can be left if there is one around it. -/
theorem isSome_exit? {s : Scopes τ α} (h : s.bindings.tail ≠ []) : ∃ t, s.exit? = some t := by
  rcases s with ⟨_ | ⟨f, inner⟩, root⟩
  · exact absurd rfl h
  · exact ⟨_, rfl⟩

section

variable (name : String) (isConst : Bool)

theorem map_binding_markFrame (f : Frame τ α) :
    (markFrame name isConst f).map Symbol.binding = f.map Symbol.binding := by
  induction f with
  | nil => rfl
  | cons sym f ih =>
    rw [markFrame]
    split
    · rfl
    · rw [List.map_cons, ih, List.map_cons]

/-- Marking names leaves what they are bound to. -/
theorem map_binding_markFrames (fs : List (Frame τ α)) :
    (markFrames name isConst fs).map (List.map Symbol.binding) =
      fs.map (List.map Symbol.binding) := by
  induction fs with
  | nil => rfl
  | cons f fs ih =>
    rw [markFrames]
    split
    · rw [List.map_cons, map_binding_markFrame, List.map_cons]
    · rw [List.map_cons, ih, List.map_cons]

theorem bindings_mark (s : Scopes τ α) : (s.mark name isConst).bindings = s.bindings := by
  rw [mark]
  split <;> simp [bindings, frames, map_binding_markFrames, map_binding_markFrame]

/-- Marking a name behind some blocks leaves all bindings. -/
theorem bindings_markOutside (s : Scopes τ α) (blocks : Nat) :
    (s.markOutside blocks name isConst).bindings = s.bindings := by
  rw [markOutside]
  split
  · rfl
  · have hmark := bindings_mark name isConst { s with inner := s.inner.drop blocks }
    simp only [bindings, frames, List.append_assoc, List.map_append] at hmark ⊢
    rw [hmark, ← List.append_assoc, ← List.map_append, List.take_append_drop]

end

/-- What a name is bound to is read off the bindings of the blocks. -/
theorem binding_lookup? (s : Scopes τ α) (name : String) :
    (s.lookup? name).map Symbol.binding =
      s.bindings.findSome? fun names => names.find? fun b => b.1 = name := by
  have hfind (f : Frame τ α) : (f.find? name).map Symbol.binding =
      (f.map Symbol.binding).find? fun b => b.1 = name := by
    rw [List.find?_map]
    rfl
  rw [lookup?, bindings, List.findSome?_map, List.map_findSome?]
  exact congrArg (fun p => s.frames.findSome? p) (funext hfind)

/-- A block in which names are bound in the innermost block only is closed without a trace. -/
theorem bindings_block {v : List (ScopeOp τ α)} (s : Scopes τ α)
    (h : ∀ s : Scopes τ α, (s.run v).2.bindings.tail = s.bindings.tail) :
    (s.run (.enter :: v ++ [.exit])).2.bindings = s.bindings := by
  have hinside : (s.enter.run v).2.bindings.tail = s.bindings := by
    rw [h, bindings_enter, List.tail_cons]
  obtain ⟨t, hexit⟩ : ∃ t, (s.enter.run v).2.exit? = some t := by
    refine isSome_exit? ?_
    rw [hinside]
    exact mt List.map_eq_nil_iff.1 (List.append_ne_nil_of_right_ne_nil _ (List.cons_ne_nil _ _))
  have hrun : (s.run (.enter :: v ++ [.exit])).2 = t := by
    rw [List.cons_append, run, run_append]
    simp only [step, run, hexit]
  rw [hrun, bindings_exit? hexit, hinside]

/-- Balanced operations bind names in the innermost block only. -/
theorem bindings_run {w : List (ScopeOp τ α)} (h : ScopeOp.Balanced w) (s : Scopes τ α) :
    (s.run w).2.bindings.tail = s.bindings.tail := by
  induction h generalizing s with
  | nil => rfl
  | @declare name type handle w _ ih =>
    rw [run, ih, step]
    split
    next => rfl
    next t hdeclare =>
      rw [declare] at hdeclare
      split at hdeclare
      · cases hdeclare
      · cases hdeclare
        rw [bindings_setTop, List.tail_cons]
  | lookup name _ ih => exact ih s
  | mark blocks name isConst _ ih =>
    rw [run, ih]
    exact congrArg List.tail (bindings_markOutside name isConst s blocks)
  | @block v w _ _ ihv ihw =>
    have hsplit : (.enter :: v ++ .exit :: w : List (ScopeOp τ α)) =
        (.enter :: v ++ [.exit]) ++ w := by simp
    rw [hsplit, run_append]
    exact (ihw _).trans (congrArg List.tail (bindings_block s ihv))

/-- Scopes answer like a stack of tables, whatever is done with them. And a block that is closed
leaves no trace: every name is bound to what it was bound to before. -/
theorem refines_tables_and_restores :
    (∀ ops : List (ScopeOp τ α), (empty.run ops).1 = (Tables.empty.run ops).1 ∧
      (empty.run ops).2.tables = (Tables.empty.run ops).2) ∧
    ∀ (ops w : List (ScopeOp τ α)) (name : String), ScopeOp.Balanced w →
      ((empty.run (ops ++ .enter :: w ++ [.exit])).2.lookup? name).map Symbol.binding =
        ((empty.run ops).2.lookup? name).map Symbol.binding := by
  constructor
  · intro ops
    have hrun := run_tables ops (empty : Scopes τ α)
    exact ⟨congrArg Prod.fst hrun, congrArg Prod.snd hrun⟩
  · intro ops w name hw
    rw [List.append_assoc, run_append, binding_lookup?, binding_lookup?,
      bindings_block _ (bindings_run hw)]

/-- A block that shadows a name, fails to declare it again and makes the outer one constant. -/
theorem restores_shadowed :
    let ops : List (ScopeOp Nat Nat) := [.declare "x" 0 0]
    let w : List (ScopeOp Nat Nat) :=
      [.declare "x" 1 1, .enter, .declare "x" 2 2, .mark 2 "x" true, .exit, .declare "x" 3 3]
    ScopeOp.Balanced w ∧
      ((empty.run (ops ++ .enter :: w ++ [.exit])).2.lookup? "x").map Symbol.binding =
        ((empty.run ops).2.lookup? "x").map Symbol.binding := by
  have hw : ScopeOp.Balanced
      [.declare "x" 1 1, .enter, .declare "x" 2 2, .mark 2 "x" true, .exit, .declare "x" 3 3] :=
    .declare "x" 1 1 (.block (.declare "x" 2 2 (.mark 2 "x" true .nil)) (.declare "x" 3 3 .nil))
  exact ⟨hw, refines_tables_and_restores.2 [.declare "x" 0 0] _ "x" hw⟩

end Scopes

end Shader
