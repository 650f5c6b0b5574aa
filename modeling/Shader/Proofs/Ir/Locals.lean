import Mathlib.Data.List.Infix
import Mathlib.Data.List.Perm.Subperm
import Shader.Proofs.Ir.Growth

/-!
# Names of locals

The parameters, the blocks and the rooms of a function share one space of names. A name that has
been asked for before is given away with a number behind it, and it is not checked whether somebody
has asked for that name itself. It is new all the same if no name that is asked for ends in a point
and a number: then a name that has been given away tells what was asked for and how often before.

`Func.Distinct` says that the locals of a function are told apart by their names and that every name
is counted. It holds of the parameters of a function before it is written, and it is kept by all
that is written.
-/

namespace Shader.Ir

open scoped List

/-! ## Names with numbers -/

/-- Behind no point of the name stands a number. -/
def IsBase (base : String) : Prop :=
  ∀ p d, base.toList = p ++ '.' :: d → ∃ c ∈ d, c.isDigit = false

theorem isBase_of_notMem {base : String} (h : '.' ∉ base.toList) : IsBase base := by
  intro p d heq
  exact absurd (heq ▸ List.mem_append_right p List.mem_cons_self) h

/-- Whether behind no point of the name stands a number. -/
def isBase (base : String) : Bool :=
  base.toList.tails.all fun t => t.head? ≠ some '.' || t.tail.any fun c => !c.isDigit

theorem isBase_iff {base : String} : isBase base = true ↔ IsBase base := by
  simp only [isBase, List.all_eq_true, List.mem_tails, Bool.or_eq_true, decide_eq_true_eq,
    List.any_eq_true, Bool.not_eq_true']
  constructor
  · intro h p d heq
    exact (h ('.' :: d) ⟨p, heq.symm⟩).resolve_left fun hne => hne rfl
  · rintro h t ⟨p, heq⟩
    rcases t with _ | ⟨c, d⟩
    · exact .inl nofun
    · by_cases hc : c = '.'
      · subst hc
        exact .inr (h p d heq.symm)
      · exact .inl fun hhead => hc (Option.some.inj hhead)

/-- What is given away for a name that has been asked for before a number of times. -/
def numbered (base : String) (n : Nat) : String :=
  if n = 0 then base else base ++ "." ++ toString n

theorem toList_numbered {base : String} {n : Nat} (hn : n ≠ 0) :
    (numbered base n).toList = base.toList ++ '.' :: Nat.toDigits 10 n := by
  rw [numbered, if_neg hn, String.toList_append, String.toList_append, List.append_assoc]
  change base.toList ++ ('.' :: (String.ofList (Nat.toDigits 10 n)).toList) = _
  rw [String.toList_ofList]

theorem isDigit_of_mem {n : Nat} {c : Char} (h : c ∈ Nat.toDigits 10 n) : c.isDigit = true :=
  Nat.isDigit_of_mem_toDigits (by decide) (by decide) h

/-- A list is parted at its last point in one way. -/
theorem append_point_inj {d d' : List Char} (hd : '.' ∉ d) (hd' : '.' ∉ d') :
    ∀ {p p' : List Char}, p ++ '.' :: d = p' ++ '.' :: d' → p = p' ∧ d = d'
  | [], [], h => ⟨rfl, (List.cons.inj h).2⟩
  | [], _ :: p', h => by
    obtain ⟨rfl, rfl⟩ := List.cons.inj h
    exact absurd (List.mem_append_right p' List.mem_cons_self) hd
  | _ :: p, [], h => by
    obtain ⟨rfl, rfl⟩ := List.cons.inj h
    exact absurd (List.mem_append_right p List.mem_cons_self) hd'
  | c :: p, c' :: p', h => by
    obtain ⟨hc, htails⟩ := List.cons.inj h
    obtain ⟨hp, hdigits⟩ := append_point_inj hd hd' htails
    exact ⟨by rw [hc, hp], hdigits⟩

/-- What is given away tells what was asked for and how often before. -/
theorem numbered_inj {b b' : String} {n n' : Nat} (hb : IsBase b) (hb' : IsBase b')
    (h : numbered b n = numbered b' n') : b = b' ∧ n = n' := by
  have hdigits : ∀ m, '.' ∉ Nat.toDigits 10 m := fun m hmem =>
    absurd (isDigit_of_mem hmem) (by decide)
  -- a name that has been asked for first is none with a number behind it
  have hfirst : ∀ {b b' : String} {n' : Nat}, IsBase b → n' ≠ 0 → b ≠ numbered b' n' := by
    rintro b b' n' hb hn' rfl
    obtain ⟨c, hc, hdigit⟩ := hb _ _ (toList_numbered hn')
    rw [isDigit_of_mem hc] at hdigit
    cases hdigit
  by_cases hn : n = 0 <;> by_cases hn' : n' = 0
  · subst hn hn'
    exact ⟨h, rfl⟩
  · subst hn
    exact absurd h (hfirst hb hn')
  · subst hn'
    exact absurd h.symm (hfirst hb' hn)
  · have hlist := congrArg String.toList h
    rw [toList_numbered hn, toList_numbered hn'] at hlist
    obtain ⟨hbase, hnumber⟩ := append_point_inj (hdigits n) (hdigits n') hlist
    refine ⟨String.toList_inj.1 hbase, ?_⟩
    rw [← Nat.ofDigitChars_ten_toDigits (n := n), hnumber, Nat.ofDigitChars_ten_toDigits]

/-- The name of a block and those of its instructions that have one. -/
def Block.names (b : Block) : List String :=
  b.label.name :: (b.lines.map Line.name).filter fun x => x ≠ ""

namespace Func

/-! ## Locals -/

/-- The names of the parameters, the blocks and the named instructions of a function. -/
def localNames (f : Func) : List String := f.params.map Formal.name ++ f.blocks.flatMap Block.names

/-- The locals of a function are told apart by their names, each of which has been counted. -/
structure Distinct (f : Func) : Prop where
  /-- no two have the same name -/
  nodup : f.localNames.Nodup
  /-- and each name was given away when something had been asked for less often than now -/
  counted : ∀ x ∈ f.localNames, ∃ base n, IsBase base ∧ n < f.uses base ∧ x = numbered base n

variable {f g : Func} {name : String}

theorem uses_countName {other : String} :
    (f.countName name).uses other = if other = name then f.uses name + 1 else f.uses other := by
  split
  next heq => simp [uses, countName, heq]
  next hne =>
    have hlookup : ∀ names : List (String × Nat),
        (names.filter fun e => e.1 ≠ name).lookup other = names.lookup other := by
      intro names
      induction names with
      | nil => rfl
      | cons e names ih =>
        by_cases he : e.1 = name
        · have hother : (other == e.1) = false := beq_eq_false_iff_ne.2 fun h => hne (h.trans he)
          rw [List.filter_cons_of_neg (by simpa using he), ih, List.lookup_cons, hother]
        · rw [List.filter_cons_of_pos (by simpa using he), List.lookup_cons, List.lookup_cons, ih]
    simp only [uses, countName, List.lookup_cons, beq_eq_false_iff_ne.2 hne, hlookup]

/-- A local with a name that has just been given away is told apart from the others. -/
theorem Distinct.claim (h : f.Distinct) (hname : IsBase name)
    (huses : g.uses = (f.countName name).uses)
    (hlocals : g.localNames <+~ (f.claimName name).1 :: f.localNames) : g.Distinct := by
  have hnew : (f.claimName name).1 ∉ f.localNames := by
    intro hmem
    obtain ⟨base, n, hbase, hn, heq⟩ := h.counted _ hmem
    obtain ⟨rfl, rfl⟩ := numbered_inj hname hbase heq
    exact Nat.lt_irrefl _ hn
  refine ⟨?_, fun x hx => ?_⟩
  · obtain ⟨l, hperm, hsub⟩ := hlocals
    exact hperm.nodup_iff.1 ((List.nodup_cons.2 ⟨hnew, h.nodup⟩).sublist hsub)
  · rw [huses]
    rcases List.mem_cons.1 (hlocals.subset hx) with rfl | hx
    · refine ⟨name, f.uses name, hname, ?_, rfl⟩
      rw [uses_countName, if_pos rfl]
      exact Nat.lt_succ_self _
    · obtain ⟨base, n, hbase, hn, rfl⟩ := h.counted x hx
      refine ⟨base, n, hbase, ?_, rfl⟩
      rw [uses_countName]
      split
      next heq => exact Nat.lt_succ_of_lt (heq ▸ hn)
      next => exact hn

/-! ## What the primitives do -/

theorem localNames_modifyBlock {l : Label} {change : Block → Block}
    (hchange : ∀ b, (change b).names = b.names) :
    (f.modifyBlock l change).localNames = f.localNames := by
  simp only [localNames, modifyBlock, List.flatMap_map]
  congr 1
  refine List.flatMap_congr fun b _ => ?_
  split
  · exact hchange b
  · rfl

theorem Distinct.put {l : Label} {inst : Inst} (h : f.Distinct) : (f.put l inst).Distinct := by
  have hnames : (f.put l inst).localNames = f.localNames := by
    change (f.modifyBlock l fun b =>
      { b with lines := b.lines ++ [{ reg := f.regs, inst }] }).localNames = _
    exact localNames_modifyBlock fun b => by simp [Block.names]
  exact ⟨hnames ▸ h.nodup, fun x hx => h.counted x (hnames ▸ hx)⟩

theorem Distinct.close {l : Label} {t : Term} (h : f.Distinct) : (f.close l t).Distinct := by
  have hnames : (f.close l t).localNames = f.localNames := localNames_modifyBlock fun _ => rfl
  exact ⟨hnames ▸ h.nodup, fun x hx => h.counted x (hnames ▸ hx)⟩

theorem Distinct.addBlock {hint : String} (h : f.Distinct) (hhint : IsBase hint) :
    (f.addBlock hint).2.Distinct := by
  refine h.claim hhint rfl (List.Perm.subperm ?_)
  have hnames : (f.addBlock hint).2.localNames = f.localNames ++ [(f.claimName hint).1] := by
    change f.params.map Formal.name ++ (f.blocks ++ [_]).flatMap Block.names = _
    rw [List.flatMap_append, ← List.append_assoc]
    rfl
  rw [hnames]
  exact List.perm_append_singleton _ _

/-- The entry has one more name, if the room has one. -/
theorem names_insertAlloca (n : Nat) (line : Line) (b : Block) :
    ({ b with lines := Emit.insertAlloca n line b.lines } : Block).names <+~
      line.name :: b.names := by
  have hperm : ((Emit.insertAlloca n line b.lines).map Line.name).filter (fun x => x ≠ "") ~
      ((line :: b.lines).map Line.name).filter fun x => x ≠ "" :=
    ((Emit.insertAlloca_perm n line b.lines).map _).filter _
  have hsub : ((line :: b.lines).map Line.name).filter (fun x => x ≠ "") <+
      line.name :: (b.lines.map Line.name).filter fun x => x ≠ "" := by
    rw [List.map_cons, List.filter_cons]
    split
    · exact List.Sublist.refl _
    · exact List.sublist_cons_self _ _
  have hlines := (List.subperm_cons b.label.name).2 (hperm.subperm.trans hsub.subperm)
  exact hlines.trans (List.Perm.swap _ _ _).subperm

theorem Distinct.reserve {t : DataType} (h : f.Distinct) (hname : IsBase name) :
    (f.reserve t name).Distinct := by
  refine h.claim hname rfl ?_
  rcases hblocks : f.blocks with _ | ⟨entry, blocks⟩
  · have hnames : (f.reserve t name).localNames = f.localNames := by
      simp [localNames, Func.reserve, claimName, countName, hblocks]
    rw [hnames]
    exact List.Subperm.cons_self
  · let slot : Line :=
      { reg := f.regs, name := (f.claimName name).1, inst := .alloca (Ty.ofData t) }
    have hnames : (f.reserve t name).localNames = f.params.map Formal.name ++
        (({ entry with lines := Emit.insertAlloca f.reserved slot entry.lines } : Block).names ++
          blocks.flatMap Block.names) := by
      simp [localNames, Func.reserve, claimName, countName, hblocks, slot]
    rw [hnames, localNames, hblocks, List.flatMap_cons]
    have hentry := (List.subperm_append_right (blocks.flatMap Block.names)).2
      (names_insertAlloca f.reserved slot entry)
    exact ((List.subperm_append_left (f.params.map Formal.name)).2 hentry).trans
      List.perm_middle.subperm

/-! ## The start -/

theorem uses_le_foldl_countName {x : String} : ∀ (names : List String) {f : Func},
    f.uses x ≤ (names.foldl countName f).uses x
  | [], _ => Nat.le_refl _
  | y :: names, f => by
    have hone : f.uses x ≤ (f.countName y).uses x := by
      rw [uses_countName]
      split
      next heq => exact heq ▸ Nat.le_succ _
      next => exact Nat.le_refl _
    exact hone.trans (uses_le_foldl_countName names)

/-- Names that have been counted are in use. -/
theorem uses_foldl_countName {x : String} : ∀ {names : List String} {f : Func}, x ∈ names →
    0 < (names.foldl countName f).uses x
  | y :: names, f, h => by
    rcases List.mem_cons.1 h with rfl | h
    · refine Nat.lt_of_lt_of_le ?_ (uses_le_foldl_countName names (f := f.countName x))
      rw [uses_countName, if_pos rfl]
      exact Nat.succ_pos _
    · exact uses_foldl_countName (f := f.countName y) h

theorem localNames_foldl_countName : ∀ {names : List String} {f : Func},
    (names.foldl countName f).localNames = f.localNames
  | [], _ => rfl
  | _ :: _, f => localNames_foldl_countName (f := f.countName _)

/-- Before a function is written there are its parameters, and then the entry. -/
theorem distinct_start (hblocks : f.blocks = []) (hlast : f.last = none)
    (hnodup : (f.params.map Formal.name).Nodup) (hbase : ∀ p ∈ f.params, IsBase p.name)
    (htold : f.paramNames [] = f.params.map Formal.name) : (f.start []).2.Distinct := by
  have hlocals : ((f.paramNames []).foldl countName f).localNames = f.params.map Formal.name := by
    rw [localNames_foldl_countName, localNames, hblocks, List.flatMap_nil, List.append_nil]
  have hparams : ((f.paramNames []).foldl countName f).Distinct := by
    refine ⟨hlocals ▸ hnodup, fun x hx => ?_⟩
    rw [hlocals] at hx
    obtain ⟨p, hp, rfl⟩ := List.mem_map.1 hx
    exact ⟨p.name, 0, hbase p hp, uses_foldl_countName (htold ▸ hx), rfl⟩
  have hentry := hparams.addBlock (isBase_iff.1 (by decide : isBase "entry" = true))
  rw [start, hlast]
  exact ⟨hentry.nodup, hentry.counted⟩

end Func

end Shader.Ir
