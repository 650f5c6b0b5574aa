import Mathlib.Data.List.TakeWhile
import Shader.Grammar.Program

/-!
# Names and places

A name in a text is a word: it consists of letters and digits. No word has a point in it, and what
the target needs for itself is named with one. Every item of a text has a place in it, also the end
of the text.

A tree that is read from a text takes its names and places from the items. So the names of its
functions are words and all of its parts have a place, except for the declaration that every shader
has without spelling it out.
-/

namespace Shader

/-- A text of letters and digits. -/
def IsWord (text : String) : Prop := ∀ c ∈ text.toList, isWordChar c = true

/-- Items that have a place, and of which the names are words. -/
structure Item.Proper (item : Item) : Prop where
  /-- a name is a word -/
  isWord : item.token = .name → IsWord item.text
  /-- the item has a place -/
  placed : item.pos.isPlaced = true

/-! ## Words -/

/-- What is scanned as a word has the characters of one. -/
theorem isWord_word (s : List Text.Glyph) : IsWord (Lexeme.word s).text := by
  intro c hc
  simp only [Lexeme.word, run, Text.spell, String.toList_ofList, List.mem_map] at hc
  obtain ⟨g, hg, rfl⟩ := hc
  have hword := List.mem_takeWhile_imp hg
  exact hword

theorem Lexeme.token_number_ne (s : List Text.Glyph) : (Lexeme.number s).token ≠ .name := by
  have h : ∀ (c : Bool) (k : NumberKind), (if c then Token.number k else .error) ≠ .name := by
    intro c k
    cases c <;> simp
  exact h _ _

theorem Lexeme.token_directive_ne (s : List Text.Glyph) : (Lexeme.directive s).token ≠ .name := by
  simp only [Lexeme.directive]
  split <;> simp

/-- No punctuator is a name. -/
theorem Lexeme.punctuator?_ne {a : Char} {b c : Option Char} {token : Token} {size : Nat}
    (h : Lexeme.punctuator? a b c = some (token, size)) : token ≠ .name := by
  rintro rfl
  simp only [Lexeme.punctuator?, Lexeme.withAssign] at h
  split at h <;> (try split at h) <;> (try split at h) <;> simp at h

/-- A lexeme that is a name is a word. -/
theorem isWord_read {g : Text.Glyph} {r : List Text.Glyph} (h : (Lexeme.read g r).token = .name) :
    IsWord (Lexeme.read g r).text := by
  unfold Lexeme.read at h ⊢
  split at h
  next hletter =>
    rw [if_pos hletter]
    exact isWord_word _
  next =>
    exfalso
    split at h
    · exact Lexeme.token_number_ne _ h
    · split at h
      · exact Lexeme.token_directive_ne _ h
      · split at h
        next hp => exact Lexeme.punctuator?_ne hp h
        next => cases h

/-! ## Places

Lines are counted from one, and what is left of a text behind a gap or a lexeme is a suffix of it,
so all glyphs that reading meets have a line. Only behind `2 ^ 32 - 1` line ends the line comes
around to zero. -/

namespace Text

/-- A line is no larger than the number of the character on it, as long as this fits into a word. -/
def Counts (line : UInt32) (index : Nat) : Prop :=
  index < UInt32.size → 0 < line.toNat ∧ line.toNat ≤ index

/-- One more character is counted, and a new line may wrap only behind so many of them. -/
theorem Counts.after {line : UInt32} {index : Nat} (h : Counts line index) (c : Char)
    (col : UInt32) : Counts (after c line col).1 (index + 1) := by
  intro hindex
  obtain ⟨hpos, hle⟩ := h (Nat.lt_of_succ_lt hindex)
  unfold Text.after
  split
  · have hline : (line + 1).toNat = line.toNat + 1 := by
      rw [UInt32.toNat_add]
      exact Nat.mod_eq_of_lt ((Nat.succ_le_succ hle).trans_lt hindex)
    exact ⟨hline ▸ Nat.succ_pos _, hline ▸ Nat.succ_le_succ hle⟩
  · exact ⟨hpos, Nat.le_succ_of_le hle⟩

/-- Such a place is one: its line is zero only where it may have wrapped. -/
theorem Counts.isPlaced {p : Pos} (h : Counts p.line p.index) : p.isPlaced = true := by
  rw [Pos.isPlaced, Bool.or_eq_true]
  rcases Nat.lt_or_ge p.index UInt32.size with hindex | hindex
  · exact .inl (decide_eq_true (UInt32.lt_iff_toNat_lt.2 (h hindex).1))
  · exact .inr (decide_eq_true hindex)

/-- The places of all characters count, and so does the place behind them. -/
theorem counts_arrange (line col : UInt32) (index : Nat) (cs : List (Char × Bool))
    (h : Counts line index) : (∀ g ∈ (arrange line col index cs).1, Counts g.line g.index) ∧
      Counts (arrange line col index cs).2.1 (arrange line col index cs).2.2.2 := by
  induction cs generalizing line col index with
  | nil => exact ⟨nofun, h⟩
  | cons c cs ih =>
    obtain ⟨hglyphs, hlast⟩ := ih _ (after c.1 line col).2 _ (h.after c.1 col)
    exact ⟨List.forall_mem_cons.2 ⟨h, hglyphs⟩, hlast⟩

end Text

namespace Lexeme

open Text

theorem run_rest_suffix (p : Char → Bool) (s : List Glyph) : (run p s).2 <:+ s :=
  List.dropWhile_suffix _

theorem one_rest_suffix (p : Char → Bool) (s : List Glyph) : (one p s).2 <:+ s := by
  rcases s with _ | ⟨g, r⟩
  · exact List.suffix_rfl
  · change (if p g.char then ([g], r) else ([], g :: r)).2 <:+ g :: r
    split
    · exact List.suffix_cons g r
    · exact List.suffix_rfl

theorem fraction_rest_suffix (s : List Glyph) : (fraction s).2 <:+ s := by
  have h := one_rest_suffix (· == '.') s
  unfold fraction
  split
  next heq => rwa [heq] at h
  next heq =>
    rw [heq] at h
    exact (run_rest_suffix isDigit _).trans h

theorem exponent_rest_suffix (s : List Glyph) : (exponent s).rest <:+ s := by
  have h := one_rest_suffix (fun c => c == 'e' || c == 'E') s
  unfold exponent
  split
  next heq => rwa [heq] at h
  next heq =>
    rw [heq] at h
    exact ((run_rest_suffix isDigit _).trans (one_rest_suffix _ _)).trans h

theorem suffix_rest_suffix (integral : Bool) (s : List Glyph) :
    (suffix integral s).rest <:+ s := by
  have h := one_rest_suffix (fun c => c == 'f' || c == 'F') s
  unfold suffix
  split
  next t heq =>
    rw [heq] at h
    have h' := one_rest_suffix (fun c => c == 'u' || c == 'U') t
    split
    next heq' => exact (by rwa [heq'] at h' : _ <:+ t).trans h
    next heq' => exact (by rwa [heq'] at h' : _ <:+ t).trans h
  next heq => rwa [heq] at h

theorem number_rest_suffix (s : List Glyph) : (number s).rest <:+ s := by
  have later : ∀ (s : List Glyph) (integral : Bool),
      (run (fun c => isWordChar c || c == '.') (suffix integral (exponent s).rest).rest).2 <:+ s :=
    fun _ _ => (run_rest_suffix _ _).trans <| (suffix_rest_suffix _ _).trans <|
      exponent_rest_suffix _
  exact (later (fraction (run isDigit s).2).2 _).trans <|
    (fraction_rest_suffix _).trans (run_rest_suffix _ _)

theorem directive_rest_suffix (s : List Glyph) : (directive s).rest <:+ s := by
  have h := (run_rest_suffix isWordChar _).trans
    (run_rest_suffix (fun c => c == ' ' || c == '\t') s)
  unfold directive
  dsimp only
  split
  · exact h
  · exact h

/-- What is left behind a lexeme is a part of the text. -/
theorem read_rest_suffix (g : Glyph) (r : List Glyph) : (read g r).rest <:+ g :: r := by
  unfold read
  split
  · exact run_rest_suffix _ _
  · split
    · exact number_rest_suffix _
    · split
      · exact (directive_rest_suffix r).trans (List.suffix_cons g r)
      · split
        · exact (List.drop_suffix _ _).trans (List.suffix_cons g r)
        · exact List.suffix_cons g r

end Lexeme

/-- What is left behind a gap is a part of the text. -/
theorem Gap.skip_rest_suffix (mode : GapMode) (s : List Text.Glyph) :
    (Gap.skip mode s).rest <:+ s := by
  induction s generalizing mode with
  | nil => cases mode <;> exact List.suffix_rfl
  | cons g r ih =>
    have step : ∀ m : GapMode, (Gap.skip m r).rest <:+ g :: r := fun m =>
      (ih m).trans (List.suffix_cons g r)
    cases mode <;> simp only [Gap.skip] <;> (try split) <;> (try split) <;> (try split) <;>
      (try split) <;> first | exact step _ | exact List.suffix_rfl

/-! ## Scanning -/

/-- All items that are scanned are proper, since their places are those of characters. -/
theorem proper_lexemes {file : String} {last : Pos} (hlast : last.isPlaced = true)
    (s : List Text.Glyph) (hs : ∀ g ∈ s, Text.Counts g.line g.index) :
    ∀ item ∈ (Scan.lexemes file last s).1, item.Proper := by
  fun_induction Scan.lexemes file last s with
  | case1 s gap opened hrest =>
    intro item hitem
    obtain rfl := List.mem_singleton.1 hitem
    exact ⟨nofun, hlast⟩
  | case2 s gap opened g r hrest lexeme notices items more hmore ih =>
    have hsuffix : g :: r <:+ s := hrest ▸ Gap.skip_rest_suffix .between s
    have hrest : ∀ g' ∈ lexeme.rest, Text.Counts g'.line g'.index := fun g' hg' =>
      hs g' (((Lexeme.read_rest_suffix g r).trans hsuffix).mem hg')
    intro item hitem
    rcases List.mem_cons.1 hitem with rfl | hitem
    · exact ⟨isWord_read, (hs g (hsuffix.mem List.mem_cons_self)).isPlaced⟩
    · rw [hmore] at ih
      exact ih hrest item hitem

/-- All items of a scanned text are proper. -/
theorem Source.proper_scan (s : Source) : ∀ item ∈ s.scan.items, item.Proper := by
  unfold Source.scan
  split
  · intro item hitem
    obtain rfl := List.mem_singleton.1 hitem
    exact ⟨nofun, rfl⟩
  · have hfirst : Text.Counts 1 1 := fun _ => ⟨Nat.one_pos, le_rfl⟩
    obtain ⟨hglyphs, hlast⟩ := Text.counts_arrange 1 1 1 (Text.decode s.bytes) hfirst
    exact proper_lexemes hlast.isPlaced _ hglyphs

/-! ## Trees -/

mutual

/-- All parts of an expression have a place. -/
def Expr.Placed : Expr → Prop
  | .name n => n.pos.isPlaced
  | .number pos _ _ => pos.isPlaced
  | .bool pos _ => pos.isPlaced
  | .call fn args => fn.pos.isPlaced ∧ Expr.AllPlaced args
  | .construct pos _ args => pos.isPlaced ∧ Expr.AllPlaced args
  | .index base i => base.pos.isPlaced ∧ i.Placed
  | .member x _ selPos => x.Placed ∧ selPos.isPlaced
  | .unary pos _ x => pos.isPlaced ∧ x.Placed
  | .postStep _ x => x.Placed
  | .binary _ x y => x.Placed ∧ y.Placed
  | .assign _ x y => x.Placed ∧ y.Placed
  | .cond c x y => c.Placed ∧ x.Placed ∧ y.Placed
  | .seq first rest => first.Placed ∧ Expr.AllPlaced rest

/-- All parts of expressions have a place. -/
def Expr.AllPlaced : List Expr → Prop
  | [] => True
  | x :: xs => x.Placed ∧ Expr.AllPlaced xs

end

/-- An expression has a place if all of its parts do. -/
theorem Expr.isPlaced_pos : ∀ (x : Expr), x.Placed → x.pos.isPlaced = true
  | .name _, h => h
  | .number _ _ _, h => h
  | .bool _ _, h => h
  | .call _ _, h => h.1
  | .construct _ _ _, h => h.1
  | .index _ _, h => h.1
  | .member x _ _, h => x.isPlaced_pos h.1
  | .unary _ _ _, h => h.1
  | .postStep _ x, h => x.isPlaced_pos h
  | .binary _ x _, h => x.isPlaced_pos h.1
  | .assign _ x _, h => x.isPlaced_pos h.1
  | .cond c _ _, h => c.isPlaced_pos h.1
  | .seq x _, h => x.isPlaced_pos h.1

theorem Expr.allPlaced_iff {xs : List Expr} : Expr.AllPlaced xs ↔ ∀ x ∈ xs, x.Placed := by
  induction xs with
  | nil => exact iff_of_true trivial nofun
  | cons x xs ih => rw [Expr.AllPlaced, ih, List.forall_mem_cons]

/-- The name of a declaration is a word, and all parts of the declaration have a place. -/
structure VarDecl.Placed (d : VarDecl) : Prop where
  /-- its name is a word -/
  isWord : IsWord d.name.text
  /-- it starts somewhere -/
  pos : d.pos.isPlaced
  /-- its name stands somewhere -/
  name : d.name.pos.isPlaced
  /-- so do the parts of its first value -/
  init : ∀ x ∈ d.init, x.Placed

/-- All parts of the first clause of a loop have a place. -/
def ForInit.Placed : ForInit → Prop
  | .nothing => True
  | .var d => d.Placed
  | .expr x => x.Placed

mutual

/-- All parts of a statement have a place. -/
def Stmt.Placed : Stmt → Prop
  | .empty pos => pos.isPlaced
  | .expr x => x.Placed
  | .var d => d.Placed
  | .block pos body => pos.isPlaced ∧ Stmt.AllPlaced body
  | .ifThen pos c yes => pos.isPlaced ∧ c.Placed ∧ yes.Placed
  | .ifElse pos c yes no => pos.isPlaced ∧ c.Placed ∧ yes.Placed ∧ no.Placed
  | .forLoop pos init c post body =>
    pos.isPlaced ∧ init.Placed ∧ (∀ x ∈ c, x.Placed) ∧ (∀ x ∈ post, x.Placed) ∧ body.Placed
  | .whileLoop pos c body => pos.isPlaced ∧ c.Placed ∧ body.Placed
  | .doLoop pos body c => pos.isPlaced ∧ body.Placed ∧ c.Placed
  | .branch pos _ => pos.isPlaced
  | .ret pos result => pos.isPlaced ∧ ∀ x ∈ result, x.Placed

/-- All parts of statements have a place. -/
def Stmt.AllPlaced : List Stmt → Prop
  | [] => True
  | s :: ss => s.Placed ∧ Stmt.AllPlaced ss

end

/-- A parameter and its name have a place. -/
structure Param.Placed (p : Param) : Prop where
  /-- it starts somewhere -/
  pos : p.pos.isPlaced
  /-- its name stands somewhere -/
  name : p.name.pos.isPlaced

/-- The name of a function is a word, and all parts of the function have a place. -/
structure FuncDecl.Proper (f : FuncDecl) : Prop where
  /-- its name is a word -/
  isWord : IsWord f.name.text
  /-- its name stands somewhere -/
  name : f.name.pos.isPlaced
  /-- so do its parameters -/
  params : ∀ p ∈ f.params, p.Placed
  /-- and its statements -/
  body : Stmt.AllPlaced f.body

/-- A definition that a text spells out. -/
def Def.Proper : Def → Prop
  | .global g => g.var.Placed
  | .func f => f.Proper

end Shader
