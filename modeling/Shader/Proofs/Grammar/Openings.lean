import Mathlib.Data.List.Chain
import Shader.Proofs.Grammar.Words

/-!
# What words begin with

An `Opening` of a right side is what one of its words begins with. Every symbol derives a word, so
nothing that has been read of a part is lost for the whole: what opens the first of two parts opens
both, and so does a word of the first with an opening of the second behind it.

Reading goes past an opening in one place only, as a name behind a dot is read before it is known
for a selector. What has been `Tried` is an opening or, in that place, an opening and one name. No
shader begins with the latter, for in its words every dot comes with a selector.
-/

namespace Shader.Grammar

open Ebnf

variable {e e' : Ebnf Nonterminal} {u v w : List Item}

/-! ## Every symbol derives a word -/

/-- Some word is derived. -/
class Productive (e : Ebnf Nonterminal) : Prop where
  /-- there is a word -/
  exists_word : ∃ w, Word e w

namespace Productive

instance tok {t : Token} : Productive (tok t) := ⟨[⟨t, "", .implicit⟩], .item rfl⟩

instance delim {d : Delimiter} : Productive (delim d) := tok

instance word {k : Keyword} : Productive (word k) := tok

instance append [h : Productive e] [h' : Productive e'] : Productive (e ++ e') :=
  have ⟨u, hu⟩ := h.exists_word
  have ⟨v, hv⟩ := h'.exists_word
  ⟨u ++ v, .seq hu hv⟩

instance or [h : Productive e] : Productive (e ||| e') :=
  have ⟨w, hw⟩ := h.exists_word
  ⟨w, .left hw⟩

instance empty : Productive .empty := ⟨[], .empty⟩

instance opt : Productive (opt e) := ⟨[], .right .empty⟩

instance many : Productive (many e) := ⟨[], .done⟩

instance list [Productive e] : Productive (list e) := append

instance isType : Productive (.item IsType) :=
  ⟨[⟨.typeName .void, "void", .implicit⟩], .item ⟨_, rfl⟩⟩

instance isSelector : Productive (.item IsSelector) :=
  ⟨[⟨.name, "x", .implicit⟩], .item ⟨rfl, .x, rfl⟩⟩

instance isSmall : Productive (.item IsSmall) :=
  ⟨[⟨.number .int, "0", .implicit⟩], .item ⟨rfl, by decide⟩⟩

theorem sub_of {symbol : Nonterminal} (h : Productive (rule symbol)) : Productive (.sub symbol) :=
  have ⟨w, hw⟩ := h.exists_word
  ⟨w, .sub hw⟩

/-- A symbol derives a word once those do that the word needs: an operand is a name, a statement a
semicolon, and most of the others need no symbol. -/
instance sub : ∀ symbol : Nonterminal, Productive (.sub symbol) := by
  have primary : Productive (.sub .primary) :=
    ⟨[⟨.name, "a", .implicit⟩], .sub (.left (.left (.left (.left (.left
      (word_append.2 ⟨_, [], rfl, .item rfl, .right .empty⟩))))))⟩
  have selection : Productive (.sub .selection) := sub_of append
  have unary : Productive (.sub .unary) :=
    have ⟨w, hw⟩ := selection.exists_word
    ⟨w, .sub (.right hw)⟩
  have binary : ∀ levels, Productive (.sub (.binary levels)) := by
    intro levels
    induction levels with
    | zero => exact sub_of unary
    | succ levels ih => exact sub_of append
  have conditional : Productive (.sub .conditional) := sub_of append
  have assignment : Productive (.sub .assignment) := sub_of append
  have params : Productive (.sub .params) := sub_of or
  have block : Productive (.sub .block) := sub_of append
  have function : Productive funcForm := append
  have layoutEntry : Productive (.sub .layoutEntry) := sub_of append
  intro symbol
  cases symbol with
  | binary levels => exact binary levels
  | program | param | layout | varSpec => exact sub_of append
  | definition | stmt | args => exact sub_of or
  | expression => exact sub_of list
  | params | layoutEntry | block | assignment | conditional | unary | selection | primary =>
    assumption

instance condition : Productive condition := append

instance varForm : Productive varForm := append

end Productive

/-! ## Openings -/

/-- What a word begins with. -/
def Opening (e : Ebnf Nonterminal) (u : List Item) : Prop := ∃ v, Word e (u ++ v)

/-- A word opens itself. -/
theorem Word.opening (h : Word e w) : Opening e w := ⟨[], (List.append_nil w).symm ▸ h⟩

/-- What opens words opens those of a right side that has them all. -/
theorem Opening.of (h : Opening e u) (hword : ∀ w, Word e w → Word e' w) : Opening e' u := by
  obtain ⟨v, hv⟩ := h
  exact ⟨v, hword _ hv⟩

/-- What opens the first part opens both, if the second has a word at all. -/
theorem Opening.first [h' : Productive e'] (h : Opening e u) : Opening (e ++ e') u := by
  obtain ⟨v, hv⟩ := h
  obtain ⟨w, hw⟩ := h'.exists_word
  refine ⟨v ++ w, ?_⟩
  rw [← List.append_assoc]
  exact .seq hv hw

/-- A word of the first part may stand in front. -/
theorem Opening.behind (hw : Word e w) (h : Opening e' u) : Opening (e ++ e') (w ++ u) := by
  obtain ⟨v, hv⟩ := h
  refine ⟨v, ?_⟩
  rw [List.append_assoc]
  exact .seq hw hv

/-- The last item is a name behind a dot, but not one of a component. -/
def Misnamed (u : List Item) : Prop := ∃ (v : List Item) (i j : Item), u = v ++ [i, j] ∧
  i.token = .delim .dot ∧ j.token = .name ∧ j.text ∉ ["x", "y", "z", "w"]

/-- What reading may have gone past: an opening, and a name besides that is no selector. -/
def Tried (e : Ebnf Nonterminal) (u : List Item) : Prop :=
  Opening e u ∨ Misnamed u ∧ Opening e u.dropLast

/-- Only the last two items matter. -/
theorem Misnamed.behind (w : List Item) (h : Misnamed u) : Misnamed (w ++ u) := by
  obtain ⟨v, i, j, rfl, h⟩ := h
  exact ⟨w ++ v, i, j, (List.append_assoc _ _ _).symm, h⟩

theorem Misnamed.ne_nil (h : Misnamed u) : u ≠ [] := by
  obtain ⟨v, i, j, rfl, -⟩ := h
  simp

namespace Tried

theorem of (h : Tried e u) (hword : ∀ w, Word e w → Word e' w) : Tried e' u :=
  h.imp (fun h => h.of hword) fun h => ⟨h.1, h.2.of hword⟩

/-- What is tried for the first part is tried for both, if the second has a word at all. -/
theorem first [Productive e'] (h : Tried e u) : Tried (e ++ e') u :=
  h.imp (fun h => h.first) fun h => ⟨h.1, h.2.first⟩

/-- A word of the first part may stand in front. -/
theorem behind (hw : Word e w) (h : Tried e' u) : Tried (e ++ e') (w ++ u) := by
  refine h.imp (fun h => h.behind hw) fun ⟨hname, h⟩ => ⟨hname.behind w, ?_⟩
  rw [List.dropLast_append_of_ne_nil hname.ne_nil]
  exact h.behind hw

end Tried

/-! ## Dots and ends in words -/

/-- Selectors are names of one letter. -/
theorem isSelector_iff {i : Item} :
    IsSelector i ↔ i.token = .name ∧ i.text ∈ ["x", "y", "z", "w"] := by
  have hall : ["x", "y", "z", "w"] = Swizzle.all.map Swizzle.text := rfl
  simp only [hall, IsSelector, Swizzle.ofText?, List.mem_map, ← Option.isSome_iff_exists,
    List.find?_isSome, decide_eq_true_iff]

/-- A dot has a selector behind it. -/
def Dotted (i j : Item) : Prop := i.token = .delim .dot → IsSelector j

/-- Right sides that hold no end of text and no dot without its selector. -/
inductive Joined : Ebnf Nonterminal → Prop
  | tok {t : Token} (hdot : t ≠ .delim .dot) (heof : t ≠ .eof) : Joined (tok t)
  | item {kind : Item → Prop} (h : ∀ i, kind i → i.token ≠ .delim .dot ∧ i.token ≠ .eof) :
      Joined (.item kind)
  | member : Joined (delim .dot ++ item IsSelector)
  | sub {symbol : Nonterminal} (h : symbol ≠ .program) : Joined (.sub symbol)
  | empty : Joined .empty
  | seq {e e' : Ebnf Nonterminal} (h : Joined e) (h' : Joined e') : Joined (.seq e e')
  | alt {e e' : Ebnf Nonterminal} (h : Joined e) (h' : Joined e') : Joined (.alt e e')
  | many {e : Ebnf Nonterminal} (h : Joined e) : Joined (.many e)

/-- Of all rules only that of a shader holds an end of text. -/
theorem joined_rule {symbol : Nonterminal} (h : symbol ≠ .program) : Joined (rule symbol) := by
  -- a right side is taken apart into its symbols and kinds of items
  cases symbol
  case program => exact absurd rfl h
  case' binary levels => cases levels
  all_goals repeat' constructor
  all_goals first
    | decide
    | intro i hi
      constructor
      all_goals
        intro ht
        simp [IsType, IsNumber, IsSmall, IsUnaryOp, IsBinaryOp, IsAssign, IsStep, unaryOp?,
          binaryOp?, ht] at hi
    | intro heq
      cases heq

/-- What is known of the words of such right sides. -/
structure Neat (w : List Item) : Prop where
  /-- every dot has a selector behind it -/
  chain : w.IsChain Dotted
  /-- no dot is the last item -/
  last : ∀ i ∈ w.getLast?, i.token ≠ .delim .dot
  /-- there is no end of text -/
  eofFree : ∀ i ∈ w, i.token ≠ .eof

theorem Neat.nil : Neat [] := ⟨.nil, by simp, List.forall_mem_nil _⟩

theorem Neat.singleton {i : Item} (hdot : i.token ≠ .delim .dot) (heof : i.token ≠ .eof) :
    Neat [i] :=
  ⟨.singleton i, by simp [hdot], by simp [heof]⟩

/-- Behind a dot in the first part there is still an item of that part. -/
theorem Neat.append (hu : Neat u) (hv : Neat v) : Neat (u ++ v) where
  chain := List.isChain_append.2
    ⟨hu.chain, hv.chain, fun i hi _ _ hdot => absurd hdot (hu.last i hi)⟩
  last i hi := by
    rw [List.getLast?_append, Option.mem_def, Option.or_eq_some_iff] at hi
    rcases hi with hi | ⟨-, hi⟩
    · exact hv.last i hi
    · exact hu.last i hi
  eofFree := List.forall_mem_append.2 ⟨hu.eofFree, hv.eofFree⟩

/-- Right sides without an end of text and without a bare dot have neat words only. -/
theorem Joined.neat (h : Joined e) (hw : Word e w) : Neat w := by
  induction hw with
  | item hi =>
    cases h with
    | tok hdot heof => exact .singleton (hi ▸ hdot) (hi ▸ heof)
    | item hkind => exact .singleton (hkind _ hi).1 (hkind _ hi).2
  | sub _ ih =>
    cases h with
    | sub h => exact ih (joined_rule h)
  | empty => exact .nil
  | seq hu hv ihu ihv =>
    cases h with
    | seq h h' => exact (ihu h).append (ihv h')
    | member =>
      obtain ⟨i, rfl, hi⟩ := word_delim.1 hu
      obtain ⟨j, rfl, hj⟩ := word_item.1 hv
      refine ⟨?_, ?_, ?_⟩
      · simpa [Dotted] using fun _ => hj
      · simp [hj.1]
      · simp [hi, hj.1]
  | left _ ih =>
    cases h with
    | alt h _ => exact ih h
  | right _ ih =>
    cases h with
    | alt _ h => exact ih h
  | done => exact .nil
  | more _ _ ihu ihv =>
    cases h with
    | many h => exact (ihu h).append (ihv (.many h))

/-- The end of the text is the last item of a shader and no other. -/
theorem exists_of_word_program (h : Word (.sub .program) w) :
    ∃ (v : List Item) (e : Item), w = v ++ [e] ∧ e.token = .eof ∧ Neat v := by
  obtain ⟨v, x, rfl, hv, hx⟩ := word_append.1 (word_sub.1 h)
  obtain ⟨e, rfl, he⟩ := word_tok.1 hx
  refine ⟨v, e, rfl, he, Joined.neat ?_ hv⟩
  repeat' constructor
  all_goals nofun

/-- No shader begins with a name behind a dot that is no selector. -/
theorem Misnamed.not_opening (h : Misnamed u) : ¬ Opening (.sub .program) u := by
  rintro ⟨x, hword⟩
  obtain ⟨v, i, j, rfl, hi, -, hj⟩ := h
  obtain ⟨w, e, hw, -, hneat⟩ := exists_of_word_program hword
  have hchain : (w ++ [e]).IsChain Dotted := List.isChain_append.2
    ⟨hneat.chain, .singleton e, fun i hi _ _ hdot => absurd hdot (hneat.last i hi)⟩
  rw [← hw, List.append_assoc] at hchain
  have hdotted : Dotted i j := (List.isChain_append_cons_cons.1 hchain).2.1
  exact hj (isSelector_iff.1 (hdotted hi)).2

end Shader.Grammar
