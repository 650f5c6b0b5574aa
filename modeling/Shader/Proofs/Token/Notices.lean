import Shader.Proofs.Text.Places
import Shader.Token.Scan

/-!
# What is noticed where

The wording of an error tells the ill-formed bytes and the comments that miss their end mark apart
from each other and from what is wrong with a lexeme. So the reports on ill-formed bytes can be
picked from all reports of a scan: they are those of the ill-formed glyphs, each at its place, in
the order of the text, and merging them with the others keeps this order.
-/

namespace Shader

open Text

/-! ## Wording -/

namespace LexError

/-- The character with which the wording of an error starts. -/
def initial : LexError → Char
  | unreadable _ | exponentDigits => 'e'
  | illFormed => 'i'
  | unexpected _ | unsignedSuffix | unknownDirective _ => 'u'
  | floatSuffix => 'f'
  | malformed _ => 'm'
  | openComment => 'c'

theorem head?_message (e : LexError) : e.message.toList.head? = some e.initial := by
  have happend : ∀ {a b : String} {c : Char}, a.toList.head? = some c →
      (a ++ b).toList.head? = some c := by
    intro a b c h
    rw [String.toList_append, List.head?_append, h, Option.some_or]
  cases e with
  | unreadable => exact happend (c := 'e') (by decide)
  | unexpected => exact happend (c := 'u') (by decide)
  | malformed => exact happend (c := 'm') (by decide)
  | unknownDirective => exact happend (c := 'u') (by decide)
  | illFormed => decide
  | exponentDigits => decide
  | floatSuffix => decide
  | unsignedSuffix => decide
  | openComment => decide

theorem initial_eq {e e' : LexError} (h : e.message = e'.message) : e.initial = e'.initial := by
  have hhead := head?_message e
  rw [h, head?_message] at hhead
  exact (Option.some.inj hhead).symm

theorem message_eq_illFormed {e : LexError} : e.message = illFormed.message ↔ e = illFormed := by
  refine ⟨fun h => ?_, fun h => by rw [h]⟩
  have hinitial : e.initial = 'i' := initial_eq h
  cases e <;> first | rfl | cases hinitial

theorem message_eq_openComment {e : LexError} :
    e.message = openComment.message ↔ e = openComment := by
  refine ⟨fun h => ?_, fun h => by rw [h]⟩
  have hinitial : e.initial = 'c' := initial_eq h
  cases e <;> first | rfl | cases hinitial

/-- The errors that are about a lexeme. -/
def isOfLexeme : LexError → Bool
  | unreadable _ | illFormed | openComment => false
  | _ => true

end LexError

namespace Lexeme

section

variable {s : List Glyph} {n : LexError × List Glyph}

theorem isOfLexeme_exponent (hn : n ∈ (exponent s).notices) : n.1.isOfLexeme = true := by
  unfold exponent at hn
  split at hn
  · cases hn
  · dsimp only at hn
    split at hn
    · rw [List.mem_singleton.1 hn]
      rfl
    · cases hn

theorem isOfLexeme_suffix {integral : Bool} (hn : n ∈ (suffix integral s).notices) :
    n.1.isOfLexeme = true := by
  unfold suffix at hn
  cases integral with
  | true =>
    split at hn
    · split at hn
      · cases hn
      · cases hn
    · rw [List.mem_singleton.1 hn]
      rfl
  | false =>
    split at hn
    · split at hn
      · cases hn
      · rw [List.mem_singleton.1 hn]
        rfl
    · cases hn

theorem isOfLexeme_number (hn : n ∈ (number s).notices) : n.1.isOfLexeme = true := by
  have hmalformed : ∀ (fits : Bool) (text : String) (rest : List Glyph),
      n ∈ (if fits then [] else [(LexError.malformed text, rest)]) → n.1.isOfLexeme = true := by
    intro fits text rest hn
    cases fits with
    | true => cases hn
    | false =>
      rw [List.mem_singleton.1 hn]
      rfl
  rcases List.mem_append.1 hn with hn | hn
  · rcases List.mem_append.1 hn with hn | hn
    · exact isOfLexeme_exponent hn
    · exact isOfLexeme_suffix hn
  · exact hmalformed _ _ _ hn

/-- What is noticed in a lexeme is about it. -/
theorem isOfLexeme_read {g : Glyph} (hn : n ∈ (read g s).notices) : n.1.isOfLexeme = true := by
  unfold read at hn
  split at hn
  · cases hn
  split at hn
  · exact isOfLexeme_number hn
  split at hn
  · dsimp only [directive] at hn
    split at hn
    · cases hn
    · rw [List.mem_singleton.1 hn]
      rfl
  split at hn
  · cases hn
  · rw [List.mem_singleton.1 hn]
    rfl

end

end Lexeme

/-! ## Picking from merged lists -/

section

variable {α : Type} {p : α → Bool} {le : α → α → Bool} {xs ys : List α}

/-- What is picked from two merged lists is picked from the first, if the other has nothing of
it. -/
theorem filter_merge_left (hy : ∀ y ∈ ys, p y = false) :
    (xs.merge ys le).filter p = xs.filter p := by
  fun_induction List.merge xs ys le with
  | case1 ys =>
    rw [List.filter_nil, List.filter_eq_nil_iff]
    intro y hmem
    rw [hy y hmem]
    exact Bool.false_ne_true
  | case2 => rfl
  | case3 x xs y ys _ ih => rw [List.filter_cons, ih hy, ← List.filter_cons]
  | case4 x xs y ys _ ih =>
    rw [List.forall_mem_cons] at hy
    rw [List.filter_cons_of_neg (by rw [hy.1]; exact Bool.false_ne_true), ih hy.2]

/-- What is picked from two merged lists is picked from the second, if the other has nothing of
it. -/
theorem filter_merge_right (hx : ∀ x ∈ xs, p x = false) :
    (xs.merge ys le).filter p = ys.filter p := by
  fun_induction List.merge xs ys le with
  | case1 => rfl
  | case2 xs =>
    rw [List.filter_nil, List.filter_eq_nil_iff]
    intro x hmem
    rw [hx x hmem]
    exact Bool.false_ne_true
  | case3 x xs y ys _ ih =>
    rw [List.forall_mem_cons] at hx
    rw [List.filter_cons_of_neg (by rw [hx.1]; exact Bool.false_ne_true), ih hx.2]
  | case4 x xs y ys _ ih => rw [List.filter_cons, ih hx, ← List.filter_cons]

end

/-! ## Ill-formed bytes -/

/-- The position of the character of a text in front of which there are so many others. -/
def place (file : String) (text : List Char) (offset : Nat) : Pos :=
  let count := countAfter (text.take offset)
  ⟨file, count.1, count.2.1, count.2.2⟩

namespace Scan

/-- Each ill-formed byte is noticed once, at its place. -/
theorem map_pos_illFormed (file : String) (cs : List (Char × Bool)) :
    ∀ {before : List Char} {line col : UInt32} {index : Nat},
      (line, col, index) = countAfter before →
        (illFormed file (arrange line col index cs).1).map Notice.pos =
          ((cs.zipIdx before.length).filter fun c => !c.1.2).map fun c =>
            place file (before ++ cs.map Prod.fst) c.2 := by
  induction cs with
  | nil =>
    intro before line col index h
    rfl
  | cons c cs ih =>
    intro before line col index h
    obtain ⟨c, ok⟩ := c
    have hnext := countAfter_concat before c
    rw [← h] at hnext
    have hrest := ih hnext.symm
    rw [List.length_append, List.append_assoc] at hrest
    rw [arrange_cons, List.zipIdx_cons]
    cases ok with
    | true => exact hrest
    | false =>
      refine List.cons_eq_cons.2 ⟨?_, hrest⟩
      simp [place, posOf, ← h]

theorem error_illFormed {file : String} {s : List Glyph} :
    ∀ n ∈ illFormed file s, n.error = .illFormed := by
  induction s with
  | nil => exact nofun
  | cons g s ih =>
    rw [illFormed]
    split
    · exact ih
    · exact List.forall_mem_cons.2 ⟨rfl, ih⟩

/-- The notice on a comment that misses its end mark, if there is one. -/
theorem map_pos_unclosed (file : String) (unclosed : Option Glyph) :
    ((unclosed.toList.map fun g => (⟨0, posOf file g, .openComment⟩ : Notice)).filter
      fun n => n.error = .openComment).map Notice.pos = unclosed.toList.map (posOf file) := by
  cases unclosed with
  | none => rfl
  | some g => rfl

theorem isOfLexeme_notices (file : String) (last : Pos) (g : Glyph) (r : List Glyph) :
    ∀ n ∈ (Lexeme.read g r).notices.map fun n =>
      (⟨n.2.length, posAt file last n.2, n.1⟩ : Notice), n.error.isOfLexeme = true :=
  List.forall_mem_map.2 fun _ hn => Lexeme.isOfLexeme_read hn

/-- Lexemes and comments are not ill-formed bytes. -/
theorem error_lexemes (file : String) (last : Pos) (s : List Glyph) :
    ∀ n ∈ (lexemes file last s).2, n.error ≠ .illFormed := by
  have hopened : ∀ unclosed : Option Glyph,
      ∀ n ∈ unclosed.toList.map fun g => (⟨0, posOf file g, .openComment⟩ : Notice),
        n.error ≠ .illFormed := fun unclosed => List.forall_mem_map.2 fun _ _ => nofun
  fun_induction lexemes file last s with
  | case1 s gap opened hrest => exact hopened _
  | case2 s gap opened g r hrest lexeme notices items more hmore ih =>
    intro n hn
    rcases List.mem_append.1 hn with hn | hn
    · rcases List.mem_append.1 hn with hn | hn
      · exact hopened _ n hn
      · have hlexeme := isOfLexeme_notices file last g r n hn
        intro herror
        rw [herror] at hlexeme
        cases hlexeme
    · rw [hmore] at ih
      exact ih n hn

/-- The reports with the wording of an error that no other error has are those on the error. -/
theorem map_pos_filter_reports {e : LexError}
    (he : ∀ e' : LexError, e'.message = e.message ↔ e' = e) (notices : List Notice) :
    ((notices.map fun n => (⟨n.pos, n.error.message⟩ : Report)).filter
      fun r => r.message = e.message).map Report.pos =
        (notices.filter fun n => n.error = e).map Notice.pos := by
  rw [List.filter_map, List.map_map]
  simp only [Function.comp_def, he]

end Scan

end Shader
