import Mathlib.Data.Prod.Lex
import Shader.Proofs.Token.Tiling

/-!
# The order of the items

The items of a text stand one behind the other, so no two of them stand at one place. The last one,
and no other, is the end of the text. In a text whose lines and columns fit into words, they go up
from item to item.
-/

namespace Shader

namespace Text

/-- Every glyph stands behind the one before it, and the end of the text behind all of them. -/
theorem arrange_sorted (line col : UInt32) (index : Nat) (cs : List (Char × Bool)) :
    (arrange line col index cs).1.Pairwise (fun g h => g.index < h.index) ∧
      (∀ g ∈ (arrange line col index cs).1,
        index ≤ g.index ∧ g.index < (arrange line col index cs).2.2.2) ∧
      index ≤ (arrange line col index cs).2.2.2 := by
  induction cs generalizing line col index with
  | nil => exact ⟨.nil, nofun, le_rfl⟩
  | cons c cs ih =>
    obtain ⟨c, ok⟩ := c
    have hnext := Nat.lt_succ_self index
    obtain ⟨hsorted, hbounds, hend⟩ := ih (after c line col).1 (after c line col).2 (index + 1)
    rw [arrange_cons]
    refine ⟨List.pairwise_cons.2 ⟨fun g hg => ?_, hsorted⟩,
      List.forall_mem_cons.2 ⟨⟨le_rfl, ?_⟩, ?_⟩, ?_⟩
    · exact hnext.trans_le (hbounds g hg).1
    · exact hnext.trans_le hend
    · exact fun g hg => ⟨(hnext.trans_le (hbounds g hg).1).le, (hbounds g hg).2⟩
    · exact (hnext.trans_le hend).le

end Text

/-- The glyphs behind a lexeme are behind its first glyph. -/
theorem Lexeme.read_rest_suffix_tail (g : Text.Glyph) (r : List Text.Glyph) :
    (Lexeme.read g r).rest <:+ r := by
  have hle := Lexeme.read_rest_le g r
  rcases List.suffix_cons_iff.1 (Lexeme.read_rest_suffix g r) with h | h
  · rw [h, List.length_cons] at hle
    omega
  · exact h

/-- Every item stands behind the one before it. -/
theorem Scan.lexemes_sorted {file : String} {last : Pos} (s : List Text.Glyph)
    (hsorted : s.Pairwise fun g h => g.index < h.index) (hlast : ∀ g ∈ s, g.index < last.index) :
    (lexemes file last s).1.Pairwise (fun i j => i.pos.index < j.pos.index) ∧
      ∀ i ∈ (lexemes file last s).1, i.pos = last ∨ ∃ g ∈ s, i.pos.index = g.index := by
  fun_induction lexemes file last s with
  | case1 s gap opened hrest =>
    refine ⟨List.pairwise_singleton _ _, fun i hi => .inl ?_⟩
    obtain rfl := List.mem_singleton.1 hi
    rfl
  | case2 s gap opened g r hrest lexeme notices items more hmore ih =>
    have hsuffix : g :: r <:+ s := hrest ▸ Gap.skip_rest_suffix .between s
    -- reading drops at least the glyph at which it starts, so the next item stands behind it
    have hbehind : lexeme.rest <:+ r := Lexeme.read_rest_suffix_tail g r
    have hsorted' := hsorted.sublist hsuffix.sublist
    have hmem : ∀ h ∈ lexeme.rest, h ∈ s := fun h hh =>
      hsuffix.mem (List.mem_cons_of_mem g (hbehind.mem hh))
    obtain ⟨hitems, hplaces⟩ := ih ((List.pairwise_cons.1 hsorted').2.sublist hbehind.sublist)
      fun h hh => hlast h (hmem h hh)
    rw [hmore] at hitems hplaces
    have hg : g ∈ s := hsuffix.mem List.mem_cons_self
    refine ⟨List.pairwise_cons.2 ⟨fun i hi => ?_, hitems⟩,
      List.forall_mem_cons.2 ⟨?_, fun i hi => ?_⟩⟩
    · rcases hplaces i hi with hi | ⟨h, hh, hi⟩
      · rw [hi]
        exact hlast g hg
      · rw [hi]
        exact (List.pairwise_cons.1 hsorted').1 h (hbehind.mem hh)
    · exact .inr ⟨g, hg, rfl⟩
    · exact (hplaces i hi).imp_right fun hex => hex.imp fun h hh => ⟨hmem h hh.1, hh.2⟩

/-- Every item of a text stands behind the one before it. -/
theorem Source.sorted_scan (s : Source) :
    s.scan.items.Pairwise fun i j => i.pos.index < j.pos.index := by
  unfold Source.scan
  split
  · exact List.pairwise_singleton _ _
  · obtain ⟨hglyphs, hbounds, -⟩ := Text.arrange_sorted 1 1 1 (Text.decode s.bytes)
    exact (Scan.lexemes_sorted _ hglyphs fun g hg => (hbounds g hg).2).1

/-- No two items of a text stand at one place. -/
theorem Source.nodup_scan (s : Source) : s.scan.items.Nodup := by
  refine s.sorted_scan.imp ?_
  rintro i _ hlt rfl
  exact lt_irrefl _ hlt

/-! ## Places

The places in a text go up from line to line and, within a line, from column to column. -/

/-- Where a position is, in the order of lines and columns. -/
def Pos.place (p : Pos) : Nat ×ₗ Nat := toLex (p.line.toNat, p.col.toNat)

theorem Text.placeAfter_le_append (before more : List Char) :
    toLex (placeAfter before) ≤ toLex (placeAfter (before ++ more)) := by
  induction more generalizing before with
  | nil => rw [List.append_nil]
  | cons c more ih =>
    have hstep : toLex (placeAfter before) ≤ toLex (placeAfter (before ++ [c])) := by
      rw [placeAfter_concat, Prod.Lex.toLex_le_toLex]
      split
      · exact .inl (Nat.lt_succ_self _)
      · exact .inr ⟨rfl, Nat.le_succ _⟩
    have hrest := ih (before ++ [c])
    rw [List.append_assoc] at hrest
    exact hstep.trans hrest

/-- The places of the items go up in a text in which all of them fit into words. -/
theorem Source.sorted_places {s : Source} {chars : List (Char × Bool)}
    (h : Text.Decodes s.bytes chars) (hn : chars.length < UInt32.size - 1) :
    s.scan.items.Pairwise fun i j => i.pos.place ≤ j.pos.place := by
  obtain ⟨file, bytes, failure⟩ := s
  cases failure with
  | some cause => exact List.pairwise_singleton _ _
  | none =>
    obtain rfl := h.eq_decode
    let text := (Text.decode bytes).map Prod.fst
    have hplace : ∀ o, (place file text o).place = toLex (Text.placeAfter (text.take o)) := by
      intro o
      have htext : text.length < UInt32.size - 1 := by rwa [List.length_map]
      exact congrArg toLex (isExact_place file htext o).2
    obtain ⟨m, start, behind, opened, htiling, -⟩ := Source.covers_scan file bytes
    refine (Source.sorted_scan _).imp_of_mem fun {i j} hi hj hlt => ?_
    obtain ⟨o, ho⟩ := htiling.exists_at i hi
    obtain ⟨o', ho'⟩ := htiling.exists_at j hj
    -- both items stand at offsets, and the later one has the longer text in front of it
    rw [ho, ho'] at hlt ⊢
    have hle : o ≤ o' := by
      by_contra hgt
      have hsub := (List.take_prefix_take_left (l := text) (Nat.le_of_not_le hgt)).length_le
      exact absurd hlt (Nat.not_lt.2 (Nat.succ_le_succ hsub))
    obtain ⟨more, hmore⟩ := List.take_prefix_take_left (l := text) hle
    rw [hplace, hplace, ← hmore]
    exact Text.placeAfter_le_append _ more

/-! ## The end of the items -/

/-- The end of a text is its last item, and no other. -/
theorem Scan.exists_lexemes (file : String) (last : Pos) (s : List Text.Glyph) :
    ∃ w : List Item, (lexemes file last s).1 = w ++ [⟨.eof, "", last⟩] ∧
      ∀ i ∈ w, i.token ≠ .eof := by
  fun_induction lexemes file last s with
  | case1 => exact ⟨[], rfl, List.forall_mem_nil _⟩
  | case2 s gap opened g r hrest lexeme notices items more hmore ih =>
    obtain ⟨w, hw, heof⟩ := ih
    obtain ⟨piece, htakes⟩ := Lexeme.takes_read g r
    rw [hmore] at hw
    exact ⟨_ :: w, congrArg _ hw, List.forall_mem_cons.2 ⟨htakes.ne_eof, heof⟩⟩

theorem Source.exists_scan (s : Source) :
    ∃ (w : List Item) (e : Item),
      s.scan.items = w ++ [e] ∧ e.token = .eof ∧ ∀ i ∈ w, i.token ≠ .eof := by
  unfold Source.scan
  split
  · exact ⟨[], _, rfl, rfl, List.forall_mem_nil _⟩
  · obtain ⟨w, hw, heof⟩ := Scan.exists_lexemes s.file _ _
    exact ⟨w, _, hw, rfl, heof⟩

theorem Source.getLast?_scan (s : Source) :
    ∃ e, s.scan.items.getLast? = some e ∧ e.token = .eof := by
  obtain ⟨w, e, hitems, he, -⟩ := s.exists_scan
  exact ⟨e, by rw [hitems, List.getLast?_concat], he⟩

end Shader
