import Shader.Token.Scan
import Mathlib.Data.List.Infix

/-!
# Gaps

Between the lexemes of a text stand white space and comments. A comment that ends with its line does
so at the first line end, and a comment that needs an end mark ends at the first of them. So a gap
has a grammar, and skipping takes a text of this grammar off the front. Only at the end of the text
a gap may run into a comment that ends with the text, or that misses its end mark.
-/

namespace Shader

open Text

/-- White space and comments. -/
inductive IsGap : List Char → Prop
  | nil : IsGap []
  | blank {c : Char} {cs : List Char} (hc : isBlank c = true) (h : IsGap cs) : IsGap (c :: cs)
  | line {body cs : List Char} (hbody : '\n' ∉ body) (h : IsGap cs) :
    IsGap ('/' :: '/' :: (body ++ '\n' :: cs))
  | block {body cs : List Char} (hbody : ¬ ['*', '/'] <:+: body) (h : IsGap cs) :
    IsGap ('/' :: '*' :: (body ++ '*' :: '/' :: cs))

/-- What can stand between the last lexeme and the end of a text: a gap, perhaps with a comment
behind it that ends with the text. If it is one that misses its end mark, the number tells how many
characters are in front of it. -/
inductive IsLastGap : List Char → Option Nat → Prop
  | gap {cs : List Char} (h : IsGap cs) : IsLastGap cs none
  | line {cs body : List Char} (h : IsGap cs) (hbody : '\n' ∉ body) :
    IsLastGap (cs ++ '/' :: '/' :: body) none
  | block {cs body : List Char} (h : IsGap cs) (hbody : ¬ ['*', '/'] <:+: body) :
    IsLastGap (cs ++ '/' :: '*' :: body) (some cs.length)

theorem IsGap.append {cs ds : List Char} (h : IsGap cs) (hd : IsGap ds) : IsGap (cs ++ ds) := by
  induction h with
  | nil => exact hd
  | blank hc _ ih => exact .blank hc ih
  | line hbody _ ih => simpa using IsGap.line hbody ih
  | block hbody _ ih => simpa using IsGap.block hbody ih

namespace Gap

/-- What skipping takes off the front of a text, and what it leaves. -/
inductive Skips : List Glyph → Gap → Prop
  | gap {a : List Glyph} (h : IsGap (a.map Glyph.char)) (rest : List Glyph) :
    Skips (a ++ rest) { rest }
  | line {a b : List Glyph} (h : IsGap (a.map Glyph.char)) {body : List Char}
    (hb : b.map Glyph.char = '/' :: '/' :: body) (hbody : '\n' ∉ body) :
    Skips (a ++ b) { rest := [] }
  | block {a b : List Glyph} {g : Glyph} (h : IsGap (a.map Glyph.char)) {body : List Char}
    (hb : (g :: b).map Glyph.char = '/' :: '*' :: body) (hbody : ¬ ['*', '/'] <:+: body) :
    Skips (a ++ g :: b) { rest := [], unclosed := some g }

/-- More of a gap is skipped in front. -/
theorem Skips.append {x s : List Glyph} {gap : Gap} (hx : IsGap (x.map Glyph.char))
    (h : Skips s gap) : Skips (x ++ s) gap := by
  have hmore : ∀ a : List Glyph, IsGap (a.map Glyph.char) → IsGap ((x ++ a).map Glyph.char) := by
    intro a ha
    rw [List.map_append]
    exact hx.append ha
  cases h with
  | gap h rest =>
    rw [← List.append_assoc]
    exact .gap (hmore _ h) rest
  | line h hb hbody =>
    rw [← List.append_assoc]
    exact .line (hmore _ h) hb hbody
  | block h hb hbody =>
    rw [← List.append_assoc]
    exact .block (hmore _ h) hb hbody

/-- Blanks in front do not matter. -/
theorem skip_blanks {b : List Glyph} (h : ∀ g ∈ b, isBlank g.char = true) (s : List Glyph) :
    skip .between (b ++ s) = skip .between s := by
  induction b with
  | nil => rfl
  | cons g b ih =>
    rw [List.forall_mem_cons] at h
    rw [List.cons_append, skip, if_pos h.1, ih h.2]

/-! ## Comments -/

/-- A comment ends at the first line end. -/
theorem skip_line (s : List Glyph) :
    (∃ body g t, s = body ++ g :: t ∧ '\n' ∉ body.map Glyph.char ∧ g.char = '\n' ∧
      skip .line s = skip .between t) ∨
    '\n' ∉ s.map Glyph.char ∧ skip .line s = { rest := [] } := by
  induction s with
  | nil => exact .inr ⟨List.not_mem_nil, rfl⟩
  | cons g s ih =>
    by_cases hg : g.char = '\n'
    · exact .inl ⟨[], g, s, rfl, List.not_mem_nil, hg, by rw [skip, if_pos hg]⟩
    · rw [skip, if_neg hg]
      have hcons : ∀ cs, '\n' ∉ cs → '\n' ∉ g.char :: cs := by
        intro cs hcs hmem
        rcases List.mem_cons.1 hmem with heq | hmem
        · exact hg heq.symm
        · exact hcs hmem
      rcases ih with ⟨body, e, t, rfl, hbody, he, hskip⟩ | ⟨hs, hskip⟩
      · exact .inl ⟨g :: body, e, t, rfl, hcons _ hbody, he, hskip⟩
      · exact .inr ⟨hcons _ hs, hskip⟩

/-- A comment that misses its end mark runs on to the end of the text; any other ends at the first
end mark. -/
def Closes (start : Glyph) (s : List Glyph) (gap : Gap) : Prop :=
  (∃ body x y t, s = body ++ x :: y :: t ∧ ¬ ['*', '/'] <:+: body.map Glyph.char ∧ x.char = '*' ∧
    y.char = '/' ∧ gap = skip .between t) ∨
  ¬ ['*', '/'] <:+: s.map Glyph.char ∧ gap = { rest := [], unclosed := some start }

/-- A glyph with which no end mark starts does not end a comment. -/
theorem Closes.cons {start g : Glyph} {s : List Glyph} {gap : Gap} (h : Closes start s gap)
    (hg : ¬ ['*', '/'] <+: g.char :: s.map Glyph.char) : Closes start (g :: s) gap := by
  rcases h with ⟨body, x, y, t, rfl, hbody, hx, hy, hgap⟩ | ⟨hs, hgap⟩
  · refine .inl ⟨g :: body, x, y, t, rfl, fun hmark => ?_, hx, hy, hgap⟩
    rcases List.infix_cons_iff.1 hmark with hfront | hmark
    · refine hg (hfront.trans ?_)
      rw [List.map_append]
      exact List.prefix_append (g.char :: body.map Glyph.char) _
    · exact hbody hmark
  · refine .inr ⟨fun hmark => ?_, hgap⟩
    rcases List.infix_cons_iff.1 hmark with hfront | hmark
    · exact hg hfront
    · exact hs hmark

/-- Behind a star reading stands as if the star were still to be read. -/
theorem closes_skip (start : Glyph) (s : List Glyph) : Closes start s (skip (.block start) s) ∧
    ∀ star : Glyph, star.char = '*' → Closes start (star :: s) (skip (.star start) s) := by
  induction s with
  | nil =>
    refine ⟨.inr ⟨by simp, rfl⟩, fun star _ => .inr ⟨fun h => ?_, rfl⟩⟩
    have := h.length_le
    simp at this
  | cons g s ih =>
    obtain ⟨hblock, hstar⟩ := ih
    have hinside : g.char ≠ '*' → Closes start (g :: s) (skip (.block start) s) := fun hg =>
      hblock.cons fun hfront => hg (List.cons_prefix_cons.1 hfront).1.symm
    constructor
    · rw [skip]
      split
      next hg => exact hstar g hg
      next hg => exact hinside hg
    · intro star hs
      rw [skip]
      have hnext : g.char ≠ '/' → ¬ ['*', '/'] <+: star.char :: (g :: s).map Glyph.char := by
        intro hg hfront
        obtain ⟨-, hfront⟩ := List.cons_prefix_cons.1 hfront
        exact hg (List.cons_prefix_cons.1 hfront).1.symm
      split
      next hg => exact .inl ⟨[], star, g, s, rfl, by simp, hs, hg, rfl⟩
      next hg =>
        split
        next hg' => exact (hstar g hg').cons (hnext hg)
        next hg' => exact (hinside hg').cons (hnext hg)

/-! ## Skipping -/

theorem exists_of_startsWith {c : Char} {s : List Glyph} (h : startsWith (· == c) s = true) :
    ∃ g r, s = g :: r ∧ g.char = c := by
  rcases s with _ | ⟨g, r⟩
  · cases h
  · exact ⟨g, r, rfl, beq_iff_eq.1 h⟩

section

variable {g h : Glyph} {r : List Glyph} (hg : g.char = '/')
  (shorter : ∀ t : List Glyph, t.length ≤ r.length → Skips t (skip .between t))
include hg shorter

theorem skips_line (hh : h.char = '/') : Skips (g :: h :: r) (skip .line r) := by
  rcases skip_line r with ⟨body, e, t, rfl, hbody, he, hskip⟩ | ⟨hr, hskip⟩
  · have hgap : IsGap ((g :: h :: (body ++ [e])).map Glyph.char) := by
      simpa [hg, hh, he] using IsGap.line hbody .nil
    rw [hskip]
    simpa using (shorter t (by simp; omega)).append hgap
  · rw [hskip]
    exact .line (a := []) .nil (by rw [List.map_cons, List.map_cons, hg, hh]) hr

theorem skips_block (hh : h.char = '*') : Skips (g :: h :: r) (skip (.block g) r) := by
  rcases (closes_skip g r).1 with ⟨body, x, y, t, rfl, hbody, hx, hy, hskip⟩ | ⟨hr, hskip⟩
  · have hgap : IsGap ((g :: h :: (body ++ [x, y])).map Glyph.char) := by
      simpa [hg, hh, hx, hy] using IsGap.block hbody .nil
    rw [hskip]
    simpa using (shorter t (by simp; omega)).append hgap
  · rw [hskip]
    exact .block (a := []) .nil (by rw [List.map_cons, List.map_cons, hg, hh]) hr

end

/-- Skipping takes a gap off the front of a text. -/
theorem skips_skip (s : List Glyph) : Skips s (skip .between s) := by
  induction hn : s.length using Nat.strongRecOn generalizing s with
  | _ n ih =>
    rcases s with _ | ⟨g, r⟩
    · exact .gap (a := []) .nil []
    have shorter : ∀ t : List Glyph, t.length ≤ r.length → Skips t (skip .between t) := by
      intro t ht
      exact ih t.length (by rw [← hn, List.length_cons]; omega) t rfl
    rw [skip]
    split
    next hblank => exact (shorter r le_rfl).append (x := [g]) (.blank hblank .nil)
    split
    next hg =>
      split
      next hline =>
        obtain ⟨h, r, rfl, hh⟩ := exists_of_startsWith hline
        rw [skip, if_neg (by rw [hh]; decide)]
        exact skips_line hg (fun t ht => shorter t (Nat.le_succ_of_le ht)) hh
      split
      next hblock =>
        obtain ⟨h, r, rfl, hh⟩ := exists_of_startsWith hblock
        rw [skip]
        exact skips_block hg (fun t ht => shorter t (Nat.le_succ_of_le ht)) hh
      next => exact .gap (a := []) .nil (g :: r)
    next => exact .gap (a := []) .nil (g :: r)

end Gap

end Shader
