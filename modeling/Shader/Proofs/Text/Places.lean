import Shader.Text.Glyph
import Shader.Proofs.Text.Decoding

/-!
# Places

The line of a character is one more than the number of line ends in front of it, and its column is
one more than the number of characters since the last of them. Arranging a text counts lines and
columns in words, so it gives the characters these places as far as they fit into words, and the
place of the end to what follows. They fit in every text of fewer than `2 ^ 32 - 1` characters.
-/

namespace Shader.Text

/-- The line and the column behind the characters of a text. -/
def placeAfter (before : List Char) : Nat × Nat :=
  (1 + before.count '\n', 1 + (before.reverse.takeWhile (· ≠ '\n')).length)

/-- The line and the column behind the characters of a text as words, and which character is
next. -/
def countAfter (before : List Char) : UInt32 × UInt32 × Nat :=
  (.ofNat (placeAfter before).1, .ofNat (placeAfter before).2, before.length + 1)

/-- Glyphs are counted as the characters that they are, behind others. -/
def Stand : (before : List Char) → List Glyph → Prop
  | _, [] => True
  | before, g :: s => (g.line, g.col, g.index) = countAfter before ∧ Stand (before ++ [g.char]) s

variable {before : List Char}

theorem countAfter_nil : countAfter [] = (1, 1, 1) := rfl

theorem placeAfter_concat (before : List Char) (c : Char) :
    placeAfter (before ++ [c]) =
      if c = '\n' then ((placeAfter before).1 + 1, 1)
      else ((placeAfter before).1, (placeAfter before).2 + 1) := by
  by_cases hc : c = '\n'
  · simp [placeAfter, hc, Nat.add_assoc]
  · simp [placeAfter, hc, Nat.add_comm]

theorem countAfter_concat (before : List Char) (c : Char) :
    countAfter (before ++ [c]) =
      ((after c (countAfter before).1 (countAfter before).2.1).1,
        (after c (countAfter before).1 (countAfter before).2.1).2,
        (countAfter before).2.2 + 1) := by
  by_cases hc : c = '\n'
  · simp [countAfter, placeAfter_concat, after, hc]
  · simp [countAfter, placeAfter_concat, after, hc]

/-- Lines and columns are counted in characters. -/
theorem placeAfter_le (before : List Char) :
    (placeAfter before).1 ≤ before.length + 1 ∧ (placeAfter before).2 ≤ before.length + 1 := by
  have hline : before.count '\n' ≤ before.length := List.count_le_length
  have hcol := (List.takeWhile_sublist (l := before.reverse) (· ≠ '\n')).length_le
  rw [List.length_reverse] at hcol
  exact ⟨by rw [placeAfter]; omega, by rw [placeAfter]; omega⟩

/-- The places in a text whose length and end fit into words are exact. -/
theorem toNat_countAfter (h : before.length < UInt32.size - 1) :
    ((countAfter before).1.toNat, (countAfter before).2.1.toNat) = placeAfter before := by
  have hfits : ∀ n ≤ before.length + 1, (UInt32.ofNat n).toNat = n := by
    intro n hn
    exact UInt32.toNat_ofNat_of_lt' (by omega)
  obtain ⟨hline, hcol⟩ := placeAfter_le before
  exact Prod.ext (hfits _ hline) (hfits _ hcol)

theorem stand_append {a t : List Glyph} :
    Stand before (a ++ t) ↔ Stand before a ∧ Stand (before ++ a.map Glyph.char) t := by
  induction a generalizing before with
  | nil => simp [Stand]
  | cons g a ih => simp [Stand, ih, and_assoc]

/-- Characters are arranged where they belong. -/
theorem stand_arrange (cs : List (Char × Bool)) : ∀ {before : List Char} {line col : UInt32}
    {index : Nat}, (line, col, index) = countAfter before →
      Stand before (arrange line col index cs).1 ∧
        (arrange line col index cs).2 = countAfter (before ++ cs.map Prod.fst) := by
  induction cs with
  | nil =>
    intro before line col index h
    simpa [Stand] using h
  | cons c cs ih =>
    intro before line col index h
    obtain ⟨c, ok⟩ := c
    have hnext := countAfter_concat before c
    rw [← h] at hnext
    obtain ⟨hs, hlast⟩ := ih hnext.symm
    refine ⟨⟨h, hs⟩, ?_⟩
    rwa [List.append_assoc] at hlast

/-- Blanks move what stands behind them to the right. -/
theorem exists_arrange_blanks (n : Nat) (line col : UInt32) (index : Nat)
    (cs : List (Char × Bool)) : ∃ b : List Glyph, (∀ g ∈ b, isBlank g.char = true) ∧
      arrange line col index (List.replicate n (' ', true) ++ cs) =
        (b ++ (arrange line (col + .ofNat n) (index + n) cs).1,
          (arrange line (col + .ofNat n) (index + n) cs).2) := by
  induction n generalizing col index with
  | zero => exact ⟨[], nofun, by simp⟩
  | succ n ih =>
    obtain ⟨b, hb, harrange⟩ := ih (col + 1) (index + 1)
    have hcol : col + 1 + .ofNat n = col + .ofNat (n + 1) := by
      rw [UInt32.ofNat_add, UInt32.add_assoc, UInt32.add_comm 1]
      rfl
    rw [hcol, Nat.add_right_comm index] at harrange
    refine ⟨⟨' ', true, line, col, index⟩ :: b, List.forall_mem_cons.2 ⟨rfl, hb⟩, ?_⟩
    have hafter : after ' ' line col = (line, col + 1) := rfl
    rw [List.replicate_succ, List.cons_append, arrange_cons, hafter, harrange]
    rfl

end Shader.Text
