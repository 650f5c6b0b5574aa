import Mathlib.Data.List.DropRight
import Mathlib.Data.Nat.Digits.Lemmas
import Shader.Proofs.Token.Numerals
import Shader.Lowering.Expr

/-!
# The values of integers in the text

An integer in the text stands for the number of its decimal digits, as far as it is a number of its
type. An unsigned number in the upper half of its range becomes the signed word with the same bits.
-/

namespace Shader

/-- The number whose decimal digits are those of a text. -/
def decimalValue (cs : List Char) : ℕ :=
  Nat.ofDigits 10 ((cs.filter isDigit).reverse.map Numeral.digitValue)

theorem Numeral.ofDigits_eq (cs : List Char) :
    ofDigits cs = Nat.ofDigits 10 (cs.reverse.map digitValue) := by
  rw [ofDigits, digitsFrom]
  induction cs using List.reverseRecOn with
  | nil => rfl
  | append_singleton cs c ih =>
    rw [List.foldl_append, List.reverse_append, List.foldl_cons, List.foldl_nil, ih]
    rw [List.reverse_singleton, List.singleton_append, List.map_cons, Nat.ofDigits_cons,
      Nat.add_comm]

namespace Lowering

open Ir NumberForm

theorem isDigit_eq (c : Char) : isDigit c = c.isDigit := by
  simp [isDigit, Char.isDigit, Char.le_def, UInt32.le_iff_toNat_le]

theorem isDigit_of_isSuffixLetter {c : Char} (h : isSuffixLetter c = true) : isDigit c = false := by
  simp only [isSuffixLetter, Bool.or_eq_true, beq_iff_eq] at h
  rcases h with ((rfl | rfl) | rfl) | rfl <;> rfl

section

variable {ds u : List Char}

theorem unsuffixed_append (hds : ∀ c ∈ ds, isDigit c = true)
    (hu : ∀ c ∈ u, isSuffixLetter c = true) : unsuffixed (ds ++ u) = ds := by
  have hu' : ∀ c ∈ u.reverse, isSuffixLetter c = true := fun c hc => hu c (List.mem_reverse.1 hc)
  have hstop : ds.reverse.dropWhile isSuffixLetter = ds.reverse := by
    rcases hcons : ds.reverse with _ | ⟨c, cs⟩
    · rfl
    · have hc := hds c (List.mem_reverse.1 (hcons ▸ List.mem_cons_self))
      refine List.dropWhile_cons_of_neg fun hsuffix => ?_
      rw [isDigit_of_isSuffixLetter hsuffix] at hc
      cases hc
  rw [unsuffixed, List.reverse_append, List.dropWhile_append_of_pos hu', hstop,
    List.reverse_reverse]

theorem decimalValue_append (hds : ∀ c ∈ ds, isDigit c = true)
    (hu : ∀ c ∈ u, isSuffixLetter c = true) : decimalValue (ds ++ u) = Numeral.ofDigits ds := by
  have hnone : u.filter isDigit = [] :=
    List.filter_eq_nil_iff.2 fun c hc => by simp [isDigit_of_isSuffixLetter (hu c hc)]
  rw [decimalValue, List.filter_append, hnone, List.append_nil, List.filter_eq_self.2 hds,
    Numeral.ofDigits_eq]

/-- Of an integer exactly the digits are parsed. -/
theorem parseUnsigned?_append (hne : ds ≠ []) (hds : ∀ c ∈ ds, isDigit c = true)
    (hu : ∀ c ∈ u, isSuffixLetter c = true) :
    parseUnsigned? (unsuffixed (ds ++ u)) =
      if decimalValue (ds ++ u) < unsignedBound then some (decimalValue (ds ++ u)) else none := by
  have hall : ds.all Char.isDigit = true :=
    List.all_eq_true.2 fun c hc => (isDigit_eq c).symm.trans (hds c hc)
  rw [unsuffixed_append hds hu, decimalValue_append hds hu, parseUnsigned?]
  simp [hne, hall]

end

/-- What becomes of an integer of a kind with the given bound. -/
theorem intLiteral_eq (kind : NumberKind) {bound : ℕ} {text : String} {ds u : List Char}
    (htext : ds ++ u = text.toList) (hds : ds ∈ digits.matches')
    (hu : ∀ c ∈ u, isSuffixLetter c = true) (hbound : bound ≤ unsignedBound) :
    intLiteral kind bound text =
      if decimalValue text.toList < bound then .ok (.int (signedWord (decimalValue text.toList)))
      else .error (.literalRange kind text) := by
  obtain ⟨hne, hds⟩ := mem_digits.1 hds
  have hparse := parseUnsigned?_append hne hds hu
  rw [htext] at hparse
  rw [intLiteral, hparse]
  by_cases hlt : decimalValue text.toList < unsignedBound
  · rw [if_pos hlt]
  · rw [if_neg hlt, if_neg (by omega)]

theorem literal_int {text : String} (h : text.toList ∈ NumberKind.int.form.matches') :
    literal .int text =
      if decimalValue text.toList ≤ 2 ^ 31 - 1 then .ok (.int (decimalValue text.toList))
      else .error (.literalRange .int text) := by
  have hbound : signedBound ≤ unsignedBound := by decide
  have heq := intLiteral_eq .int (List.append_nil _) h nofun hbound
  have hiff : decimalValue text.toList < signedBound ↔ decimalValue text.toList ≤ 2 ^ 31 - 1 :=
    Nat.lt_iff_le_pred (by decide)
  rw [literal, heq]
  by_cases hlt : decimalValue text.toList < signedBound
  · rw [if_pos hlt, if_pos (hiff.1 hlt), signedWord, if_pos hlt]
  · rw [if_neg hlt, if_neg (mt hiff.2 hlt)]

theorem literal_uint {text : String} (h : text.toList ∈ NumberKind.uint.form.matches') :
    literal .uint text =
      if decimalValue text.toList ≤ 2 ^ 32 - 1 then
        .ok (.int (if decimalValue text.toList < 2 ^ 31 then decimalValue text.toList
          else decimalValue text.toList - 2 ^ 32))
      else .error (.literalRange .uint text) := by
  obtain ⟨ds, hds, u, hu, htext⟩ := Language.mem_mul.1 h
  have hsuffix : ∀ c ∈ u, isSuffixLetter c = true := by
    obtain ⟨c, hc, rfl⟩ := mem_pair.1 hu
    simp only [List.mem_singleton, forall_eq, isSuffixLetter, Bool.or_assoc]
    rw [hc, Bool.or_true, Bool.or_true]
  have heq := intLiteral_eq .uint htext hds hsuffix (le_refl unsignedBound)
  have hiff : decimalValue text.toList < unsignedBound ↔ decimalValue text.toList ≤ 2 ^ 32 - 1 :=
    Nat.lt_iff_le_pred (by decide)
  rw [literal, heq]
  by_cases hlt : decimalValue text.toList < unsignedBound
  · rw [if_pos hlt, if_pos (hiff.1 hlt)]
    rfl
  · rw [if_neg hlt, if_neg (mt hiff.2 hlt)]

example : literal .uint "4294967295u" = .ok (.int (-1)) := by rfl

/-- A text is scanned as one number if and only if it has the form of its kind, and any other text
that starts like a number starts with an error. Walking over an integer gives the number of its
digits, as a signed word, if this is a number of its type, and fails otherwise. -/
theorem reads_numbers (file w : String) :
    (∀ kind : NumberKind,
      ((Source.ofText file w).scan.items.map Item.piece = [(.number kind, w), (.eof, "")] ∧
        (Source.ofText file w).scan.reports = []) ↔ w.toList ∈ kind.form.matches') ∧
    (StartsNumber w.toList → ∃ item items, (Source.ofText file w).scan.items = item :: items ∧
      ((∃ kind : NumberKind, item.token = .number kind ∧ item.text.toList ∈ kind.form.matches') ∨
        item.token = .error ∧ (Source.ofText file w).scan.reports ≠ [] ∧
          ∀ kind : NumberKind, item.text.toList ∉ kind.form.matches')) ∧
    (w.toList ∈ NumberKind.int.form.matches' → ∀ Γ pos b,
      (expr Γ (.number pos .int w)).run b =
        if decimalValue w.toList ≤ 2 ^ 31 - 1 then
          .ok (.ok (.value pos .int (.int (decimalValue w.toList))), b)
        else .ok (.error ⟨pos, .literalRange .int w⟩, b)) ∧
    (w.toList ∈ NumberKind.uint.form.matches' → ∀ Γ pos b,
      (expr Γ (.number pos .uint w)).run b =
        if decimalValue w.toList ≤ 2 ^ 32 - 1 then
          .ok (.ok (.value pos .uint (.int (if decimalValue w.toList < 2 ^ 31
            then decimalValue w.toList else decimalValue w.toList - 2 ^ 32))), b)
        else .ok (.error ⟨pos, .literalRange .uint w⟩, b)) := by
  refine ⟨Source.scan_number_iff file w, Source.scan_startsNumber file w, fun h Γ pos b => ?_,
    fun h Γ pos b => ?_⟩
  · rw [expr, literal_int h]
    split_ifs <;> rfl
  · rw [expr, literal_uint h]
    by_cases hle : decimalValue w.toList ≤ 2 ^ 32 - 1
    · rw [if_pos hle, if_pos hle]
      rfl
    · rw [if_neg hle, if_neg hle]
      rfl

end Lowering

end Shader
