import Mathlib.Order.Bounds.Basic
import Mathlib.Algebra.Order.Ring.Int
import Mathlib.Tactic.Positivity
import Shader.ValueType

/-!
# The layout of uniform blocks

A block is laid out by the std140 rules: a member stands at the least multiple of its alignment that
is not before the end of the member before it, and the block ends at the least multiple of all
alignments, and of the alignment of a column, that is not before the end of the last member. These
are rules for whole numbers. Where the size of a block by the rules is a signed word of 64 bits, the
layout that is computed is the one by the rules.

That takes two things. Clearing bits rounds up, since all alignments are powers of two. And no sum
leaves the words: the size is a multiple of the alignment of the block, as `2 ^ 63` is, so there is
room behind the last member for the largest number that is added before rounding.
-/

namespace Shader

/-! ## Rounding up -/

/-- Rounding `x` up to a multiple of `a` on whole numbers. -/
theorem isLeast_roundedUp {x a : ℤ} (ha : 0 < a) :
    IsLeast {n | a ∣ n ∧ x ≤ n} ((x + a - 1) / a * a) := by
  refine ⟨⟨Int.dvd_mul_left _ _, ?_⟩, fun n hn => ?_⟩
  · have hmod := Int.emod_lt_of_pos (x + a - 1) ha
    have hdiv := Int.mul_ediv_add_emod (x + a - 1) a
    rw [mul_comm] at hdiv
    omega
  · obtain ⟨⟨c, rfl⟩, hle⟩ := hn
    have hlt : (x + a - 1) / a < c + 1 := by
      refine Int.ediv_lt_of_lt_mul ha ?_
      rw [add_mul, mul_comm c, one_mul]
      omega
    rw [mul_comm a c]
    exact Int.mul_le_mul_of_nonneg_right (Int.lt_add_one_iff.1 hlt) ha.le

theorem and_not_eq_sub {n : ℕ} (x m : BitVec n) : x &&& ~~~m = x - (x &&& m) := by
  refine BitVec.eq_sub_iff_add_eq.2 ?_
  rw [BitVec.add_eq_or_of_and_eq_zero]
  all_goals
    ext i hi
    simp only [BitVec.getElem_or, BitVec.getElem_and, BitVec.getElem_not, BitVec.getElem_zero]
    cases x[i] <;> cases m[i] <;> rfl

/-- Clearing the lowest bits rounds down to a multiple of a power of two. -/
theorem toNat_and_not {n k : ℕ} {x m : BitVec n} (hm : m.toNat = 2 ^ k - 1) :
    (x &&& ~~~m).toNat = x.toNat / 2 ^ k * 2 ^ k := by
  have hle : x &&& m ≤ x := by
    rw [BitVec.le_def, BitVec.toNat_and]
    exact Nat.and_le_left
  have hdiv := Nat.div_add_mod' x.toNat (2 ^ k)
  rw [and_not_eq_sub, BitVec.toNat_sub_of_le hle, BitVec.toNat_and, hm,
    Nat.and_two_pow_sub_one_eq_mod]
  omega

theorem toInt_eq_toNat {x : Int64} (hx : 0 ≤ x.toInt) : x.toInt = x.toBitVec.toNat := by
  have hcond := BitVec.toInt_eq_toNat_cond x.toBitVec
  have hlt := x.toBitVec.isLt
  rw [Int64.toInt_toBitVec] at hcond
  split at hcond
  · exact hcond
  · omega

theorem toInt_add {x y : Int64} (hlow : -2 ^ 63 ≤ x.toInt + y.toInt)
    (hhigh : x.toInt + y.toInt < 2 ^ 63) : (x + y).toInt = x.toInt + y.toInt := by
  rw [Int64.toInt_add, Int.bmod_eq_of_le] <;> omega

theorem toInt_sub_one {x : Int64} (hx : 0 ≤ x.toInt) : (x - 1).toInt = x.toInt - 1 := by
  have := x.toInt_lt
  rw [Int64.toInt_sub, Int64.toInt_one, Int.bmod_eq_of_le] <;> omega

/-- The number that is rounded down is exact although the sum before it need not be. -/
theorem toInt_add_sub_one {x y : Int64} (hlow : 0 ≤ x.toInt + y.toInt)
    (hhigh : x.toInt + y.toInt ≤ 2 ^ 63) : (x + y - 1).toInt = x.toInt + y.toInt - 1 := by
  rw [Int64.toInt_sub, Int64.toInt_add, Int64.toInt_one, Int.bmod_sub_bmod, Int.bmod_eq_of_le] <;>
    omega

theorem toInt_roundUp {x a : Int64} {k : ℕ} (ha : a.toInt = 2 ^ k) (hx : 0 ≤ x.toInt)
    (hroom : x.toInt + a.toInt ≤ 2 ^ 63) :
    (roundUp x a).toInt = (x.toInt + a.toInt - 1) / a.toInt * a.toInt := by
  have hpos : (0 : ℤ) < 2 ^ k := by positivity
  have hsum := toInt_add_sub_one (x := x) (y := a) (by omega) hroom
  have hbits := toInt_eq_toNat (x := x + a - 1) (by omega)
  have hmask : (a - 1).toBitVec.toNat = 2 ^ k - 1 := by
    have hsub := toInt_sub_one (x := a) (by omega)
    have := toInt_eq_toNat (x := a - 1) (by omega)
    have hcast : ((2 ^ k : ℕ) : ℤ) = 2 ^ k := by norm_cast
    omega
  have hdown : (roundUp x a).toBitVec.toNat = (x + a - 1).toBitVec.toNat / 2 ^ k * 2 ^ k := by
    rw [roundUp, Int64.toBitVec_and, Int64.toBitVec_not, toNat_and_not hmask]
  have hle := Nat.div_mul_le_self (x + a - 1).toBitVec.toNat (2 ^ k)
  rw [← Int64.toInt_toBitVec, BitVec.toInt_eq_toNat_of_lt (by omega), hdown, ← hsum, hbits, ha]
  push_cast
  rfl

/-- Clearing bits rounds up to a multiple of a power of two. -/
theorem isLeast_roundUp {x a : Int64} {k : ℕ} (ha : a.toInt = 2 ^ k) (hx : 0 ≤ x.toInt)
    (hroom : x.toInt + a.toInt ≤ 2 ^ 63) :
    IsLeast {n | a.toInt ∣ n ∧ x.toInt ≤ n} (roundUp x a).toInt := by
  rw [toInt_roundUp ha hx hroom]
  exact isLeast_roundedUp (ha ▸ by positivity)

/-! ## Sizes and alignments -/

namespace ValueType

/-- What the sizes and alignments of types have in common. -/
structure Measured (t : ValueType) : Prop where
  /-- alignments are powers of two -/
  alignment : ∃ k, k < 6 ∧ t.alignment.toInt = 2 ^ k
  size_nonneg : 0 ≤ t.byteSize.toInt
  /-- a type without a size has no alignment to speak of -/
  alignment_of_size : t.byteSize.toInt = 0 → t.alignment.toInt = 1
  /-- neither is large -/
  small : t.alignment.toInt + t.byteSize.toInt ≤ 80

theorem measured (t : ValueType) : t.Measured := by
  have hdata : ∀ t ∈ DataType.all, (∃ k, k < 6 ∧ t.alignment.toInt = 2 ^ k) ∧
      0 ≤ t.byteSize.toInt ∧ (t.byteSize.toInt = 0 → t.alignment.toInt = 1) ∧
      t.alignment.toInt + t.byteSize.toInt ≤ 80 := by
    decide
  have hnone : t.alignment = 1 → t.byteSize = 0 → t.Measured := fun ha hs =>
    ⟨⟨0, by decide, by rw [ha]; rfl⟩, by rw [hs]; decide, fun _ => by rw [ha]; rfl,
      by rw [ha, hs]; decide⟩
  cases t with
  | data t =>
    obtain ⟨halign, hnonneg, hzero, hsmall⟩ := hdata t (DataType.mem_all t)
    exact ⟨halign, hnonneg, hzero, hsmall⟩
  | error => exact hnone rfl rfl
  | unlisted code => exact hnone rfl rfl

theorem alignment_pos (t : ValueType) : 0 < t.alignment.toInt := by
  obtain ⟨k, -, hk⟩ := t.measured.alignment
  exact hk ▸ by positivity

end ValueType

/-! ## Layouts by the rules -/

namespace Block

/-- Where what stands in front of a member ends: the member before it, or the start. -/
def reach (start : ℤ) (members : List ValueType) (offsets : List ℤ) : ℕ → ℤ
  | 0 => start
  | i + 1 => offsets.getD i 0 + (members.getD i .error).byteSize.toInt

/-- Members are laid out from `start` on, each at the first place that it can have. -/
structure Placed (start : ℤ) (members : List ValueType) (offsets : List ℤ) : Prop where
  length : offsets.length = members.length
  least : ∀ i < members.length, IsLeast
    {n | (members.getD i .error).alignment.toInt ∣ n ∧ reach start members offsets i ≤ n}
    (offsets.getD i 0)

/-- Offsets and size of a block by the rules. -/
structure Std140 (members : List ValueType) (offsets : List ℤ) (size : ℤ) : Prop where
  placed : Placed 0 members offsets
  size : IsLeast {n | 16 ∣ n ∧ (∀ t ∈ members, t.alignment.toInt ∣ n) ∧
    reach 0 members offsets members.length ≤ n} size

variable {start o : ℤ} {t : ValueType} {members : List ValueType} {offsets : List ℤ}

theorem reach_cons (i : ℕ) : reach start (t :: members) (o :: offsets) (i + 1) =
    reach (o + t.byteSize.toInt) members offsets i := by
  cases i <;> rfl

theorem placed_nil : Placed start [] offsets ↔ offsets = [] := by
  refine ⟨fun h => List.length_eq_zero_iff.1 h.length, ?_⟩
  rintro rfl
  exact ⟨rfl, fun i hi => absurd hi (Nat.not_lt_zero i)⟩

theorem placed_cons : Placed start (t :: members) (o :: offsets) ↔
    IsLeast {n | t.alignment.toInt ∣ n ∧ start ≤ n} o ∧
      Placed (o + t.byteSize.toInt) members offsets := by
  constructor
  · intro h
    refine ⟨h.least 0 (Nat.succ_pos _), Nat.succ_injective h.length, fun i hi => ?_⟩
    have hleast := h.least (i + 1) (Nat.succ_lt_succ hi)
    rwa [reach_cons] at hleast
  · rintro ⟨hleast, h⟩
    refine ⟨congrArg Nat.succ h.length, fun i hi => ?_⟩
    cases i with
    | zero => exact hleast
    | succ i =>
      rw [reach_cons]
      exact h.least i (Nat.lt_of_succ_lt_succ hi)

theorem exists_placed (start : ℤ) (members : List ValueType) :
    ∃ offsets, Placed start members offsets := by
  induction members generalizing start with
  | nil => exact ⟨[], placed_nil.2 rfl⟩
  | cons t members ih =>
    have hleast := isLeast_roundedUp (x := start) t.alignment_pos
    obtain ⟨offsets, hoffsets⟩ := ih (_ + t.byteSize.toInt)
    exact ⟨_ :: offsets, placed_cons.2 ⟨hleast, hoffsets⟩⟩

theorem Placed.unique {offsets' : List ℤ} (h : Placed start members offsets)
    (h' : Placed start members offsets') : offsets' = offsets := by
  induction members generalizing start offsets offsets' with
  | nil => rw [placed_nil.1 h, placed_nil.1 h']
  | cons t members ih =>
    obtain ⟨o, offsets, rfl⟩ := List.exists_cons_of_length_eq_add_one h.length
    obtain ⟨o', offsets', rfl⟩ := List.exists_cons_of_length_eq_add_one h'.length
    obtain ⟨ho, h⟩ := placed_cons.1 h
    obtain ⟨ho', h'⟩ := placed_cons.1 h'
    obtain rfl : o' = o := ho'.unique ho
    rw [ih h h']

theorem Placed.reach_le_offset (h : Placed start members offsets) {i : ℕ}
    (hi : i < members.length) : reach start members offsets i ≤ offsets.getD i 0 :=
  (h.least i hi).1.2

/-- Members do not overlap, and are in order. -/
theorem Placed.reach_mono (h : Placed start members offsets) {i j : ℕ} (hij : i ≤ j)
    (hj : j ≤ members.length) : reach start members offsets i ≤ reach start members offsets j := by
  induction j, hij using Nat.le_induction with
  | base => exact le_rfl
  | succ j hij ih =>
    have hoffset := h.reach_le_offset hj
    have hsize := (members.getD j .error).measured.size_nonneg
    exact (ih (Nat.le_of_succ_le hj)).trans (hoffset.trans (le_add_of_nonneg_right hsize))

/-- A member takes little more than its size. -/
theorem Placed.reach_le (h : Placed start members offsets) {i : ℕ} (hi : i ≤ members.length) :
    reach start members offsets i ≤ start + 80 * i := by
  induction i with
  | zero => simp [reach]
  | succ i ih =>
    have hreach := ih (Nat.le_of_succ_le hi)
    have hpos := (members.getD i .error).alignment_pos
    have hfirst := (h.least i hi).2 (isLeast_roundedUp hpos).1
    have hround := Int.ediv_mul_le (reach start members offsets i +
      (members.getD i .error).alignment.toInt - 1) hpos.ne'
    have hsmall := (members.getD i .error).measured.small
    rw [reach]
    omega

/-! ## Layouts in words -/

/-- The members of a block by size and alignment. -/
def measures (members : List ValueType) : List (Int64 × Int64) :=
  members.map fun t => (t.byteSize, t.alignment)

theorem offsetsFrom_take (start : Int64) (ms : List (Int64 × Int64)) (k : ℕ) :
    (offsetsFrom start (ms.take k)).1 = (offsetsFrom start ms).1.take k := by
  induction ms generalizing start k with
  | nil => simp [offsetsFrom]
  | cons m ms ih =>
    cases k with
    | zero => rfl
    | succ k => exact congrArg (_ :: ·) (ih _ k)

/-- Where there is room for one more alignment behind the last member, nothing is lost. -/
theorem offsetsFrom_placed (start : Int64) {A : ℤ} (h : Placed start.toInt members offsets)
    (hstart : 0 ≤ start.toInt) (hA : ∀ t ∈ members, t.alignment.toInt ≤ A) (hpos : 0 < A)
    (hroom : reach start.toInt members offsets members.length + A ≤ 2 ^ 63) :
    (offsetsFrom start (measures members)).1.map Int64.toInt = offsets ∧
      (offsetsFrom start (measures members)).2.toInt =
        reach start.toInt members offsets members.length := by
  induction members generalizing start offsets with
  | nil => exact ⟨(placed_nil.1 h).symm, rfl⟩
  | cons t members ih =>
    obtain ⟨o, offsets, rfl⟩ := List.exists_cons_of_length_eq_add_one h.length
    obtain ⟨halign, hA⟩ := List.forall_mem_cons.1 hA
    obtain ⟨k, -, hk⟩ := t.measured.alignment
    rw [List.length_cons] at hroom ⊢
    have hfirst : start.toInt ≤ o := h.reach_le_offset (Nat.succ_pos _)
    have hlast : o + t.byteSize.toInt ≤
        reach start.toInt (t :: members) (o :: offsets) (members.length + 1) :=
      h.reach_mono (Nat.succ_le_succ (Nat.zero_le members.length)) le_rfl
    have hsize := t.measured.size_nonneg
    obtain ⟨hleast, h⟩ := placed_cons.1 h
    have ho : (roundUp start t.alignment).toInt = o :=
      (isLeast_roundUp hk hstart (by omega)).unique hleast
    have hnext : (roundUp start t.alignment + t.byteSize).toInt = o + t.byteSize.toInt := by
      rw [toInt_add, ho] <;> rw [ho] <;> omega
    rw [reach_cons, ← hnext] at hroom ⊢
    obtain ⟨hoffsets, hreach⟩ := ih _ (hnext ▸ h) (by omega) hA hroom
    exact ⟨congrArg₂ List.cons ho hoffsets, hreach⟩

/-- The largest alignment is found among those of the members and the one that is given. -/
theorem foldl_alignment (a : Int64) (members : List ValueType) :
    let b := (measures members).foldl (fun a m => if a < m.2 then m.2 else a) a
    a.toInt ≤ b.toInt ∧ (∀ t ∈ members, t.alignment.toInt ≤ b.toInt) ∧
      (b = a ∨ ∃ t ∈ members, b = t.alignment) := by
  induction members generalizing a with
  | nil => exact ⟨le_rfl, fun t ht => absurd ht List.not_mem_nil, .inl rfl⟩
  | cons t members ih =>
    obtain ⟨hle, hall, hfrom⟩ := ih (if a < t.alignment then t.alignment else a)
    have hmax : a.toInt ≤ (if a < t.alignment then t.alignment else a).toInt ∧
        t.alignment.toInt ≤ (if a < t.alignment then t.alignment else a).toInt := by
      split
      next hlt => exact ⟨(Int64.lt_iff_toInt_lt.1 hlt).le, le_rfl⟩
      next hlt => exact ⟨le_rfl, not_lt.1 (mt Int64.lt_iff_toInt_lt.2 hlt)⟩
    refine ⟨hmax.1.trans hle, List.forall_mem_cons.2 ⟨hmax.2.trans hle, hall⟩, ?_⟩
    obtain hfrom | ⟨u, hu, hfrom⟩ := hfrom
    · obtain h | h := ite_eq_or_eq (a < t.alignment) t.alignment a
      · exact .inr ⟨t, List.mem_cons_self, hfrom.trans h⟩
      · exact .inl (hfrom.trans h)
    · exact .inr ⟨u, List.mem_cons_of_mem _ hu, hfrom⟩

/-- The alignment of a block is a power of two that all alignments divide. -/
theorem alignment_measures (members : List ValueType) :
    (∃ k, k < 6 ∧ (alignment (measures members)).toInt = 2 ^ k) ∧
    (∀ t ∈ members, t.alignment.toInt ≤ (alignment (measures members)).toInt) ∧
    ∀ n, (alignment (measures members)).toInt ∣ n ↔
      16 ∣ n ∧ ∀ t ∈ members, t.alignment.toInt ∣ n := by
  obtain ⟨hcolumn, hall, hfrom⟩ := foldl_alignment columnAlignment members
  change _ ≤ (alignment (measures members)).toInt at hcolumn
  have hpow : ∃ k, k < 6 ∧ (alignment (measures members)).toInt = 2 ^ k := by
    obtain h | ⟨t, -, h⟩ := hfrom
    · exact ⟨4, by decide, congrArg Int64.toInt h⟩
    · obtain ⟨k, hk, ht⟩ := t.measured.alignment
      exact ⟨k, hk, (congrArg Int64.toInt h).trans ht⟩
  refine ⟨hpow, hall, fun n => ⟨fun hn => ?_, fun ⟨hcol, hn⟩ => ?_⟩⟩
  · obtain ⟨k, -, hk⟩ := hpow
    have hdvd : ∀ j : ℕ, (2 : ℤ) ^ j ≤ 2 ^ k → (2 : ℤ) ^ j ∣ n := fun j hj =>
      (pow_dvd_pow 2 ((pow_le_pow_iff_right₀ one_lt_two).1 hj)).trans (hk ▸ hn)
    refine ⟨hdvd 4 (hk ▸ hcolumn), fun t ht => ?_⟩
    obtain ⟨j, -, hj⟩ := t.measured.alignment
    have hle := hall t ht
    exact hj ▸ hdvd j (by rwa [← hj, ← hk])
  · obtain h | ⟨t, ht, h⟩ := hfrom
    · exact (congrArg Int64.toInt h) ▸ hcol
    · exact (congrArg Int64.toInt h) ▸ hn t ht

/-- The size of a block leaves room for its alignment below the end of the words. -/
theorem Std140.room {size : ℤ} (h : Std140 members offsets size) (hsize : size < 2 ^ 63) :
    size + (alignment (measures members)).toInt ≤ 2 ^ 63 := by
  obtain ⟨⟨k, hk, hpow⟩, -, hdvd⟩ := alignment_measures members
  have hlimit : (alignment (measures members)).toInt ∣ 2 ^ 63 :=
    hpow ▸ pow_dvd_pow 2 (by omega)
  have hmul := (hdvd size).2 ⟨h.size.1.1, h.size.1.2.1⟩
  have hrest := Int.le_of_dvd (by omega) (dvd_sub hlimit hmul)
  omega

/-- No sum that is formed for a member leaves the words. -/
theorem Std140.sums {size : ℤ} (h : Std140 members offsets size) (hsize : size < 2 ^ 63) {i : ℕ}
    (hi : i < members.length) :
    reach 0 members offsets i + (members.getD i .error).alignment.toInt < 2 ^ 63 ∧
      offsets.getD i 0 + (members.getD i .error).byteSize.toInt < 2 ^ 63 := by
  obtain ⟨⟨k, -, hpow⟩, hall, hdvd⟩ := alignment_measures members
  have hcolumn := Int.le_of_dvd (hpow ▸ by positivity) ((hdvd _).1 dvd_rfl).1
  have halign := hall (members.getD i .error) (by
    rw [List.getD_eq_getElem?_getD, List.getElem?_eq_getElem hi]
    exact List.getElem_mem hi)
  have hroom := h.room hsize
  have hend : offsets.getD i 0 + (members.getD i .error).byteSize.toInt ≤ size :=
    (h.placed.reach_mono hi le_rfl).trans h.size.1.2.2
  have hoffset := h.placed.reach_le_offset hi
  have hmeasured := (members.getD i .error).measured
  have hnonneg := hmeasured.size_nonneg
  refine ⟨?_, by omega⟩
  -- what has no size is not rounded for, and anything else ends before the block does
  by_cases hzero : (members.getD i .error).byteSize.toInt = 0
  · have := hmeasured.alignment_of_size hzero
    omega
  · omega

/-- The layout by the rules is the one that is computed. -/
theorem Std140.blockLayout {size : ℤ} (h : Std140 members offsets size) (hsize : size < 2 ^ 63) :
    (ValueType.blockLayout members).1.map Int64.toInt = offsets ∧
      (ValueType.blockLayout members).2.toInt = size := by
  obtain ⟨⟨k, -, hpow⟩, hall, hdvd⟩ := alignment_measures members
  have hpos : 0 < (alignment (measures members)).toInt := hpow ▸ by positivity
  have hroom := h.room hsize
  have hlast := h.size.1.2.2
  have hstart : 0 ≤ reach 0 members offsets members.length :=
    h.placed.reach_mono (Nat.zero_le _) le_rfl
  obtain ⟨hoffsets, hreach⟩ := offsetsFrom_placed 0 h.placed le_rfl hall hpos
    ((Int.add_le_add_right hlast _).trans hroom)
  rw [show Int64.toInt 0 = 0 from rfl] at hreach
  refine ⟨hoffsets, ?_⟩
  change (roundUp (offsetsFrom 0 (measures members)).2 (alignment (measures members))).toInt = size
  have hleast := isLeast_roundUp (x := (offsetsFrom 0 (measures members)).2) hpow (by omega)
    (by omega)
  rw [hreach] at hleast
  simp only [hdvd, and_assoc] at hleast
  exact hleast.unique h.size

/-- Every block has exactly one layout by the rules. Where its size is below `2 ^ 63`, that is the
layout which is computed, with its members in order and apart, and the sums on the way are below
`2 ^ 63` too. Only the last one, the end of the members and the alignment of the block, from which
one is taken to round the size up, may then be `2 ^ 63` itself, and comes around and back; it is
below where there are fewer than `2 ^ 56` members. What comes behind a member does not move it. -/
theorem computes_std140 (members : List ValueType) : ∃ offsets size,
    (Std140 members offsets size ∧
      ∀ offsets' size', Std140 members offsets' size' → offsets' = offsets ∧ size' = size) ∧
    (size < 2 ^ 63 →
      (ValueType.blockLayout members).1.map Int64.toInt = offsets ∧
      (ValueType.blockLayout members).2.toInt = size ∧
      (∀ i j, i < j → j < members.length →
        offsets.getD i 0 + (members.getD i .error).byteSize.toInt ≤ offsets.getD j 0) ∧
      (∀ i < members.length,
        reach 0 members offsets i + (members.getD i .error).alignment.toInt < 2 ^ 63 ∧
        offsets.getD i 0 + (members.getD i .error).byteSize.toInt < 2 ^ 63) ∧
      reach 0 members offsets members.length + (alignment (measures members)).toInt - 1 < 2 ^ 63) ∧
    (members.length < 2 ^ 56 → size < 2 ^ 63 ∧
      reach 0 members offsets members.length + (alignment (measures members)).toInt < 2 ^ 63) ∧
    ∀ k, (ValueType.blockLayout (members.take k)).1 = (ValueType.blockLayout members).1.take k := by
  obtain ⟨offsets, hplaced⟩ := exists_placed 0 members
  obtain ⟨⟨k, hk, hpow⟩, hall, hdvd⟩ := alignment_measures members
  have hpos : 0 < (alignment (measures members)).toInt := hpow ▸ by positivity
  have hleast := isLeast_roundedUp (x := reach 0 members offsets members.length) hpos
  simp only [hdvd, and_assoc] at hleast
  have hstd : Std140 members offsets _ := ⟨hplaced, hleast⟩
  refine ⟨offsets, _, ⟨hstd, fun offsets' size' h => ?_⟩, fun hsize => ?_, fun hshort => ?_,
    fun k => ?_⟩
  · obtain rfl := hplaced.unique h.placed
    exact ⟨rfl, h.size.unique hleast⟩
  · have hroom := hstd.room hsize
    have hlast := hstd.size.1.2.2
    obtain ⟨hoffsets, hcomputed⟩ := hstd.blockLayout hsize
    refine ⟨hoffsets, hcomputed, fun i j hij hj => ?_, fun i hi => hstd.sums hsize hi, by omega⟩
    exact (hplaced.reach_mono hij hj.le).trans (hplaced.reach_le_offset hj)
  · have hreach := hplaced.reach_le le_rfl
    have hround := Int.ediv_mul_le (reach 0 members offsets members.length +
      (alignment (measures members)).toInt - 1) hpos.ne'
    have hlarge : (alignment (measures members)).toInt ≤ 2 ^ 5 :=
      hpow ▸ pow_le_pow_right₀ one_le_two (by omega)
    omega
  · rw [ValueType.blockLayout, List.map_take]
    exact offsetsFrom_take 0 _ k

-- A vector of three leaves room for a number behind it.
example : ValueType.blockLayout [DataType.vector .float .three, DataType.float,
    DataType.matrix .three, DataType.double] = ([0, 12, 16, 64], 80) := by decide

end Block

end Shader
