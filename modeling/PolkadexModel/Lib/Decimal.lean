import Mathlib.Data.Rat.Floor
import Mathlib.Tactic.Positivity

-- A decimal number with a mantissa of 96 bits and at most 28 decimal places.
structure Decimal where
  mantissa : ℤ
  scale : ℕ
  mantissa_lt : mantissa.natAbs < 2 ^ 96
  scale_le : scale ≤ 28
deriving DecidableEq

namespace Decimal

def toRat (x : Decimal) : ℚ :=
  x.mantissa / 10 ^ x.scale

-- The order and the equality of the numbers, which do not depend on how they are written.
instance : LE Decimal where
  le x y := x.mantissa * 10 ^ y.scale ≤ y.mantissa * 10 ^ x.scale

instance : LT Decimal where
  lt x y := x.mantissa * 10 ^ y.scale < y.mantissa * 10 ^ x.scale

instance : HasEquiv Decimal where
  Equiv x y := x.mantissa * 10 ^ y.scale = y.mantissa * 10 ^ x.scale

instance (x y : Decimal) : Decidable (x ≤ y) :=
  inferInstanceAs (Decidable (_ ≤ _))

instance (x y : Decimal) : Decidable (x < y) :=
  inferInstanceAs (Decidable (_ < _))

instance (x y : Decimal) : Decidable (x ≈ y) :=
  inferInstanceAs (Decidable (_ = _))

variable {x y z : Decimal}

theorem le_iff : x ≤ y ↔ x.toRat ≤ y.toRat := by
  simp only [toRat, div_le_div_iff₀ (show (0 : ℚ) < 10 ^ x.scale by positivity)
    (show (0 : ℚ) < 10 ^ y.scale by positivity)]
  exact_mod_cast Iff.rfl

theorem lt_iff : x < y ↔ x.toRat < y.toRat := by
  simp only [toRat, div_lt_div_iff₀ (show (0 : ℚ) < 10 ^ x.scale by positivity)
    (show (0 : ℚ) < 10 ^ y.scale by positivity)]
  exact_mod_cast Iff.rfl

theorem equiv_iff : x ≈ y ↔ x.toRat = y.toRat := by
  simp only [toRat, div_eq_div_iff (show (10 : ℚ) ^ x.scale ≠ 0 by positivity)
    (show (10 : ℚ) ^ y.scale ≠ 0 by positivity)]
  exact_mod_cast Iff.rfl

instance : Ord Decimal where
  compare x y := compare (x.mantissa * 10 ^ y.scale) (y.mantissa * 10 ^ x.scale)

theorem compare_eq (x y : Decimal) : compare x y = compare x.toRat y.toRat := by
  rcases lt_trichotomy x.toRat y.toRat with h | h | h
  · have hlt : x.mantissa * 10 ^ y.scale < y.mantissa * 10 ^ x.scale := lt_iff.mpr h
    rw [compare_lt_iff_lt.mpr h]
    exact compare_lt_iff_lt.mpr hlt
  · rw [compare_eq_iff_eq.mpr h]
    exact compare_eq_iff_eq.mpr (equiv_iff.mpr h)
  · have hlt : y.mantissa * 10 ^ x.scale < x.mantissa * 10 ^ y.scale := lt_iff.mpr h
    rw [compare_gt_iff_gt.mpr h]
    exact compare_gt_iff_gt.mpr hlt

instance : Std.TransOrd Decimal := by
  have h : (compare : Decimal → Decimal → Ordering) = compareOn toRat := funext₂ compare_eq
  rw [Std.TransOrd, h]
  infer_instance

def ofInt (n : ℤ) (h : n.natAbs < 2 ^ 96) : Decimal where
  mantissa := n
  scale := 0
  mantissa_lt := h
  scale_le := by omega

instance : Zero Decimal where
  zero := ofInt 0 (by norm_num)

instance : One Decimal where
  one := ofInt 1 (by norm_num)

instance : Inhabited Decimal where
  default := 0

@[simp]
theorem toRat_zero : (0 : Decimal).toRat = 0 := by
  change ((0 : ℤ) : ℚ) / 10 ^ 0 = 0
  simp

theorem toRat_nonpos_iff : x.toRat ≤ 0 ↔ x.mantissa ≤ 0 := by
  rw [toRat, div_le_iff₀ (show (0 : ℚ) < 10 ^ x.scale by positivity), zero_mul]
  exact_mod_cast Iff.rfl

theorem nonneg_iff : 0 ≤ x ↔ 0 ≤ x.toRat := by
  rw [le_iff, toRat_zero]

@[simp]
theorem toRat_one : (1 : Decimal).toRat = 1 := by
  change ((1 : ℤ) : ℚ) / 10 ^ 0 = 1
  simp

-- The extreme values.
def max : Decimal :=
  ofInt (2 ^ 96 - 1) (by norm_num)

def min : Decimal :=
  ofInt (1 - 2 ^ 96) (by norm_num)

def isNegative (x : Decimal) : Bool :=
  x.mantissa < 0

def isZero (x : Decimal) : Bool :=
  x.mantissa = 0

theorem isZero_iff : x.isZero ↔ x.toRat = 0 := by
  rw [isZero, decide_eq_true_iff, toRat, div_eq_zero_iff, or_iff_left (by positivity)]
  exact_mod_cast Iff.rfl

-- The conversion from an unsigned integer of 128 bits, which fails if it does not fit.
def ofNat? (n : ℕ) : Option Decimal :=
  if h : n < 2 ^ 96 then some (ofInt n h) else none

theorem toRat_ofNat? (h : ofNat? n = some x) : x.toRat = n := by
  simp only [ofNat?] at h
  split_ifs at h
  cases h
  simp [toRat, ofInt]

theorem lt_of_ofNat? (h : ofNat? n = some x) : n < 2 ^ 96 := by
  simp only [ofNat?] at h
  split_ifs at h with hlt
  exact hlt

theorem exists_ofNat? (h : n < 2 ^ 96) : ∃ x, ofNat? n = some x :=
  ⟨_, dif_pos h⟩

-- The conversion to an unsigned integer of 128 bits, without the decimal places.
def toNat? (x : Decimal) : Option ℕ :=
  if x.mantissa < 0 then none else some (x.mantissa.toNat / 10 ^ x.scale)

theorem toNat?_eq_some : x.toNat? = some n ↔ 0 ≤ x.toRat ∧ n = ⌊x.toRat⌋₊ := by
  have hpos : (0 : ℚ) < 10 ^ x.scale := by positivity
  have hsign : 0 ≤ x.toRat ↔ 0 ≤ x.mantissa := by
    rw [toRat, le_div_iff₀ hpos, zero_mul]
    exact_mod_cast Iff.rfl
  rw [toNat?, hsign]
  split_ifs with h
  · simp [h]
  · have hm := not_lt.mp h
    have hfloor : ⌊x.toRat⌋₊ = x.mantissa.toNat / 10 ^ x.scale := by
      have hcast : (x.mantissa : ℚ) = (x.mantissa.toNat : ℕ) := by
        exact_mod_cast (Int.toNat_of_nonneg hm).symm
      rw [← Rat.natFloor_natCast_div_natCast, toRat, hcast]
      push_cast
      rfl
    rw [hfloor, Option.some.injEq, and_iff_right hm, eq_comm]

section Truncate

-- The number without its decimal places after the `k`th one.
def truncate (k : ℕ) (x : Decimal) : Decimal :=
  if h : x.scale ≤ k then x else
    { mantissa := x.mantissa.tdiv (10 ^ (x.scale - k))
      scale := k
      mantissa_lt := by
        have := x.mantissa_lt
        rw [Int.natAbs_tdiv]
        exact (Nat.div_le_self ..).trans_lt this
      scale_le := (Nat.lt_of_not_le h).le.trans x.scale_le }

-- What is cut off is a decimal number.
theorem exists_truncate_sub (k : ℕ) (x : Decimal) :
    ∃ z : Decimal, z.toRat = (x.truncate k).toRat - x.toRat := by
  by_cases h : x.scale ≤ k
  · exact ⟨0, by simp [truncate, h]⟩
  · have hlt : (-(x.mantissa.tmod (10 ^ (x.scale - k)))).natAbs < 2 ^ 96 := by
      rw [Int.natAbs_neg, Int.natAbs_tmod]
      exact (Nat.mod_le ..).trans_lt x.mantissa_lt
    refine ⟨⟨_, x.scale, hlt, x.scale_le⟩, ?_⟩
    have hdiv := Int.mul_tdiv_add_tmod x.mantissa (10 ^ (x.scale - k))
    have hpow : (10 : ℚ) ^ x.scale = 10 ^ (x.scale - k) * 10 ^ k := by
      rw [← pow_add, Nat.sub_add_cancel (Nat.le_of_not_le h)]
    have hcast : (10 : ℚ) ^ (x.scale - k) * (x.mantissa.tdiv (10 ^ (x.scale - k)) : ℤ) +
        (x.mantissa.tmod (10 ^ (x.scale - k)) : ℤ) = x.mantissa := by
      exact_mod_cast hdiv
    simp only [truncate, h, dif_neg, not_false_eq_true, toRat]
    rw [hpow]
    field_simp
    push_cast
    linarith

-- The same for rational numbers that are not negative.
def truncRat (k : ℕ) (q : ℚ) : ℚ :=
  ⌊q * 10 ^ k⌋ / 10 ^ k

-- What is lost by the truncation of a number that is not negative.
def truncLoss (k : ℕ) (q : ℚ) : ℚ :=
  q - truncRat k q

theorem truncLoss_nonneg (k : ℕ) (q : ℚ) : 0 ≤ truncLoss k q := by
  have h := Int.floor_le (q * 10 ^ k)
  rw [truncLoss, truncRat, sub_nonneg, div_le_iff₀ (by positivity)]
  exact h

theorem truncLoss_lt (k : ℕ) (q : ℚ) : truncLoss k q < 1 / 10 ^ k := by
  have h := Int.lt_floor_add_one (q * 10 ^ k)
  rw [truncLoss, truncRat, sub_lt_iff_lt_add, ← add_div, lt_div_iff₀ (by positivity)]
  linarith

theorem truncRat_nonneg (h : 0 ≤ q) : 0 ≤ truncRat k q := by
  have : 0 ≤ ⌊q * 10 ^ k⌋ := Int.floor_nonneg.mpr (by positivity)
  rw [truncRat]
  positivity

theorem truncRat_le (k : ℕ) (q : ℚ) : truncRat k q ≤ q :=
  sub_nonneg.mp (truncLoss_nonneg k q)

theorem toRat_truncate (k : ℕ) (h : 0 ≤ x.toRat) : (x.truncate k).toRat = truncRat k x.toRat := by
  have hm : 0 ≤ x.mantissa := by
    by_contra hm
    have : x.toRat < 0 := div_neg_of_neg_of_pos (by exact_mod_cast not_le.mp hm) (by positivity)
    linarith
  simp only [truncate, truncRat, toRat]
  split_ifs with hs
  · -- There is nothing to cut off.
    have : (x.mantissa / 10 ^ x.scale * 10 ^ k : ℚ) = (x.mantissa * 10 ^ (k - x.scale) : ℤ) := by
      rw [← Nat.add_sub_cancel' hs, pow_add]
      push_cast
      field_simp
      simp
    rw [this, Int.floor_intCast, ← this]
    field_simp
  · have hlt := not_le.mp hs
    have : (x.mantissa / 10 ^ x.scale * 10 ^ k : ℚ) =
        (x.mantissa : ℚ) / ((10 ^ (x.scale - k) : ℕ) : ℚ) := by
      conv_lhs => rw [← Nat.add_sub_cancel' hlt.le, pow_add]
      push_cast
      field_simp
    rw [this, Rat.floor_intCast_div_natCast]
    dsimp only
    rw [Int.tdiv_eq_ediv_of_nonneg hm]
    push_cast
    rfl

theorem toRat_truncate_nonpos (k : ℕ) (h : x.toRat ≤ 0) : (x.truncate k).toRat ≤ 0 := by
  simp only [truncate]
  split_ifs with hs
  · exact h
  · have hm := Int.tdiv_nonneg (neg_nonneg.mpr (toRat_nonpos_iff.mp h))
      (show (0 : ℤ) ≤ 10 ^ (x.scale - k) by positivity)
    rw [Int.neg_tdiv] at hm
    exact toRat_nonpos_iff.mpr (neg_nonneg.mp hm)

end Truncate

-- The checked operations of a decimal arithmetic. A result that is not a decimal number is rounded
-- if it is small enough, so nothing is said about it here.
class Arith where
  checkedAdd : Decimal → Decimal → Option Decimal
  checkedSub : Decimal → Decimal → Option Decimal
  checkedMul : Decimal → Decimal → Option Decimal
  checkedDiv : Decimal → Decimal → Option Decimal
  checkedRem : Decimal → Decimal → Option Decimal
  add_exact : ∀ {x y z : Decimal}, z.toRat = x.toRat + y.toRat → ∃ w ∈ checkedAdd x y, w.toRat = z.toRat
  sub_exact : ∀ {x y z : Decimal}, z.toRat = x.toRat - y.toRat → ∃ w ∈ checkedSub x y, w.toRat = z.toRat
  mul_exact : ∀ {x y z : Decimal}, z.toRat = x.toRat * y.toRat → ∃ w ∈ checkedMul x y, w.toRat = z.toRat
  div_exact : ∀ {x y z : Decimal}, y.toRat ≠ 0 → z.toRat = x.toRat / y.toRat →
    ∃ w ∈ checkedDiv x y, w.toRat = z.toRat

section Arith

variable [Arith]

def saturatingAdd (x y : Decimal) : Decimal :=
  (Arith.checkedAdd x y).getD (if x.isNegative && y.isNegative then min else max)

def saturatingSub (x y : Decimal) : Decimal :=
  (Arith.checkedSub x y).getD (if x.isNegative then min else max)

def saturatingMul (x y : Decimal) : Decimal :=
  (Arith.checkedMul x y).getD (if x.isNegative = y.isNegative then max else min)

theorem toRat_saturatingAdd (h : z.toRat = x.toRat + y.toRat) :
    (saturatingAdd x y).toRat = x.toRat + y.toRat := by
  obtain ⟨w, hw, he⟩ := Arith.add_exact h
  simp [saturatingAdd, Option.mem_def.mp hw, he, h]

theorem toRat_saturatingSub (h : z.toRat = x.toRat - y.toRat) :
    (saturatingSub x y).toRat = x.toRat - y.toRat := by
  obtain ⟨w, hw, he⟩ := Arith.sub_exact h
  simp [saturatingSub, Option.mem_def.mp hw, he, h]

theorem toRat_saturatingMul (h : z.toRat = x.toRat * y.toRat) :
    (saturatingMul x y).toRat = x.toRat * y.toRat := by
  obtain ⟨w, hw, he⟩ := Arith.mul_exact h
  simp [saturatingMul, Option.mem_def.mp hw, he, h]

end Arith

section Grid

-- The multiples of `10 ^ -k` up to a bound are decimal numbers as long as their mantissa fits.
def OnGrid (k : ℕ) (q : ℚ) : Prop :=
  ∃ n : ℤ, q = n / 10 ^ k

variable {k : ℕ} {p q : ℚ}

theorem onGrid_toRat (h : x.scale ≤ k) : OnGrid k x.toRat := by
  refine ⟨x.mantissa * 10 ^ (k - x.scale), ?_⟩
  rw [toRat, ← Nat.add_sub_cancel' h, pow_add]
  push_cast
  field_simp
  simp

theorem OnGrid.mono (h : OnGrid j q) (hjk : j ≤ k) : OnGrid k q := by
  obtain ⟨n, hn⟩ := h
  refine ⟨n * 10 ^ (k - j), ?_⟩
  rw [hn, ← Nat.add_sub_cancel' hjk, pow_add]
  push_cast
  rw [Nat.add_sub_cancel_left]
  field_simp

theorem OnGrid.add (hp : OnGrid k p) (hq : OnGrid k q) : OnGrid k (p + q) := by
  obtain ⟨m, hm⟩ := hp
  obtain ⟨n, hn⟩ := hq
  exact ⟨m + n, by rw [hm, hn]; push_cast; ring⟩

theorem OnGrid.sub (hp : OnGrid k p) (hq : OnGrid k q) : OnGrid k (p - q) := by
  obtain ⟨m, hm⟩ := hp
  obtain ⟨n, hn⟩ := hq
  exact ⟨m - n, by rw [hm, hn]; push_cast; ring⟩

theorem OnGrid.truncRat {j : ℕ} (h : j ≤ k) (q : ℚ) : OnGrid k (truncRat j q) := by
  refine ⟨⌊q * 10 ^ j⌋ * 10 ^ (k - j), ?_⟩
  rw [Decimal.truncRat, ← Nat.add_sub_cancel' h, pow_add]
  push_cast
  field_simp
  simp

-- Nothing is lost exactly by the numbers on the grid.
theorem truncLoss_eq_zero_iff : truncLoss k q = 0 ↔ OnGrid k q := by
  rw [truncLoss, sub_eq_zero]
  constructor
  · exact fun h => h ▸ .truncRat le_rfl q
  · rintro ⟨n, hn⟩
    have hpow : (10 : ℚ) ^ k ≠ 0 := by positivity
    rw [Decimal.truncRat, hn, div_mul_cancel₀ _ hpow, Int.floor_intCast]

theorem OnGrid.exists_decimal (hq : OnGrid k q) (hk : k ≤ 28) (hlt : |q| * 10 ^ k < 2 ^ 96) :
    ∃ z : Decimal, z.toRat = q := by
  obtain ⟨n, hn⟩ := hq
  have habs : (n.natAbs : ℚ) < 2 ^ 96 := by
    rw [hn, abs_div, abs_of_pos (show (0 : ℚ) < 10 ^ k by positivity),
      div_mul_cancel₀ _ (by positivity)] at hlt
    simpa [Nat.cast_natAbs] using hlt
  exact ⟨⟨n, k, by exact_mod_cast habs, hk⟩, hn.symm⟩

end Grid

end Decimal
