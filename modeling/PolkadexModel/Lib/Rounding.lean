import PolkadexModel.Lib.DecimalArith

-- Decimal numbers that are rounded faithfully: no decimal number lies between the exact result and
-- the rounded one.
namespace Decimal

theorem abs_toRat_le (z : Decimal) (h : k ≤ z.scale) : |z.toRat| * 10 ^ k ≤ 2 ^ 96 - 1 := by
  have hm : (|z.mantissa| : ℚ) ≤ 2 ^ 96 - 1 := by
    have hlt := z.mantissa_lt
    have : (z.mantissa.natAbs : ℤ) ≤ 2 ^ 96 - 1 := by omega
    rw [Int.natCast_natAbs] at this
    exact_mod_cast this
  have hpow : (10 : ℚ) ^ k ≤ 10 ^ z.scale := pow_le_pow_right₀ (by norm_num) h
  calc |z.toRat| * 10 ^ k ≤ |z.toRat| * 10 ^ z.scale := by gcongr
    _ = |(z.mantissa : ℚ)| := by
      rw [toRat, abs_div, abs_of_pos (show (0 : ℚ) < 10 ^ z.scale by positivity)]
      field_simp
    _ ≤ 2 ^ 96 - 1 := hm

structure Faithful (w : Decimal) (q : ℚ) : Prop where
  le : ∀ z : Decimal, q ≤ z.toRat → w.toRat ≤ z.toRat
  ge : ∀ z : Decimal, z.toRat ≤ q → z.toRat ≤ w.toRat

-- The result of a checked operation, which is only missing if it is out of range.
structure Rounds (result : Option Decimal) (q : ℚ) : Prop where
  faithful : ∀ w ∈ result, w.Faithful q
  fits : ∀ z₁ z₂ : Decimal, z₁.toRat ≤ q → q ≤ z₂.toRat → result ≠ none

class FaithfulArith extends Arith where
  add_rounds : ∀ x y : Decimal, Rounds (checkedAdd x y) (x.toRat + y.toRat)
  sub_rounds : ∀ x y : Decimal, Rounds (checkedSub x y) (x.toRat - y.toRat)
  mul_rounds : ∀ x y : Decimal, Rounds (checkedMul x y) (x.toRat * y.toRat)
  div_rounds : ∀ x y : Decimal, y.toRat ≠ 0 → Rounds (checkedDiv x y) (x.toRat / y.toRat)

section Saturating

variable {x y z : Decimal}

theorem toRat_max : max.toRat = 2 ^ 96 - 1 := by
  norm_num [max, ofInt, toRat]

theorem le_toRat_max (z : Decimal) : z.toRat ≤ max.toRat := by
  have h := abs_toRat_le z (Nat.zero_le _)
  rw [pow_zero, mul_one, ← toRat_max] at h
  exact (le_abs_self _).trans h

theorem toRat_min : min.toRat = -max.toRat := by
  norm_num [min, max, ofInt, toRat]

theorem toRat_min_le (z : Decimal) : min.toRat ≤ z.toRat := by
  have h := abs_toRat_le z (Nat.zero_le _)
  rw [pow_zero, mul_one, abs_le] at h
  exact (Eq.le (by norm_num [min, ofInt, toRat])).trans h.1

theorem toRat_max_pos : 0 < max.toRat := by
  norm_num [max, ofInt, toRat]

theorem isNegative_iff : x.isNegative ↔ x.toRat < 0 := by
  have hpos : (0 : ℚ) < 10 ^ x.scale := by positivity
  rw [isNegative, decide_eq_true_iff, toRat, div_lt_iff₀ hpos, zero_mul]
  exact_mod_cast Iff.rfl

-- A result that does not fit is too large or too small, and is replaced by the extreme value.
theorem Rounds.getD (h : Rounds result q) (hmax : max.toRat < q → d = max) (hmin : q < min.toRat → d = min) :
    (result.getD d).Faithful q := by
  cases hr : result with
  | some w => exact h.faithful w hr
  | none =>
    rw [Option.getD_none]
    have hq : q < min.toRat ∨ max.toRat < q := by
      by_contra hq
      push Not at hq
      exact h.fits min max hq.1 hq.2 hr
    refine ⟨fun z hz => ?_, fun z hz => ?_⟩
    · rw [hmin (hq.resolve_right (not_lt.mpr (hz.trans (le_toRat_max z))))]
      exact toRat_min_le z
    · rw [hmax (hq.resolve_left (not_lt.mpr ((toRat_min_le z).trans hz)))]
      exact le_toRat_max z

variable [FaithfulArith]

theorem faithful_saturatingAdd (x y : Decimal) : (x.saturatingAdd y).Faithful (x.toRat + y.toRat) := by
  refine (FaithfulArith.add_rounds x y).getD (fun hmax => if_neg fun hneg => ?_) fun hmin => if_pos ?_
  · obtain ⟨hx, hy⟩ := Bool.and_eq_true_iff.mp hneg
    linarith [isNegative_iff.mp hx, isNegative_iff.mp hy, toRat_max_pos]
  · have hx := toRat_min_le x
    have hy := toRat_min_le y
    exact Bool.and_eq_true_iff.mpr
      ⟨isNegative_iff.mpr (by linarith), isNegative_iff.mpr (by linarith)⟩

theorem faithful_saturatingSub (x y : Decimal) : (x.saturatingSub y).Faithful (x.toRat - y.toRat) := by
  refine (FaithfulArith.sub_rounds x y).getD (fun hmax => if_neg fun hneg => ?_)
    fun hmin => if_pos (isNegative_iff.mpr ?_)
  · linarith [isNegative_iff.mp hneg, toRat_min_le y, toRat_min]
  · linarith [le_toRat_max y, toRat_min]

theorem faithful_saturatingMul (x y : Decimal) : (x.saturatingMul y).Faithful (x.toRat * y.toRat) := by
  refine (FaithfulArith.mul_rounds x y).getD (fun hmax => if_pos ?_) fun hmin => if_neg fun he => ?_
  · have hpos : 0 < x.toRat * y.toRat := toRat_max_pos.trans hmax
    rw [Bool.eq_iff_iff, isNegative_iff, isNegative_iff]
    exact ⟨fun hx => neg_of_mul_pos_right hpos hx.le, fun hy => neg_of_mul_pos_left hpos hy.le⟩
  · have hneg : x.toRat * y.toRat < 0 := by linarith [toRat_min, toRat_max_pos]
    rw [Bool.eq_iff_iff, isNegative_iff, isNegative_iff] at he
    cases mul_neg_iff.mp hneg with
    | inl h => exact absurd (he.mpr h.2) (not_lt.mpr h.1.le)
    | inr h => exact absurd (he.mp h.1) (not_lt.mpr h.2.le)

-- A part of a positive number.
theorem faithful_checkedDiv (hx : 0 ≤ x.toRat) (hy : 0 < y.toRat) (hle : x.toRat ≤ y.toRat) :
    ((Arith.checkedDiv x y).getD 0).Faithful (x.toRat / y.toRat) := by
  have hr := FaithfulArith.div_rounds x y hy.ne'
  have hnn : (0 : Decimal).toRat ≤ x.toRat / y.toRat := by simpa using div_nonneg hx hy.le
  have hone : x.toRat / y.toRat ≤ (1 : Decimal).toRat := by simpa using (div_le_one hy).mpr hle
  obtain ⟨w, hw⟩ := Option.ne_none_iff_exists'.mp (hr.fits 0 1 hnn hone)
  rw [hw, Option.getD_some]
  exact hr.faithful w hw

end Saturating

-- The division by zero has no result.
class LawfulDiv [Arith] : Prop where
  div_zero : ∀ x y : Decimal, y.toRat = 0 → Arith.checkedDiv x y = none

namespace Faithful

variable {w : Decimal} {q : ℚ}

theorem nonneg (h : w.Faithful q) (hq : 0 ≤ q) : 0 ≤ w.toRat := by
  rw [← toRat_zero] at hq ⊢
  exact h.ge 0 hq

-- A faithful result is between the multiples of a decimal place below and above the exact one, as
-- long as these fit.
theorem bracket (h : w.Faithful q) {k : ℕ} (hk : k ≤ 28) (hq : 0 ≤ q)
    (hfit : q * 10 ^ k ≤ 2 ^ 96 - 1) :
    (⌊q * 10 ^ k⌋ : ℚ) ≤ w.toRat * 10 ^ k ∧ w.toRat * 10 ^ k ≤ ⌈q * 10 ^ k⌉ := by
  have hpos : (0 : ℚ) < 10 ^ k := by positivity
  have hq' : 0 ≤ q * 10 ^ k := by positivity
  have hceil : (⌈q * 10 ^ k⌉ : ℚ) ≤ 2 ^ 96 - 1 := by
    exact_mod_cast Int.ceil_le.mpr (show q * 10 ^ k ≤ ((2 ^ 96 - 1 : ℤ) : ℚ) by exact_mod_cast hfit)
  have onGrid (m : ℤ) (h₀ : (0 : ℚ) ≤ m) (h₁ : (m : ℚ) ≤ 2 ^ 96 - 1) :
      ∃ z : Decimal, z.toRat = m / 10 ^ k := by
    refine OnGrid.exists_decimal ⟨m, rfl⟩ hk ?_
    rw [abs_of_nonneg (by positivity), div_mul_cancel₀ _ hpos.ne']
    linarith
  have hfloor : (0 : ℚ) ≤ ⌊q * 10 ^ k⌋ := by exact_mod_cast Int.floor_nonneg.mpr hq'
  obtain ⟨below, hbelow⟩ := onGrid _ hfloor ((Int.floor_le _).trans hfit)
  obtain ⟨above, habove⟩ := onGrid _ (hq'.trans (Int.le_ceil _)) hceil
  constructor
  · rw [← div_le_iff₀ hpos, ← hbelow]
    refine h.ge below ?_
    rw [hbelow, div_le_iff₀ hpos]
    exact Int.floor_le _
  · rw [← le_div_iff₀ hpos, ← habove]
    refine h.le above ?_
    rw [habove, le_div_iff₀ hpos]
    exact Int.le_ceil _

theorem abs_sub_le (h : w.Faithful q) {k : ℕ} (hk : k ≤ 28) (hq : 0 ≤ q)
    (hfit : q * 10 ^ k ≤ 2 ^ 96 - 1) : |w.toRat - q| ≤ 1 / 10 ^ k := by
  have hpos : (0 : ℚ) < 10 ^ k := by positivity
  obtain ⟨hbelow, habove⟩ := h.bracket hk hq hfit
  have hscale : |w.toRat - q| * 10 ^ k = |w.toRat * 10 ^ k - q * 10 ^ k| := by
    rw [← sub_mul, abs_mul, abs_of_pos hpos]
  rw [le_div_iff₀ hpos, hscale, abs_le]
  constructor
  · linarith [Int.lt_floor_add_one (q * 10 ^ k)]
  · linarith [Int.ceil_lt_add_one (q * 10 ^ k)]

theorem toRat_le_add (h : w.Faithful q) {k : ℕ} (hk : k ≤ 28) (hq : 0 ≤ q)
    (hfit : q * 10 ^ k ≤ 2 ^ 96 - 1) : w.toRat ≤ q + 1 / 10 ^ k := by
  linarith [le_abs_self (w.toRat - q), h.abs_sub_le hk hq hfit]

-- The decimal places of a faithful result are those of the exact one, up to less than one unit of the
-- last of them, as long as these decimal places fit.
theorem abs_sub_truncate_lt (h : w.Faithful q) (hk : k ≤ 28) (hq : 0 ≤ q)
    (hfit : q * 10 ^ k ≤ 2 ^ 96 - 1) : |q - (w.truncate k).toRat| < 1 / 10 ^ k := by
  have hpos : (0 : ℚ) < 10 ^ k := by positivity
  obtain ⟨h₁, h₂⟩ := h.bracket hk hq hfit
  have h₁ : (⌊q * 10 ^ k⌋ : ℚ) ≤ ⌊w.toRat * 10 ^ k⌋ := by exact_mod_cast Int.le_floor.mpr h₁
  have h₂ : (⌊w.toRat * 10 ^ k⌋ : ℚ) ≤ ⌈q * 10 ^ k⌉ := (Int.floor_le _).trans h₂
  rw [toRat_truncate k (h.nonneg hq), truncRat, abs_sub_lt_iff]
  constructor
  · rw [lt_div_iff₀ hpos, sub_mul, div_mul_cancel₀ _ hpos.ne']
    linarith [Int.lt_floor_add_one (q * 10 ^ k)]
  · rw [lt_div_iff₀ hpos, sub_mul, div_mul_cancel₀ _ hpos.ne']
    linarith [Int.ceil_lt_add_one (q * 10 ^ k)]

end Faithful

namespace HalfEven

section Round

variable {n m : ℤ} {d : ℕ}

theorem round_cases (n : ℤ) (d : ℕ) :
    round n d = n / d ∧ (2 * (n % d) ≤ d) ∨ round n d = n / d + 1 ∧ d ≤ 2 * (n % d) := by
  simp only [round]
  split_ifs with h
  · exact .inl ⟨rfl, by omega⟩
  · exact .inr ⟨rfl, by omega⟩

-- The rounded number is at most half a unit away.
theorem round_near (hd : 0 < d) (n : ℤ) :
    2 * n - d ≤ 2 * (round n d * d) ∧ 2 * (round n d * d) ≤ 2 * n + d := by
  have hn := Int.mul_ediv_add_emod n d
  have hlt := Int.emod_lt_of_pos n (show (0 : ℤ) < d by exact_mod_cast hd)
  have hge := Int.emod_nonneg n (show (d : ℤ) ≠ 0 by exact_mod_cast hd.ne')
  have hmul : n / d * d = d * (n / d) := mul_comm ..
  cases round_cases n d with
  | inl h =>
    rw [h.1, hmul]
    constructor <;> omega
  | inr h =>
    rw [h.1, add_mul, hmul, one_mul]
    constructor <;> omega

theorem abs_round_sub_le (hd : 0 < d) (n : ℤ) : |(round n d : ℚ) - n / d| ≤ 1 / 2 := by
  have hd' : (0 : ℚ) < d := by exact_mod_cast hd
  obtain ⟨h₁, h₂⟩ := round_near hd n
  have h₁ : (2 * n - d : ℚ) ≤ 2 * (round n d * d) := by exact_mod_cast h₁
  have h₂ : (2 * (round n d * d) : ℚ) ≤ 2 * n + d := by exact_mod_cast h₂
  have hn : (n / d : ℚ) * d = n := div_mul_cancel₀ _ hd'.ne'
  rw [abs_le]
  constructor
  · refine le_of_mul_le_mul_right ?_ hd'
    rw [sub_mul, hn]
    linarith
  · refine le_of_mul_le_mul_right ?_ hd'
    rw [sub_mul, hn]
    linarith

end Round

section Near

variable {r : ℤ} {k : ℕ} {q : ℚ} {z : Decimal}

-- Why the number of decimal places `k` is enough: the other number does not have more of them, the
-- result is exact, or one more decimal place does not fit.
def Enough (k : ℕ) (q : ℚ) (z : Decimal) : Prop :=
  z.scale ≤ k ∨ OnGrid k q ∨ 2 ^ 96 - 1 / 2 ≤ |q| * 10 ^ (k + 1)

theorem le_of_near (hr : |r - q * 10 ^ k| ≤ 1 / 2) (hk : Enough k q z) (hz : z.toRat ≤ q) :
    z.toRat ≤ r / 10 ^ k := by
  have hpos : (0 : ℚ) < 10 ^ k := by positivity
  obtain ⟨hr, _⟩ := abs_le.mp hr
  -- An integer that is less than the exact result is less than the rounded one.
  have hint (m : ℤ) (hm : (m : ℚ) - 1 / 2 < q * 10 ^ k) : (m : ℚ) ≤ r := by
    have : (m : ℚ) - 1 < r := by linarith
    have : m - 1 < r := by exact_mod_cast this
    exact_mod_cast (show m ≤ r by omega)
  have hgrid (h : OnGrid k z.toRat) : z.toRat ≤ r / 10 ^ k := by
    obtain ⟨m, hm⟩ := h
    have hle : (m : ℚ) ≤ q * 10 ^ k := by rwa [hm, div_le_iff₀ hpos] at hz
    rw [hm, div_le_div_iff_of_pos_right hpos]
    exact hint m (by linarith)
  by_cases hs : z.scale ≤ k
  case pos => exact hgrid (onGrid_toRat hs)
  case neg =>
    cases hk.resolve_left hs with
    | inl hq =>
      obtain ⟨m, hm⟩ := hq
      have hm' : q * 10 ^ k = m := by rw [hm, div_mul_cancel₀ _ hpos.ne']
      have hle := hint m (by rw [hm']; linarith)
      refine hz.trans ?_
      rw [hm, div_le_div_iff_of_pos_right hpos]
      exact hle
    | inr hbig =>
      have hz' := abs_toRat_le z (show k + 1 ≤ z.scale by omega)
      have hp : (10 : ℚ) ^ (k + 1) = 10 ^ k * 10 := pow_succ ..
      rw [hp] at hbig hz'
      have hq : 0 ≤ q := by
        by_contra hneg
        rw [not_le] at hneg
        rw [abs_of_neg hneg] at hbig
        rw [abs_of_neg (hz.trans_lt hneg)] at hz'
        have hle : -q * (10 ^ k * 10) ≤ -z.toRat * (10 ^ k * 10) := by gcongr
        linarith
      rw [abs_of_nonneg hq] at hbig
      -- The bound for the mantissa has an odd last digit that is rounded up.
      have hle := hint 7922816251426433759354395034 (by norm_num at hbig ⊢; linarith)
      rw [le_div_iff₀ hpos]
      have habs : z.toRat * 10 ^ k ≤ |z.toRat| * 10 ^ k := by gcongr; exact le_abs_self _
      norm_num at hz' hle
      linarith

theorem ge_of_near (hr : |r - q * 10 ^ k| ≤ 1 / 2) (hk : Enough k q z) (hz : q ≤ z.toRat) :
    r / 10 ^ k ≤ z.toRat := by
  -- The same for the negated numbers.
  have hneg : toRat ⟨-z.mantissa, z.scale, by simpa using z.mantissa_lt, z.scale_le⟩ = -z.toRat := by
    simp only [toRat]
    push_cast
    ring
  have hr' : |((-r : ℤ) : ℚ) - -q * 10 ^ k| ≤ 1 / 2 := by
    rw [← abs_neg]
    push_cast
    ring_nf at hr ⊢
    exact hr
  have hk' : Enough k (-q) ⟨-z.mantissa, z.scale, by simpa using z.mantissa_lt, z.scale_le⟩ := by
    refine hk.imp_right fun h => h.imp (fun h => ?grid) fun h => ?big
    case grid =>
      obtain ⟨m, hm⟩ := h
      refine ⟨-m, ?_⟩
      rw [hm]
      push_cast
      ring
    case big => rwa [abs_neg]
  have h := le_of_near hr' hk' (by rw [hneg]; linarith)
  rw [hneg] at h
  push_cast at h
  rw [neg_div] at h
  linarith

theorem natAbs_lt_of_near {x : ℚ} (hr : |r - x| ≤ 1 / 2) (hx : |x| ≤ 2 ^ 96 - 1) :
    r.natAbs < 2 ^ 96 := by
  have := abs_sub_abs_le_abs_sub (r : ℚ) x
  have hlt : |(r : ℚ)| < 2 ^ 96 := by linarith
  have hlt : |r| < 2 ^ 96 := by exact_mod_cast hlt
  rw [Int.abs_eq_natAbs] at hlt
  exact_mod_cast hlt

end Near

section Fit

variable {n : ℤ} {d k : ℕ} {q : ℚ} {z : Decimal}

theorem near_fitAt (hd : 0 < d) (hq : q = n / d) (k : ℕ) :
    |(round (n * 10 ^ k) d : ℚ) - q * 10 ^ k| ≤ 1 / 2 := by
  have h := abs_round_sub_le hd (n * 10 ^ k)
  push_cast at h
  rwa [hq, div_mul_eq_mul_div]

-- The search ends with enough decimal places if it starts with them.
theorem exists_of_mem_fit (hd : 0 < d) (hq : q = n / d) (hk : k ≤ 28)
    (hw : w ∈ fit n d k hk) (he : Enough k q z) : ∃ (r : ℤ) (j : ℕ), w.toRat = r / 10 ^ j ∧
      |r - q * 10 ^ j| ≤ 1 / 2 ∧ Enough j q z := by
  have found {k} (hk : k ≤ 28) (hw : w ∈ fitAt n d k hk) (he : Enough k q z) :
      ∃ (r : ℤ) (j : ℕ), w.toRat = r / 10 ^ j ∧ |r - q * 10 ^ j| ≤ 1 / 2 ∧ Enough j q z := by
    simp only [fitAt] at hw
    split_ifs at hw with hlt
    · rw [← Option.mem_some_iff.mp hw]
      exact ⟨_, k, rfl, near_fitAt hd hq k, he⟩
    · cases hw
  induction k with
  | zero => exact found hk hw he
  | succ k hi =>
    cases hf : fitAt n d (k + 1) hk with
    | some w' =>
      rw [fit, hf, Option.some_or] at hw
      exact found hk (hf ▸ hw) he
    | none =>
      rw [fit, hf, Option.none_or] at hw
      refine hi _ hw (.inr (.inr ?_))
      have hbig : 2 ^ 96 ≤ |round (n * 10 ^ (k + 1)) d| := by
        simp only [fitAt] at hf
        split_ifs at hf with hlt
        rw [Int.abs_eq_natAbs]
        exact_mod_cast not_lt.mp hlt
      have hbig : (2 ^ 96 : ℚ) ≤ |(round (n * 10 ^ (k + 1)) d : ℚ)| := by exact_mod_cast hbig
      have hnear := near_fitAt hd hq (k + 1)
      have habs : |q| * 10 ^ (k + 1) = |q * 10 ^ (k + 1)| := by
        rw [abs_mul, abs_of_pos (show (0 : ℚ) < 10 ^ (k + 1) by positivity)]
      have := abs_sub_abs_le_abs_sub (round (n * 10 ^ (k + 1)) d : ℚ) (q * 10 ^ (k + 1))
      linarith

theorem fit_ne_none (hd : 0 < d) (hq : q = n / d) (hk : k ≤ 28) {z₁ z₂ : Decimal}
    (h₁ : z₁.toRat ≤ q) (h₂ : q ≤ z₂.toRat) : fit n d k hk ≠ none := by
  induction k with
  | zero =>
    have hmax (z : Decimal) : |z.toRat| ≤ 2 ^ 96 - 1 := by
      simpa using abs_toRat_le z (Nat.zero_le z.scale)
    have hq' := hq
    have hq : |q| ≤ 2 ^ 96 - 1 :=
      abs_le.mpr ⟨(abs_le.mp (hmax z₁)).1.trans h₁, h₂.trans (abs_le.mp (hmax z₂)).2⟩
    have hlt := natAbs_lt_of_near (near_fitAt hd hq' 0) (by simpa using hq)
    simpa [fit, fitAt] using hlt
  | succ k hi =>
    rw [fit]
    cases fitAt n d (k + 1) hk with
    | some w => simp
    | none => simpa using hi (Nat.le_of_succ_le hk)

theorem rounds_fit (hd : 0 < d) (hk : k ≤ 28) (hq : q = n / d) (he : ∀ z, Enough k q z) :
    Rounds (fit n d k hk) q := by
  refine ⟨fun w hw => ⟨fun z hz => ?_, fun z hz => ?_⟩, fun z₁ z₂ => fit_ne_none hd hq hk⟩
  · obtain ⟨r, j, hj, hr, he⟩ := exists_of_mem_fit hd hq hk hw (he z)
    exact hj ▸ ge_of_near hr he hz
  · obtain ⟨r, j, hj, hr, he⟩ := exists_of_mem_fit hd hq hk hw (he z)
    exact hj ▸ le_of_near hr he hz

end Fit

theorem onGrid_toRat_left (x y : Decimal) : OnGrid (maxScale x y) x.toRat :=
  onGrid_toRat (Nat.le_max_left ..)

theorem onGrid_toRat_right (x y : Decimal) : OnGrid (maxScale x y) y.toRat :=
  onGrid_toRat (Nat.le_max_right ..)

theorem rounds_checkedAdd (x y : Decimal) : Rounds (checkedAdd x y) (x.toRat + y.toRat) := by
  refine rounds_fit (by positivity) _ ?_ fun z => .inr (.inl ?_)
  · rw [toRat_eq_mantissaAt_left x y, toRat_eq_mantissaAt_right x y]
    push_cast
    ring
  · exact (onGrid_toRat_left x y).add (onGrid_toRat_right x y)

theorem rounds_checkedSub (x y : Decimal) : Rounds (checkedSub x y) (x.toRat - y.toRat) := by
  refine rounds_fit (by positivity) _ ?_ fun z => .inr (.inl ?_)
  · rw [toRat_eq_mantissaAt_left x y, toRat_eq_mantissaAt_right x y]
    push_cast
    ring
  · exact (onGrid_toRat_left x y).sub (onGrid_toRat_right x y)

theorem rounds_checkedMul (x y : Decimal) : Rounds (checkedMul x y) (x.toRat * y.toRat) := by
  have hq := toRat_mul x y
  refine rounds_fit (by positivity) _ hq fun z => ?_
  by_cases hs : x.scale + y.scale ≤ 28
  case pos =>
    rw [Nat.min_eq_right hs]
    exact .inr (.inl ⟨x.mantissa * y.mantissa, by rw [hq]; push_cast; rfl⟩)
  case neg => exact .inl (z.scale_le.trans (by omega))

theorem rounds_checkedDiv (x y : Decimal) (hy : y.toRat ≠ 0) :
    Rounds (checkedDiv x y) (x.toRat / y.toRat) := by
  have hm := mantissa_ne_zero hy
  have hpos : 0 < y.mantissa.natAbs * 10 ^ x.scale :=
    Nat.mul_pos (Int.natAbs_pos.mpr hm) (by positivity)
  rw [checkedDiv, if_neg hm]
  exact rounds_fit hpos _ (toRat_div x hm) fun z => .inl z.scale_le

@[reducible]
def faithfulArith : FaithfulArith where
  toArith := arith
  add_rounds := rounds_checkedAdd
  sub_rounds := rounds_checkedSub
  mul_rounds := rounds_checkedMul
  div_rounds := rounds_checkedDiv

theorem lawfulDiv : @LawfulDiv arith :=
  @LawfulDiv.mk arith fun x y hy => by
    have hm : y.mantissa = 0 := by
      rw [toRat, div_eq_zero_iff] at hy
      exact_mod_cast hy.resolve_right (by positivity)
    exact if_pos hm

end HalfEven

end Decimal
