import PolkadexModel.Lib.Decimal

-- A decimal arithmetic which keeps as many decimal places as fit, and rounds to the nearest number,
-- to the even one of two.
namespace Decimal.HalfEven

def round (n : ℤ) (d : ℕ) : ℤ :=
  if 2 * (n % d) < d ∨ 2 * (n % d) = d ∧ n / d % 2 = 0 then n / d else n / d + 1

-- The fraction `n / d`, rounded to `k` decimal places.
def fitAt (n : ℤ) (d k : ℕ) (h : k ≤ 28) : Option Decimal :=
  if hlt : (round (n * 10 ^ k) d).natAbs < 2 ^ 96
  then some ⟨round (n * 10 ^ k) d, k, hlt, h⟩
  else none

-- The same for the largest number of decimal places up to `k` that fits.
def fit (n : ℤ) (d : ℕ) : (k : ℕ) → k ≤ 28 → Option Decimal
  | 0, h     => fitAt n d 0 h
  | k + 1, h => (fitAt n d (k + 1) h).or (fit n d k (Nat.le_of_succ_le h))

def maxScale (x y : Decimal) : ℕ :=
  Nat.max x.scale y.scale

-- The mantissa of a number that is written with `k` decimal places.
def mantissaAt (x : Decimal) (k : ℕ) : ℤ :=
  x.mantissa * 10 ^ (k - x.scale)

theorem maxScale_le (x y : Decimal) : maxScale x y ≤ 28 :=
  Nat.max_le.mpr ⟨x.scale_le, y.scale_le⟩

def checkedAdd (x y : Decimal) : Option Decimal :=
  fit (mantissaAt x (maxScale x y) + mantissaAt y (maxScale x y)) (10 ^ maxScale x y) (maxScale x y)
    (maxScale_le x y)

def checkedSub (x y : Decimal) : Option Decimal :=
  fit (mantissaAt x (maxScale x y) - mantissaAt y (maxScale x y)) (10 ^ maxScale x y) (maxScale x y)
    (maxScale_le x y)

def checkedMul (x y : Decimal) : Option Decimal :=
  fit (x.mantissa * y.mantissa) (10 ^ (x.scale + y.scale)) (Min.min 28 (x.scale + y.scale))
    (Nat.min_le_left ..)

def checkedDiv (x y : Decimal) : Option Decimal :=
  if y.mantissa = 0 then none else
    fit (x.mantissa * y.mantissa.sign * 10 ^ y.scale) (y.mantissa.natAbs * 10 ^ x.scale) 28 le_rfl

def checkedRem (x y : Decimal) : Option Decimal :=
  if y.mantissa = 0 then none else
    fit ((mantissaAt x (maxScale x y)).tmod (mantissaAt y (maxScale x y))) (10 ^ maxScale x y)
      (maxScale x y) (maxScale_le x y)

theorem round_of_dvd {n m : ℤ} {d : ℕ} (hd : 0 < d) (h : n = m * d) : round n d = m := by
  subst h
  have hm : m * d % d = 0 := Int.mul_emod_left ..
  have hq : m * d / d = m := Int.mul_ediv_cancel m (by exact_mod_cast hd.ne')
  rw [round, hm, hq, if_pos (.inl (by exact_mod_cast hd))]

section Exact

variable {n m : ℤ} {d k : ℕ} {z : Decimal}

theorem fitAt_of_dvd (hd : 0 < d) (hm : n * 10 ^ k = m * d) (hk : k ≤ 28) (hlt : m.natAbs < 2 ^ 96) :
    fitAt n d k hk = some ⟨m, k, hlt, hk⟩ := by
  have hr := round_of_dvd hd hm
  simp only [fitAt, hr]
  exact dif_pos hlt

theorem fitAt_of_not_lt (hd : 0 < d) (hm : n * 10 ^ k = m * d) (hk : k ≤ 28)
    (hlt : ¬m.natAbs < 2 ^ 96) : fitAt n d k hk = none := by
  have hr := round_of_dvd hd hm
  simp only [fitAt, hr]
  exact dif_neg hlt

theorem cross_mul (hd : 0 < d) (hz : z.toRat = n / d) : z.mantissa * d = n * 10 ^ z.scale := by
  rw [toRat, div_eq_div_iff (by positivity) (by positivity)] at hz
  exact_mod_cast hz

-- A decimal number is a multiple of `10 ^ -k` if it has at most `k` decimal places.
theorem exists_multiple (hd : 0 < d) (hz : z.toRat = n / d) (hs : z.scale ≤ k) :
    ∃ m : ℤ, n * 10 ^ k = m * d :=
  ⟨z.mantissa * 10 ^ (k - z.scale),
    calc n * 10 ^ k = n * 10 ^ z.scale * 10 ^ (k - z.scale) := by
          rw [mul_assoc, ← pow_add, Nat.add_sub_cancel' hs]
      _ = z.mantissa * 10 ^ (k - z.scale) * d := by rw [← cross_mul hd hz]; ring⟩

-- It fits into `k` decimal places if it has more of them.
theorem natAbs_lt_of_le_scale (hd : 0 < d) (hz : z.toRat = n / d) (hm : n * 10 ^ k = m * d)
    (hs : k ≤ z.scale) : m.natAbs < 2 ^ 96 := by
  have hmul : z.mantissa = m * 10 ^ (z.scale - k) := by
    refine mul_right_cancel₀ (show (d : ℤ) ≠ 0 by exact_mod_cast hd.ne') ?_
    calc z.mantissa * d = n * 10 ^ k * 10 ^ (z.scale - k) := by
          rw [cross_mul hd hz, mul_assoc, ← pow_add, Nat.add_sub_cancel' hs]
      _ = m * 10 ^ (z.scale - k) * d := by rw [hm]; ring
  have hlt := z.mantissa_lt
  rw [hmul, Int.natAbs_mul] at hlt
  exact (Nat.le_mul_of_pos_right _ (by simp)).trans_lt hlt

-- A decimal number is found if the search starts at a multiple of it.
theorem fit_exact (hd : 0 < d) (hz : z.toRat = n / d) (hk : k ≤ 28)
    (hm : ∃ m : ℤ, n * 10 ^ k = m * d) : ∃ w ∈ fit n d k hk, w.toRat = z.toRat := by
  have exact_at {k m} (hk : k ≤ 28) (hm : n * 10 ^ k = m * d) (hlt : m.natAbs < 2 ^ 96) :
      toRat ⟨m, k, hlt, hk⟩ = z.toRat := by
    rw [hz, toRat, div_eq_div_iff (by positivity) (by positivity)]
    exact_mod_cast hm.symm
  obtain ⟨m, hm⟩ := hm
  induction k generalizing m with
  | zero =>
    have hlt := natAbs_lt_of_le_scale hd hz hm (Nat.zero_le _)
    exact ⟨_, fitAt_of_dvd hd hm hk hlt, exact_at hk hm hlt⟩
  | succ k ih =>
    by_cases hlt : m.natAbs < 2 ^ 96
    case pos => exact ⟨_, by simp [fit, fitAt_of_dvd hd hm hk hlt], exact_at hk hm hlt⟩
    case neg =>
      have hs : z.scale ≤ k := by
        by_contra hs
        exact hlt (natAbs_lt_of_le_scale hd hz hm (by omega))
      obtain ⟨m', hm'⟩ := exists_multiple hd hz hs
      simpa [fit, fitAt_of_not_lt hd hm hk hlt] using ih (Nat.le_of_succ_le hk) m' hm'

end Exact

theorem toRat_eq_mantissaAt (h : x.scale ≤ k) : x.toRat = mantissaAt x k / 10 ^ k := by
  rw [toRat, mantissaAt, ← Nat.add_sub_cancel' h, pow_add]
  push_cast
  field_simp
  simp

theorem toRat_eq_mantissaAt_left (x y : Decimal) :
    x.toRat = mantissaAt x (maxScale x y) / 10 ^ maxScale x y :=
  toRat_eq_mantissaAt (Nat.le_max_left ..)

theorem toRat_eq_mantissaAt_right (x y : Decimal) :
    y.toRat = mantissaAt y (maxScale x y) / 10 ^ maxScale x y :=
  toRat_eq_mantissaAt (Nat.le_max_right ..)

theorem toRat_mul (x y : Decimal) :
    x.toRat * y.toRat = (x.mantissa * y.mantissa : ℤ) / (10 ^ (x.scale + y.scale) : ℕ) := by
  rw [toRat, toRat, pow_add]
  push_cast
  field_simp

theorem mantissa_ne_zero {y : Decimal} (hy : y.toRat ≠ 0) : y.mantissa ≠ 0 := by
  intro hm
  simp [toRat, hm] at hy

theorem toRat_div (x : Decimal) {y : Decimal} (hm : y.mantissa ≠ 0) :
    x.toRat / y.toRat = (x.mantissa * y.mantissa.sign * 10 ^ y.scale : ℤ) /
      (y.mantissa.natAbs * 10 ^ x.scale : ℕ) := by
  have hsign : (y.mantissa.natAbs : ℚ) = y.mantissa.sign * y.mantissa := by
    rw [← Int.cast_natCast, ← Int.sign_mul_self_eq_natAbs, Int.cast_mul]
  have hs : (y.mantissa.sign : ℚ) ≠ 0 := by exact_mod_cast mt Int.sign_eq_zero_iff_zero.mp hm
  have hm' : (y.mantissa : ℚ) ≠ 0 := by exact_mod_cast hm
  rw [toRat, toRat]
  push_cast
  rw [hsign]
  field_simp

@[reducible]
def arith : Arith where
  checkedAdd := checkedAdd
  checkedSub := checkedSub
  checkedMul := checkedMul
  checkedDiv := checkedDiv
  checkedRem := checkedRem
  add_exact {x y z} h := by
    refine fit_exact (by positivity) ?_ _ ⟨_, by push_cast; rfl⟩
    rw [h, toRat_eq_mantissaAt_left x y, toRat_eq_mantissaAt_right x y]
    push_cast
    ring
  sub_exact {x y z} h := by
    refine fit_exact (by positivity) ?_ _ ⟨_, by push_cast; rfl⟩
    rw [h, toRat_eq_mantissaAt_left x y, toRat_eq_mantissaAt_right x y]
    push_cast
    ring
  mul_exact {x y z} h := by
    have hz := h.trans (toRat_mul x y)
    refine fit_exact (by positivity) hz _ ?_
    by_cases hs : x.scale + y.scale ≤ 28
    case pos => exact ⟨_, by rw [Nat.min_eq_right hs]; push_cast; rfl⟩
    case neg =>
      exact exists_multiple (by positivity) hz (z.scale_le.trans (by omega))
  div_exact {x y z} hy h := by
    have hm := mantissa_ne_zero hy
    have hpos : 0 < y.mantissa.natAbs * 10 ^ x.scale :=
      Nat.mul_pos (Int.natAbs_pos.mpr hm) (by positivity)
    have hz := h.trans (toRat_div x hm)
    simp only [checkedDiv, if_neg hm]
    exact fit_exact hpos hz _ (exists_multiple hpos hz z.scale_le)

end Decimal.HalfEven
