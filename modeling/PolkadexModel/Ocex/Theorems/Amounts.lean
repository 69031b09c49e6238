import PolkadexModel.Lib.Rounding
import PolkadexModel.Ocex.Theorems.Frame

open Decimal

-- The conversions between amounts in units, which the exchange computes with, and in the smallest
-- denomination, which the chain transfers.
namespace Ocex

open Decimal (nonneg_iff FaithfulArith OnGrid)

variable {x : Decimal} {n : ℕ}

theorem toRat_unitDecimal : unitDecimal.toRat = 10 ^ 12 := by
  norm_num [unitDecimal, unitBalance, ofInt, toRat]

theorem exists_mul_unit (x : Decimal) (h : |x.toRat| * 10 ^ 12 ≤ Decimal.max.toRat) :
    ∃ z : Decimal, z.toRat = x.toRat * unitDecimal.toRat := by
  have hmax : max.toRat < 2 ^ 96 := by norm_num [toRat_max]
  rw [toRat_unitDecimal]
  by_cases hs : x.scale ≤ 12
  case pos =>
    -- There are no decimal places left.
    obtain ⟨m, hm⟩ := onGrid_toRat hs
    refine OnGrid.exists_decimal (k := 0) ⟨m, by rw [hm]; ring⟩ (Nat.zero_le _) ?_
    rw [abs_mul, abs_of_pos (show (0 : ℚ) < 10 ^ 12 by positivity), pow_zero, mul_one]
    exact h.trans_lt hmax
  case neg =>
    have hpow : (10 : ℚ) ^ x.scale = 10 ^ (x.scale - 12) * 10 ^ 12 := by
      rw [← pow_add, Nat.sub_add_cancel (by omega)]
    refine ⟨⟨x.mantissa, x.scale - 12, x.mantissa_lt, (Nat.sub_le ..).trans x.scale_le⟩, ?_⟩
    rw [toRat, toRat, hpow]
    field_simp

theorem decimalFrom_eq_ok : State.decimalFrom n = .ok d ↔ Decimal.ofNat? n = some d := by
  cases hn : ofNat? n <;> simp [State.decimalFrom, hn]

section Arith

variable [FaithfulArith]

theorem toRat_saturatingMul_unit (h : 0 ≤ x.toRat) :
    (x.saturatingMul unitDecimal).toRat = min (x.toRat * 10 ^ 12) Decimal.max.toRat := by
  have hf := faithful_saturatingMul x unitDecimal
  rw [toRat_unitDecimal] at hf
  by_cases hle : x.toRat * 10 ^ 12 ≤ max.toRat
  case pos =>
    obtain ⟨z, hz⟩ := exists_mul_unit x (by rwa [abs_of_nonneg h])
    rw [min_eq_left hle, toRat_saturatingMul hz, toRat_unitDecimal]
  case neg =>
    have hle := (not_le.mp hle).le
    rw [min_eq_right hle]
    exact le_antisymm (le_toRat_max _) (hf.ge max hle)

theorem exists_div_unit (hn : Decimal.ofNat? n = some d) :
    ∃ w ∈ Decimal.Arith.checkedDiv d unitDecimal, w.toRat = n / 10 ^ 12 := by
  let z : Decimal := ⟨n, 12, by simpa using lt_of_ofNat? hn, by decide⟩
  have hz : z.toRat = n / 10 ^ 12 := by simp [z, toRat]
  rw [← hz]
  refine Decimal.Arith.div_exact (by rw [toRat_unitDecimal]; positivity) ?_
  rw [hz, toRat_ofNat? hn, toRat_unitDecimal]

theorem toRat_div_unit (hn : Decimal.ofNat? n = some d)
    (hx : Decimal.Arith.checkedDiv d unitDecimal = some x) : x.toRat = n / 10 ^ 12 := by
  obtain ⟨w, hw, he⟩ := exists_div_unit hn
  rwa [Option.some.inj (hx.symm.trans hw)]

theorem toRat_of_inUnits (h : State.inUnits e n = .ok x) : x.toRat = n / 10 ^ 12 := by
  simp only [State.inUnits, bind_eq_ok, orElse_eq_ok, decimalFrom_eq_ok] at h
  obtain ⟨d, hd, hx⟩ := h
  exact toRat_div_unit hd hx

theorem toRat_of_divUnit (h : State.divUnit n = .ok x) : x.toRat = n / 10 ^ 12 ∧ n < 2 ^ 96 := by
  simp only [State.divUnit, bind_eq_ok, decimalFrom_eq_ok] at h
  obtain ⟨d, hd, hx⟩ := h
  cases hw : Decimal.Arith.checkedDiv d unitDecimal with
  | none => simp [hw] at hx
  | some w =>
    simp only [hw, Option.elim_some, Except.ok.injEq] at hx
    exact ⟨toRat_div_unit hd (hx ▸ hw), lt_of_ofNat? hd⟩

theorem exists_divUnit (h : n < 2 ^ 96) : ∃ x, State.divUnit n = .ok x := by
  obtain ⟨d, hd⟩ := exists_ofNat? h
  obtain ⟨w, hw, _⟩ := exists_div_unit hd
  refine ⟨w, bind_eq_ok.mpr ⟨d, decimalFrom_eq_ok.mpr hd, ?_⟩⟩
  rw [Option.mem_def.mp hw, Option.elim_some]

theorem nonneg_of_inUnits (h : State.inUnits e n = .ok x) : 0 ≤ x := by
  rw [nonneg_iff, toRat_of_inUnits h]
  positivity

-- A negative amount stays below itself when it is multiplied.
theorem nonneg_of_inPlanck (h : State.inPlanck x = .ok n) : 0 ≤ x := by
  simp only [State.inPlanck, orElse_eq_ok, toNat?] at h
  split_ifs at h with hneg
  rw [nonneg_iff]
  by_contra hx
  have hle := (faithful_saturatingMul x unitDecimal).le x (by rw [toRat_unitDecimal]; linarith)
  exact hneg (by simpa [isNegative] using isNegative_iff.mpr (hle.trans_lt (not_le.mp hx)))

theorem inPlanck_eq_ok (hx : 0 ≤ x.toRat) : State.inPlanck x = .ok n ↔
    n = ⌊min (x.toRat * 10 ^ 12) Decimal.max.toRat⌋₊ := by
  have hw := toRat_saturatingMul_unit hx
  have hnonneg : 0 ≤ (x.saturatingMul unitDecimal).toRat :=
    hw ▸ le_min (by positivity) toRat_max_pos.le
  rw [State.inPlanck, orElse_eq_ok, toNat?_eq_some, hw]
  exact and_iff_right (hw ▸ hnonneg)

-- The amount that is paid for a rounded result is the exact one, rounded down or up.
theorem inPlanck_bracket (hf : x.Faithful q) (hq : 0 ≤ q) (hfit : q * 10 ^ 12 ≤ 2 ^ 96 - 1)
    (h : State.inPlanck x = .ok n) : ⌊q * 10 ^ 12⌋ ≤ (n : ℤ) ∧ (n : ℤ) ≤ ⌈q * 10 ^ 12⌉ := by
  obtain ⟨hbelow, habove⟩ := hf.bracket (k := 12) (by decide) hq hfit
  have hx := hf.nonneg hq
  have hceil : (⌈q * 10 ^ 12⌉ : ℚ) ≤ max.toRat := by
    rw [toRat_max]
    exact_mod_cast Int.ceil_le.mpr (show q * 10 ^ 12 ≤ ((2 ^ 96 - 1 : ℤ) : ℚ) by exact_mod_cast hfit)
  have hn : (n : ℤ) = ⌊x.toRat * 10 ^ 12⌋ := by
    rw [(inPlanck_eq_ok hx).mp h, min_eq_left (habove.trans hceil),
      Int.natCast_floor_eq_floor (by positivity)]
  rw [hn]
  exact ⟨Int.le_floor.mpr hbelow, by exact_mod_cast (Int.floor_le _).trans habove⟩

theorem le_of_inPlanck (h : State.inPlanck x = .ok n) : n ≤ x.toRat * 10 ^ 12 := by
  have hx := nonneg_iff.mp (nonneg_of_inPlanck h)
  have hmin : 0 ≤ min (x.toRat * 10 ^ 12) max.toRat :=
    le_min (by positivity) toRat_max_pos.le
  rw [(inPlanck_eq_ok hx).mp h]
  exact (Nat.floor_le hmin).trans (min_le_left ..)

end Arith

end Ocex
