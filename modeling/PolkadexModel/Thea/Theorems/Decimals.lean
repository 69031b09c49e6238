import PolkadexModel.Thea.Types
import Mathlib.Tactic.NormNum

open Word

-- When the conversion of an amount between decimals keeps the amount.
namespace Thea.AssetMetadata

variable {m : AssetMetadata} {amount k : ℕ}

def coarseUnit (m : AssetMetadata) : ℕ :=
  10 ^ (m.decimal - 12 : ℕ)

-- The results of converting an amount and of converting it back. There is no overflow and no panic if the
-- result does not depend on the checks.
structure RoundTrip (m : AssetMetadata) (amount native foreign back back' : ℕ) : Prop where
  toNative   : ∀ checks, m.convertToNativeDecimals checks amount = .ok native
  backFrom   : ∀ checks, m.convertFromNativeDecimals checks native = .ok back
  fromNative : ∀ checks, m.convertFromNativeDecimals checks amount = .ok foreign
  backTo     : ∀ checks, m.convertToNativeDecimals checks foreign = .ok back'
  near       : amount < back + m.coarseUnit ∧ back < amount + m.coarseUnit
  -- From the coarser precision to the finer one and back, without saturation.
  exactTo    : (m.decimal : ℕ) ≤ 12 → native < Word.max 128 → back = amount
  exactFrom  : 12 ≤ (m.decimal : ℕ) → foreign < Word.max 128 → back' = amount
  monotone   : ∀ amount', amount ≤ amount' → amount' < 2 ^ 128 → ∃ native' foreign',
    (∀ checks, m.convertToNativeDecimals checks amount' = .ok native') ∧
    (∀ checks, m.convertFromNativeDecimals checks amount' = .ok foreign') ∧
    native ≤ native' ∧ foreign ≤ foreign'

def Faithful (m : AssetMetadata) (amount : ℕ) : Prop :=
  ∃ native foreign back back', RoundTrip m amount native foreign back back'

section Difference

theorem u8AsI8_eq (n : Fin (2 ^ 8)) : u8AsI8 n = if (n : ℕ) < 128 then (n : ℤ) else n - 256 := by
  revert n
  decide +kernel

theorem i8Sub_of_lt (h : (m.decimal : ℕ) < 128) (checks : Bool) :
    i8Sub checks 12 (u8AsI8 m.decimal) = .ok (12 - m.decimal) := by
  rw [u8AsI8_eq, if_pos h, i8Sub, i8Result, if_pos (by omega)]

theorem i8Sub_of_le (h : 141 ≤ (m.decimal : ℕ)) (checks : Bool) :
    i8Sub checks 12 (u8AsI8 m.decimal) = .ok (268 - m.decimal) := by
  have hlt := m.decimal.isLt
  rw [u8AsI8_eq, if_neg (by omega), i8Sub, i8Result, if_pos (by omega)]
  congr 1
  omega

theorem i8Sub_overflow (h : 128 ≤ (m.decimal : ℕ)) (h' : (m.decimal : ℕ) ≤ 140) :
    i8Sub true 12 (u8AsI8 m.decimal) = .error .subtractOverflow := by
  rw [u8AsI8_eq, if_neg (by omega), i8Sub, i8Result, if_neg (by omega), if_pos rfl]

theorem u128Pow_of_lt (h : e < 39) (checks : Bool) : u128Pow checks 10 e = .ok (10 ^ e) := by
  have hle : 10 ^ e ≤ 10 ^ 38 := Nat.pow_le_pow_right (by norm_num) (by omega)
  rw [u128Pow, if_pos (hle.trans_lt (by norm_num))]

theorem u128Pow_overflow (h : 39 ≤ e) : u128Pow true 10 e = .error .multiplyOverflow := by
  have hle : 10 ^ 39 ≤ 10 ^ e := Nat.pow_le_pow_right (by norm_num) h
  have hlt : 2 ^ 128 < 10 ^ 39 := by norm_num
  rw [u128Pow, if_neg (by omega), if_pos rfl]

end Difference

-- Towards the native decimals the amounts are multiplied with a power of ten, and back they are divided.
structure Up (m : AssetMetadata) (k : ℕ) : Prop where
  toNative   : ∀ checks amount, m.convertToNativeDecimals checks amount = .ok (Word.saturatingMul 128 amount (10 ^ k))
  fromNative : ∀ checks amount, m.convertFromNativeDecimals checks amount = .ok (amount / 10 ^ k)

-- The other way round.
structure Down (m : AssetMetadata) (k : ℕ) : Prop where
  toNative   : ∀ checks amount, m.convertToNativeDecimals checks amount = .ok (amount / 10 ^ k)
  fromNative : ∀ checks amount, m.convertFromNativeDecimals checks amount = .ok (Word.saturatingMul 128 amount (10 ^ k))

section Forms

variable {checks : Bool}

theorem i8AsU32_of_lt (hk : k < 128) : i8AsU32 k = k := by
  rw [i8AsU32]
  omega

theorem i8Neg_of_lt (hk : k < 128) : i8Neg checks (-k) = .ok (k : ℤ) := by
  rw [i8Neg, i8Result, neg_neg, if_pos (by omega)]

-- The conversions by the sign of the difference.
section Sign

variable (hpos : 0 < k) (hk : k < 128)

include hpos hk

theorem convertTo_of_pos (h : i8Sub checks 12 (u8AsI8 m.decimal) = .ok (k : ℤ)) :
    m.convertToNativeDecimals checks amount =
      u128Pow checks 10 k >>= fun unit => .ok (Word.saturatingMul 128 amount unit) := by
  have hcmp : compare (k : ℤ) 0 = .gt := compare_gt_iff_gt.mpr (by omega)
  simp only [convertToNativeDecimals, h, hcmp, i8AsU32_of_lt hk, bind, Except.bind]
  rfl

theorem convertFrom_of_pos (h : i8Sub checks 12 (u8AsI8 m.decimal) = .ok (k : ℤ)) :
    m.convertFromNativeDecimals checks amount = u128Pow checks 10 k >>= saturatingDiv amount := by
  have hcmp : compare (k : ℤ) 0 = .gt := compare_gt_iff_gt.mpr (by omega)
  simp only [convertFromNativeDecimals, h, hcmp, i8AsU32_of_lt hk, bind, Except.bind]

theorem convertTo_of_neg (h : i8Sub checks 12 (u8AsI8 m.decimal) = .ok (-k : ℤ)) :
    m.convertToNativeDecimals checks amount = u128Pow checks 10 k >>= saturatingDiv amount := by
  have hcmp : compare (-k : ℤ) 0 = .lt := compare_lt_iff_lt.mpr (by omega)
  simp only [convertToNativeDecimals, h, hcmp, i8Neg_of_lt hk, i8AsU32_of_lt hk, bind, Except.bind]

theorem convertFrom_of_neg (h : i8Sub checks 12 (u8AsI8 m.decimal) = .ok (-k : ℤ)) :
    m.convertFromNativeDecimals checks amount =
      u128Pow checks 10 k >>= fun unit => .ok (Word.saturatingMul 128 amount unit) := by
  have hcmp : compare (-k : ℤ) 0 = .lt := compare_lt_iff_lt.mpr (by omega)
  simp only [convertFromNativeDecimals, h, hcmp, i8Neg_of_lt hk, i8AsU32_of_lt hk, bind, Except.bind]
  rfl

end Sign

theorem saturatingDiv_pow (amount k : ℕ) : saturatingDiv amount (10 ^ k) = .ok (amount / 10 ^ k) :=
  if_neg (by positivity)

theorem up_of_diff (h : ∀ checks, i8Sub checks 12 (u8AsI8 m.decimal) = .ok (k : ℤ)) (hpos : 0 < k) (hk : k < 39) :
    m.Up k where
  toNative checks amount := by
    rw [convertTo_of_pos hpos (by omega) (h checks), u128Pow_of_lt hk]
    rfl
  fromNative checks amount := by
    rw [convertFrom_of_pos hpos (by omega) (h checks), u128Pow_of_lt hk]
    exact saturatingDiv_pow amount k

theorem down_of_diff (h : ∀ checks, i8Sub checks 12 (u8AsI8 m.decimal) = .ok (-k : ℤ)) (hpos : 0 < k) (hk : k < 39) :
    m.Down k where
  toNative checks amount := by
    rw [convertTo_of_neg hpos (by omega) (h checks), u128Pow_of_lt hk]
    exact saturatingDiv_pow amount k
  fromNative checks amount := by
    rw [convertFrom_of_neg hpos (by omega) (h checks), u128Pow_of_lt hk]
    rfl

theorem up_of_lt (h : (m.decimal : ℕ) < 12) : m.Up (12 - m.decimal) := by
  refine up_of_diff (fun checks => ?_) (by omega) (by omega)
  rw [i8Sub_of_lt (by omega)]
  congr 1
  omega

theorem down_of_le (h : 12 < (m.decimal : ℕ)) (h' : (m.decimal : ℕ) ≤ 50) : m.Down (m.decimal - 12) := by
  refine down_of_diff (fun checks => ?_) (by omega) (by omega)
  rw [i8Sub_of_lt (by omega)]
  congr 1
  omega

-- The cast to a signed byte turns large decimals into negative ones.
theorem up_of_le (h : 230 ≤ (m.decimal : ℕ)) : m.Up (268 - m.decimal) := by
  have hlt := m.decimal.isLt
  refine up_of_diff (fun checks => ?_) (by omega) (by omega)
  rw [i8Sub_of_le (by omega)]
  congr 1
  omega

theorem same_of_eq (h : (m.decimal : ℕ) = 12) (checks : Bool) (amount : ℕ) :
    m.convertToNativeDecimals checks amount = .ok amount ∧ m.convertFromNativeDecimals checks amount = .ok amount := by
  have hsub : i8Sub checks 12 (u8AsI8 m.decimal) = .ok 0 := by
    rw [i8Sub_of_lt (by omega)]
    congr 1
    omega
  rw [convertToNativeDecimals, convertFromNativeDecimals, hsub]
  exact ⟨rfl, rfl⟩

-- In between, either the difference or the power of ten overflows.
theorem convertTo_overflow (h : 50 < (m.decimal : ℕ)) (h' : (m.decimal : ℕ) < 230) :
    ∃ panic, m.convertToNativeDecimals true amount = .error panic := by
  rcases lt_or_ge (m.decimal : ℕ) 128 with hlt | hge
  · obtain ⟨k, hk⟩ : ∃ k : ℕ, (12 - m.decimal : ℤ) = -k := ⟨m.decimal - 12, by omega⟩
    refine ⟨.multiplyOverflow, ?_⟩
    rw [convertTo_of_neg (by omega) (by omega) (hk ▸ i8Sub_of_lt hlt true), u128Pow_overflow (by omega)]
    rfl
  rcases le_or_gt (m.decimal : ℕ) 140 with hle | hgt
  · refine ⟨.subtractOverflow, ?_⟩
    rw [convertToNativeDecimals, i8Sub_overflow hge hle]
    rfl
  · obtain ⟨k, hk⟩ : ∃ k : ℕ, (268 - m.decimal : ℤ) = k := ⟨268 - m.decimal, by omega⟩
    refine ⟨.multiplyOverflow, ?_⟩
    rw [convertTo_of_pos (by omega) (by omega) (hk ▸ i8Sub_of_le hgt true), u128Pow_overflow (by omega)]
    rfl

end Forms

section RoundTrip

variable (ha : amount < 2 ^ 128)

include ha

theorem Up.faithful_iff (h : m.Up k) : m.Faithful amount ↔
    (amount < Word.saturatingMul 128 amount (10 ^ k) / 10 ^ k + m.coarseUnit ∧
      Word.saturatingMul 128 amount (10 ^ k) / 10 ^ k < amount + m.coarseUnit) ∧
    ((m.decimal : ℕ) ≤ 12 → Word.saturatingMul 128 amount (10 ^ k) < Word.max 128 →
      Word.saturatingMul 128 amount (10 ^ k) / 10 ^ k = amount) ∧
    (12 ≤ (m.decimal : ℕ) → amount / 10 ^ k < Word.max 128 → amount / 10 ^ k * 10 ^ k = amount) := by
  have hback : saturatingMul 128 (amount / 10 ^ k) (10 ^ k) = amount / 10 ^ k * 10 ^ k :=
    saturatingMul_div_self (lt_two_pow_iff.mp ha) _
  constructor
  · rintro ⟨native, foreign, back, back', hr⟩
    obtain rfl := Except.ok.inj ((hr.toNative true).symm.trans (h.toNative true amount))
    obtain rfl := Except.ok.inj ((hr.fromNative true).symm.trans (h.fromNative true amount))
    obtain rfl := Except.ok.inj ((hr.backFrom true).symm.trans (h.fromNative true _))
    obtain rfl := Except.ok.inj ((hr.backTo true).symm.trans (h.toNative true _))
    exact ⟨hr.near, hr.exactTo, hback ▸ hr.exactFrom⟩
  · rintro ⟨hnear, hto, hfrom⟩
    exact ⟨_, _, _, _, {
      toNative checks := h.toNative checks amount
      backFrom checks := h.fromNative checks _
      fromNative checks := h.fromNative checks amount
      backTo checks := h.toNative checks _
      near := hnear
      exactTo := hto
      exactFrom := hback ▸ hfrom
      monotone amount' hle _ := ⟨_, _, fun checks => h.toNative checks amount', fun checks => h.fromNative checks amount',
        saturatingMul_mono hle _, Nat.div_le_div_right hle⟩ }⟩

theorem Down.faithful (h : m.Down k) (hd : (m.decimal : ℕ) = 12 + k) (hk : 0 < k) : m.Faithful amount := by
  have hunit : m.coarseUnit = 10 ^ k := by rw [coarseUnit, hd, Nat.add_sub_cancel_left]
  have hback : saturatingMul 128 (amount / 10 ^ k) (10 ^ k) = amount / 10 ^ k * 10 ^ k :=
    saturatingMul_div_self (lt_two_pow_iff.mp ha) _
  have hpos : 0 < 10 ^ k := by positivity
  refine ⟨_, _, _, _, {
    toNative checks := h.toNative checks amount
    backFrom checks := h.fromNative checks _
    fromNative checks := h.fromNative checks amount
    backTo checks := h.toNative checks _
    near := ?near
    exactTo hle := by omega
    exactFrom _ hlt := ?exact
    monotone amount' hle _ := ⟨_, _, fun checks => h.toNative checks amount', fun checks => h.fromNative checks amount',
      Nat.div_le_div_right hle, saturatingMul_mono hle _⟩ }⟩
  case near =>
    rw [hback, hunit]
    exact ⟨Nat.lt_div_mul_add hpos, (Nat.div_mul_le_self amount _).trans_lt (Nat.lt_add_of_pos_right hpos)⟩
  case exact => rw [saturatingMul_eq_of_lt hlt, Nat.mul_div_cancel _ hpos]

omit ha in
theorem faithful_same (h : (m.decimal : ℕ) = 12) : m.Faithful amount := by
  refine ⟨amount, amount, amount, amount, {
    toNative checks := (same_of_eq h checks amount).1
    backFrom checks := (same_of_eq h checks amount).2
    fromNative checks := (same_of_eq h checks amount).2
    backTo checks := (same_of_eq h checks amount).1
    near := ?near
    exactTo _ _ := rfl
    exactFrom _ _ := rfl
    monotone amount' hle _ := ⟨amount', amount', fun checks => (same_of_eq h checks amount').1,
      fun checks => (same_of_eq h checks amount').2, hle, hle⟩ }⟩
  case near =>
    rw [coarseUnit, h]
    omega

theorem faithful_iff_of_lt (h : (m.decimal : ℕ) < 12) :
    m.Faithful amount ↔ amount * 10 ^ (12 - m.decimal : ℕ) < 2 ^ 128 := by
  have hunit : m.coarseUnit = 1 := by rw [coarseUnit, Nat.sub_eq_zero_of_le h.le, Nat.pow_zero]
  have hpos : 0 < 10 ^ (12 - m.decimal : ℕ) := by positivity
  rw [(up_of_lt h).faithful_iff ha, hunit, lt_two_pow_iff]
  generalize 10 ^ (12 - m.decimal : ℕ) = unit at hpos ⊢
  constructor
  · rintro ⟨⟨hnear, -⟩, -⟩
    by_contra hlt
    rw [saturatingMul, min_eq_right (not_le.mp hlt).le] at hnear
    have hcut : Word.max 128 / unit < amount := (Nat.div_lt_iff_lt_mul hpos).mpr (not_le.mp hlt)
    omega
  · intro hle
    rw [saturatingMul_eq hle, Nat.mul_div_cancel _ hpos]
    exact ⟨by omega, fun _ _ => rfl, by omega⟩

theorem faithful_iff_of_le (h : 230 ≤ (m.decimal : ℕ)) :
    m.Faithful amount ↔ 10 ^ (268 - m.decimal : ℕ) ∣ amount := by
  have hunit : 2 ^ 128 ≤ m.coarseUnit :=
    calc 2 ^ 128 ≤ 10 ^ 39 := by norm_num
      _ ≤ m.coarseUnit := Nat.pow_le_pow_right (by norm_num) (by omega)
  have hpos : 0 < 10 ^ (268 - m.decimal : ℕ) := by positivity
  have hone : 1 < 10 ^ (268 - m.decimal : ℕ) := Nat.one_lt_pow (by have := m.decimal.isLt; omega) (by norm_num)
  rw [(up_of_le h).faithful_iff ha]
  generalize 10 ^ (268 - m.decimal : ℕ) = unit at hpos hone ⊢
  have hle : saturatingMul 128 amount unit / unit ≤ amount :=
    (Nat.div_le_div_right (min_le_left _ _)).trans_eq (Nat.mul_div_cancel _ hpos)
  have hlt : amount / unit < Word.max 128 := by
    rw [Nat.div_lt_iff_lt_mul hpos]
    exact (Word.lt_two_pow_iff.mp ha).trans_lt (lt_mul_of_one_lt_right (by decide) hone)
  constructor
  · rintro ⟨-, -, hfrom⟩
    exact Dvd.intro_left _ (hfrom (by omega) hlt)
  · intro hdvd
    refine ⟨⟨?_, ?_⟩, by omega, fun _ _ => Nat.div_mul_cancel hdvd⟩
    · exact (ha.trans_le hunit).trans_le (Nat.le_add_left ..)
    · exact hle.trans_lt (Nat.lt_add_of_pos_right (by omega))

end RoundTrip

-- The decimals for which the conversion is right, as long as the amount fits. For the large ones it goes in
-- the wrong direction, which does no harm to a multiple of the power of ten.
def Convertible (m : AssetMetadata) (amount : ℕ) : Prop :=
  (m.decimal : ℕ) ≤ 50 ∧ ((m.decimal : ℕ) < 12 → amount * 10 ^ (12 - m.decimal : ℕ) < 2 ^ 128) ∨
  230 ≤ (m.decimal : ℕ) ∧ 10 ^ (268 - m.decimal : ℕ) ∣ amount

theorem faithful_iff_convertible {decimal : Fin (2 ^ 8)} (_ : new decimal = some m) (ha : amount < 2 ^ 128) :
    m.Faithful amount ↔ m.Convertible amount := by
  rw [Convertible]
  rcases lt_trichotomy (m.decimal : ℕ) 12 with hlt | heq | hgt
  · rw [faithful_iff_of_lt ha hlt]
    omega
  · exact iff_of_true (faithful_same heq) (.inl (by omega))
  rcases le_or_gt (m.decimal : ℕ) 50 with hle | hgt'
  · exact iff_of_true ((down_of_le hgt hle).faithful ha (by omega) (by omega)) (.inl (by omega))
  rcases lt_or_ge (m.decimal : ℕ) 230 with hlt | hge
  · refine iff_of_false ?_ (by omega)
    rintro ⟨native, foreign, back, back', hr⟩
    obtain ⟨panic, hpanic⟩ : ∃ panic, m.convertToNativeDecimals true amount = .error panic :=
      convertTo_overflow hgt' hlt
    cases (hr.toNative true).symm.trans hpanic
  · rw [faithful_iff_of_le ha hge]
    omega

namespace Mock

theorem eighteen_decimals_faithful :
    AssetMetadata.new 18 = some ⟨18⟩ ∧ Faithful ⟨18⟩ 1234567891234567890 := by
  have hnew : AssetMetadata.new 18 = some ⟨18⟩ := rfl
  exact ⟨hnew, (faithful_iff_convertible hnew (by norm_num)).mpr (.inl (by decide))⟩

-- The power of ten overflows, the conversion goes in the wrong direction, or the product is cut.
theorem decimals_accepted_without_conversion :
    (AssetMetadata.new 51 = some ⟨51⟩ ∧ convertToNativeDecimals true ⟨51⟩ 1 = .error .multiplyOverflow) ∧
    (AssetMetadata.new 255 = some ⟨255⟩ ∧ convertFromNativeDecimals true ⟨255⟩ 1 = .ok 0 ∧
      convertToNativeDecimals true ⟨255⟩ 0 = .ok 0) ∧
    (AssetMetadata.new 1 = some ⟨1⟩ ∧ convertToNativeDecimals true ⟨1⟩ (10 ^ 38) = .ok (2 ^ 128 - 1) ∧
      convertFromNativeDecimals true ⟨1⟩ (2 ^ 128 - 1) = .ok 3402823669209384634633746074) := by
  decide +kernel

end Mock

end Thea.AssetMetadata
