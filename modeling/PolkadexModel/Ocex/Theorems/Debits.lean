import PolkadexModel.Lib.Rounding
import PolkadexModel.Ocex.Theorems.Authorisation

open Decimal Ocex.OffchainState

namespace Ocex

variable {Acc Sign : Type} [DecidableEq Acc]

-- An amount is taken from one balance. What is left is not more than before.
structure Reduces (s s' : OffchainState Acc) (account : Acc) (asset : AssetId)
    (amount : Decimal) : Prop where
  nonneg : 0 ≤ amount
  le : amount ≤ s.getBalance account asset
  antitone : s'.getBalance account asset ≤ s.getBalance account asset
  frame : ∀ account' asset', account' ≠ account ∨ asset' ≠ asset →
    s'.entry account' asset' = s.entry account' asset'

-- It is what was there without the amount, up to what is cut off after nine decimal places.
structure Debits (s s' : OffchainState Acc) (account : Acc) (asset : AssetId)
    (amount : Decimal) : Prop extends Reduces s s' account asset amount where
  falls : |(s.getBalance account asset).toRat - amount.toRat - (s'.getBalance account asset).toRat| <
    1 / 10 ^ 9

omit [DecidableEq Acc] in
theorem Reduces.operands_nonneg {account : Acc} {x y z : Decimal} (h : Reduces s s' account asset z)
    (hz : z.toRat = min y.toRat x.toRat) : 0 ≤ x ∧ 0 ≤ y := by
  have hnonneg := le_iff.mp h.nonneg
  rw [hz, toRat_zero, le_min_iff] at hnonneg
  rw [le_iff, le_iff, toRat_zero]
  exact ⟨hnonneg.2, hnonneg.1⟩

section Generic

variable [Decimal.FaithfulArith]

theorem toRat_deductible (h : OffchainState.deductible balance amount true = .ok deducted) :
    deducted.toRat = min balance.toRat amount.toRat := by
  simp only [deductible, if_true] at h
  split_ifs at h with hlt
  · rw [min_eq_left (lt_iff.mp hlt).le]
    cases hd : Decimal.Arith.checkedSub amount balance with
    | none => simp [hd] at h
    | some _ =>
      simp only [hd, Except.ok.injEq] at h
      rw [h]
  · rw [lt_iff, not_lt] at hlt
    rw [min_eq_right hlt, Except.ok.inj h]

variable [Verify Acc Sign] [FromText] {s s' : OffchainState Acc}
  {request : WithdrawalRequest Acc Sign} {stid : ℕ} {withdrawal : Withdrawal Acc}

theorem withdraw_entry (h : Ocex.withdraw request s stid = .ok (s', withdrawal)) :
    ∃ amount balance, request.amount = some amount ∧
      s.entry request.main request.asset = some balance ∧
      withdrawal.amount.toRat = min balance.toRat amount.toRat ∧
      s' = s.setEntry request.main request.asset
        (Order.roundingOff (balance.saturatingSub withdrawal.amount)) := by
  simp only [Ocex.withdraw] at h
  cases ha : request.amount with
  | none => simp [ha] at h
  | some amount =>
    simp only [ha, bind_eq_ok] at h
    obtain ⟨_, _, ⟨t, deducted⟩, hsub, h⟩ := h
    cases hw : request.convert stid with
    | none => simp [hw] at h
    | some w =>
      simp only [hw, pure_eq_ok, Prod.mk.injEq] at h
      obtain ⟨balance, hb, hd, ht⟩ := subBalance_eq_ok.mp hsub
      rw [← h.2, ← h.1]
      exact ⟨amount, balance, rfl, hb, toRat_deductible hd, ht⟩

-- The amount of a request can be negative, and nothing prevents it. Nine decimal places fit for all
-- but very large balances.
theorem withdraw_debits_iff {amount : Decimal} (ha : request.amount = some amount)
    (h : Ocex.withdraw request s stid = .ok (s', withdrawal)) :
    (Reduces s s' request.main request.asset withdrawal.amount ↔
      0 ≤ amount ∧ 0 ≤ s.getBalance request.main request.asset) ∧
    ((s.getBalance request.main request.asset).toRat * 10 ^ 9 ≤ 2 ^ 96 - 1 →
      (Debits s s' request.main request.asset withdrawal.amount ↔
        0 ≤ amount ∧ 0 ≤ s.getBalance request.main request.asset)) := by
  obtain ⟨amount', balance, ha', hb, hw, hs⟩ := withdraw_entry h
  cases ha.symm.trans ha'
  have hbal : s.getBalance request.main request.asset = balance := getBalance_eq hb
  have hbal' : s'.getBalance request.main request.asset =
      Order.roundingOff (balance.saturatingSub withdrawal.amount) := by
    rw [hs, getBalance_eq entry_setEntry_self]
  rw [hbal]
  have hf := faithful_saturatingSub balance withdrawal.amount
  have hle : withdrawal.amount.toRat ≤ balance.toRat := hw ▸ min_le_left ..
  have hreduces : 0 ≤ amount ∧ 0 ≤ balance →
      Reduces s s' request.main request.asset withdrawal.amount := by
    rintro ⟨hamount, hbalance⟩
    rw [le_iff, toRat_zero] at hamount hbalance
    have hnonneg : 0 ≤ withdrawal.amount.toRat := hw ▸ le_min hbalance hamount
    refine ⟨?nonneg, ?le, ?antitone, ?frame⟩
    case nonneg => rwa [le_iff, toRat_zero]
    case le => rwa [hbal, le_iff]
    case antitone =>
      rw [hbal, hbal', le_iff, Order.roundingOff,
        toRat_truncate 9 (hf.nonneg (sub_nonneg.mpr hle))]
      exact (truncRat_le 9 _).trans (hf.le balance (by linarith))
    case frame =>
      intro account' asset' hne
      rw [hs, entry_setEntry_of_ne hne]
  refine ⟨⟨fun hr => hr.operands_nonneg hw, hreduces⟩, fun hfit =>
    ⟨fun hd => hd.toReduces.operands_nonneg hw, fun hc => ⟨hreduces hc, ?falls⟩⟩⟩
  case falls =>
    have hnonneg := le_iff.mp (hreduces hc).nonneg
    rw [toRat_zero] at hnonneg
    rw [hbal, hbal']
    exact hf.abs_sub_truncate_lt (by norm_num) (sub_nonneg.mpr hle) (by linarith)

end Generic

namespace Mock

attribute [local instance] Decimal.HalfEven.faithfulArith

def requestOf (amount : String) : WithdrawalRequest Account Sig where
  id := 0
  signature := (2, .withdrawal ⟨.polkadex, amount, 0, none⟩)
  payload := ⟨.polkadex, amount, 0, none⟩
  main := 2
  proxy := 2

def units (n : ℕ) : OffchainState Account :=
  OffchainState.empty.setEntry 2 .polkadex ((Decimal.ofNat? n).getD 0)

-- More than there is.
theorem withdraw_debits_available : ∃ s' w, Ocex.withdraw (requestOf "2.5") (units 1) 0 = .ok (s', w) ∧
    w.amount = 1 ∧ Debits (units 1) s' 2 .polkadex w.amount := by
  have h : ∃ s' w, Ocex.withdraw (requestOf "2.5") (units 1) 0 = .ok (s', w) ∧ w.amount = 1 :=
    ⟨_, _, rfl, rfl⟩
  obtain ⟨s', w, h, hw⟩ := h
  have hone : (units 1).getBalance 2 .polkadex = 1 := by decide +kernel
  have hfit : ((units 1).getBalance 2 .polkadex).toRat * 10 ^ 9 ≤ 2 ^ 96 - 1 := by
    rw [hone, toRat_one]
    norm_num
  have hd := (withdraw_debits_iff rfl h).2 hfit
  exact ⟨s', w, h, hw, hd.mpr ⟨by decide, by decide⟩⟩

-- The balance rises by the amount of the request.
theorem negative_withdrawal_credits : ∃ s' w, Ocex.withdraw (requestOf "-5") (units 1) 0 = .ok (s', w) ∧
    s'.getBalance 2 .polkadex ≈ (units 6).getBalance 2 .polkadex ∧
    ¬Reduces (units 1) s' 2 .polkadex w.amount := by
  refine ⟨_, _, rfl, by decide +kernel, fun h => ?_⟩
  have := h.nonneg
  revert this
  decide +kernel

end Mock

end Ocex
