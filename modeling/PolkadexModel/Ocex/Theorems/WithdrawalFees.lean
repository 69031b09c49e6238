import PolkadexModel.Ocex.Theorems.Custody

open Function

-- The fees of the withdrawals of a snapshot, and from which balances they are paid.
namespace Ocex

section Fees

variable {Acc Auth W : Type} [DecidableEq Acc] [PalletAccounts Acc]

def pdexOf (account : Acc) (amount : ℤ) : Acc → AssetId → ℤ :=
  Pi.single account (Pi.single .polkadex amount)

section Native

omit [PalletAccounts Acc]

theorem pdexOf_zero (account : Acc) : pdexOf account 0 = 0 := by
  rw [pdexOf, Pi.single_zero, Pi.single_zero]

theorem pdexOf_add (account : Acc) (m n : ℤ) : pdexOf account (m + n) = pdexOf account m + pdexOf account n := by
  rw [pdexOf, Pi.single_add, Pi.single_add]
  rfl

theorem pdexOf_apply (account account' : Acc) (asset : AssetId) (n : ℤ) :
    pdexOf account n account' asset = if account' = account ∧ asset = .polkadex then n else 0 := by
  by_cases haccount : account' = account
  · subst haccount
    simp [pdexOf, Pi.single_apply]
  · simp [pdexOf, haccount]

theorem pdexOf_self (account : Acc) (n : ℤ) : pdexOf account n account .polkadex = n := by
  rw [pdexOf_apply, if_pos ⟨rfl, rfl⟩]

theorem pdexOf_of_account_ne {account account' : Acc} (h : account' ≠ account) (n : ℤ) (asset : AssetId) :
    pdexOf account n account' asset = 0 := by
  rw [pdexOf_apply, if_neg fun hand => h hand.1]

theorem pdexOf_of_asset_ne (h : asset ≠ .polkadex) (account account' : Acc) (n : ℤ) :
    pdexOf account n account' asset = 0 := by
  rw [pdexOf_apply, if_neg fun hand => h hand.2]

end Native

-- The balances of all accounts, and how the native currency moves between them.
class Holdings (Acc W : Type) [DecidableEq Acc] [PalletAccounts Acc] [Assets Acc W] where
  holding : W → Acc → AssetId → ℤ
  transfer : ∀ {w w' : W} {payer payee : Acc} {amount : ℕ},
    Assets.transferNative w payer payee amount = .ok w' →
    holding w' = holding w + pdexOf payee amount - pdexOf payer amount
  burn : ∀ {w w' : W} {account : Acc} {amount : ℕ}, Assets.burnNative w account amount = some w' →
    holding w' = holding w - pdexOf account amount
  pot_ne : (PalletAccounts.potAccount : Acc) ≠ PalletAccounts.palletAccount

variable [Ord Acc] {cfg : Config} [Assets Acc W] [Holdings Acc W] [Decimal.Arith]

namespace State

def holding (s : State Acc Auth W cfg) : Acc → AssetId → ℤ :=
  Holdings.holding s.world

def feesIn (withdrawals : List (Withdrawal Acc)) (asset : AssetId) : ℕ :=
  planckOf (withdrawals.map fun w => (w.asset, w.fees)) asset

-- The fees of the other assets, which are paid in the native currency.
def diverted (withdrawals : List (Withdrawal Acc)) : ℕ :=
  (withdrawals.map fun w => if w.asset = .polkadex then 0 else planck w.fees).sum

-- Each fee is paid in its own asset: in the native currency it is burned, and otherwise it goes to the pot.
structure FeesSettled (withdrawals : List (Withdrawal Acc)) (s s' : State Acc Auth W cfg) :
    Prop where
  custody : ∀ asset, s'.holding PalletAccounts.palletAccount asset =
    s.holding PalletAccounts.palletAccount asset - feesIn withdrawals asset
  pot : ∀ asset, s'.holding PalletAccounts.potAccount asset =
    s.holding PalletAccounts.potAccount asset + if asset = .polkadex then 0 else (feesIn withdrawals asset : ℤ)
  others : ∀ account asset, account ≠ PalletAccounts.palletAccount → account ≠ PalletAccounts.potAccount →
    s'.holding account asset = s.holding account asset

section Sums

omit [DecidableEq Acc] [PalletAccounts Acc] [Ord Acc]

theorem diverted_cons (w : Withdrawal Acc) (ws : List (Withdrawal Acc)) :
    diverted (w :: ws) = diverted [w] + diverted ws := by
  simp [diverted]

theorem feesIn_cons (w : Withdrawal Acc) (ws : List (Withdrawal Acc)) (asset : AssetId) :
    feesIn (w :: ws) asset = feesIn [w] asset + feesIn ws asset := by
  simp [feesIn, planckOf]

theorem planck_eq (w : Withdrawal Acc) : planck w.fees = feesIn [w] .polkadex + diverted [w] := by
  by_cases hasset : w.asset = .polkadex <;> simp [feesIn, planckOf, diverted, hasset]

theorem diverted_eq_zero_iff {ws : List (Withdrawal Acc)} :
    diverted ws = 0 ↔ ∀ w ∈ ws, w.asset ≠ .polkadex → planck w.fees = 0 := by
  simp [diverted, List.sum_eq_zero_iff]

theorem feesIn_eq_zero_iff {ws : List (Withdrawal Acc)} :
    feesIn ws asset = 0 ↔ ∀ w ∈ ws, w.asset = asset → planck w.fees = 0 := by
  simp [feesIn, planckOf, List.sum_eq_zero_iff]

end Sums

variable {s s' : State Acc Auth W cfg} {withdrawals : List (Withdrawal Acc)}

theorem holding_settleWithdrawalFee (h : s.settleWithdrawalFee withdrawal = .ok s') : s'.holding = s.holding +
      pdexOf PalletAccounts.potAccount (diverted [withdrawal]) -
      pdexOf PalletAccounts.palletAccount (planck withdrawal.fees) := by
  rw [settleWithdrawalFee] at h
  cases hasset : withdrawal.asset with
  | polkadex =>
    simp only [hasset, bind_eq_ok, pure_eq_ok, orElse_eq_ok] at h
    obtain ⟨_, hburn, rfl⟩ := h
    have hnone : diverted [withdrawal] = 0 := by simp [diverted, hasset]
    rw [holding, Holdings.burn hburn, hnone, Nat.cast_zero, pdexOf_zero, add_zero]
    rfl
  | asset id =>
    simp only [hasset, bind_eq_ok, pure_eq_ok] at h
    obtain ⟨_, htransfer, rfl⟩ := h
    have hall : diverted [withdrawal] = planck withdrawal.fees := by simp [diverted, hasset]
    rw [holding, Holdings.transfer htransfer, hall]
    rfl

theorem holding_settleWithdrawalFees (h : withdrawals.foldlM settleWithdrawalFee s = .ok s') :
    s'.holding = s.holding + pdexOf PalletAccounts.potAccount (diverted withdrawals) -
      pdexOf PalletAccounts.palletAccount (feesIn withdrawals .polkadex + diverted withdrawals) := by
  induction withdrawals generalizing s with
  | nil =>
    cases foldlM_nil_eq_ok.1 h
    have hzero : diverted ([] : List (Withdrawal Acc)) = 0 := rfl
    have hzero' : feesIn ([] : List (Withdrawal Acc)) .polkadex = 0 := rfl
    rw [hzero, hzero', Nat.cast_zero, add_zero, pdexOf_zero, pdexOf_zero, add_zero, sub_zero]
  | cons withdrawal withdrawals ih =>
    obtain ⟨t, ht, hrest⟩ := foldlM_cons_eq_ok.1 h
    rw [ih hrest, holding_settleWithdrawalFee ht, diverted_cons withdrawal withdrawals,
      feesIn_cons withdrawal withdrawals, planck_eq]
    simp only [Nat.cast_add, pdexOf_add]
    abel

-- The fees are settled in their own assets exactly if all fees of other assets are zero.
theorem fees_settled_iff (h : withdrawals.foldlM settleWithdrawalFee s = .ok s') :
    FeesSettled withdrawals s s' ↔ ∀ w ∈ withdrawals, w.asset ≠ .polkadex → planck w.fees = 0 := by
  have hholding := holding_settleWithdrawalFees h
  have hpot : (PalletAccounts.potAccount : Acc) ≠ PalletAccounts.palletAccount := Holdings.pot_ne W
  constructor
  · intro hsettled w hw hne
    have hcustody := hsettled.custody w.asset
    simp only [hholding, Pi.add_apply, Pi.sub_apply, pdexOf_of_asset_ne hne] at hcustody
    have hzero : feesIn withdrawals w.asset = 0 := by omega
    exact feesIn_eq_zero_iff.1 hzero w hw rfl
  · intro hfees
    have hother {asset : AssetId} (hne : asset ≠ .polkadex) : feesIn withdrawals asset = 0 :=
      feesIn_eq_zero_iff.2 fun w hw heq => hfees w hw (heq ▸ hne)
    rw [diverted_eq_zero_iff.2 hfees, Nat.cast_zero, pdexOf_zero, add_zero, add_zero] at hholding
    refine ⟨fun asset => ?custody, fun asset => ?pot, fun account asset hpallet _ => ?others⟩
    case custody =>
      rw [hholding, Pi.sub_apply, Pi.sub_apply]
      by_cases hne : asset = .polkadex
      · rw [hne, pdexOf_self]
      · rw [pdexOf_of_asset_ne hne, hother hne, Nat.cast_zero]
    case pot =>
      rw [hholding, Pi.sub_apply, Pi.sub_apply, pdexOf_of_account_ne hpot, sub_zero]
      split_ifs with hne
      · rw [add_zero]
      · rw [hother hne, Nat.cast_zero, add_zero]
    case others => rw [hholding, Pi.sub_apply, Pi.sub_apply, pdexOf_of_account_ne hpallet, sub_zero]

end State

end Fees

namespace Mock

attribute [local instance] Decimal.HalfEven.arith

theorem setBalance_apply (world : World) (account account' : Account) (asset asset' : AssetId) (n : ℕ) :
    update world account (update (world account) asset n) account' asset' =
      if account' = account ∧ asset' = asset then n else world account' asset' := by
  by_cases haccount : account' = account
  · subst haccount
    simp [update_apply]
  · simp [haccount]

theorem potAccount_ne_palletAccount :
    (PalletAccounts.potAccount : Account) ≠ PalletAccounts.palletAccount := by
  decide

@[reducible]
def holdings : Holdings Account World where
  holding world account asset := world account asset
  transfer {w w' payer payee amount} h := by
    simp only [Assets.transferNative, transfer] at h
    split_ifs at h with hlt
    rw [← Except.ok.inj h]
    funext account asset
    simp only [Pi.add_apply, Pi.sub_apply, pdexOf_apply, setBalance_apply]
    grind
  burn {w w' account amount} h := by
    simp only [Assets.burnNative] at h
    split_ifs at h with hlt
    rw [← Option.some.inj h]
    funext a asset
    simp only [Pi.sub_apply, pdexOf_apply, setBalance_apply]
    grind
  pot_ne := potAccount_ne_palletAccount

attribute [local instance] holdings

def feesHeld : State Account ℕ World config :=
  State.genesis [1, 2, 3] fun account _ => if account = 0 then 10 * unitBalance else 0

def feeOf (asset : AssetId) (fees : Decimal) : Withdrawal Account where
  id := 0
  mainAccount := 2
  amount := two
  asset := asset
  fees := fees
  stid := 0
  destination := none

theorem native_fees_settled :
    ∃ s', [feeOf .polkadex 1, feeOf (.asset 1) 0].foldlM State.settleWithdrawalFee feesHeld = .ok s' ∧
      State.FeesSettled [feeOf .polkadex 1, feeOf (.asset 1) 0] feesHeld s' := by
  refine ⟨_, rfl, (State.fees_settled_iff rfl).2 ?_⟩
  decide +kernel

-- The fee in another asset is taken from the native currency.
theorem asset_fee_paid_in_native :
    ∃ s', [feeOf (.asset 1) 1].foldlM State.settleWithdrawalFee feesHeld = .ok s' ∧
      s'.world 0 (.asset 1) = 10 * unitBalance ∧ s'.world 0 .polkadex = 9 * unitBalance ∧
      ¬State.FeesSettled [feeOf (.asset 1) 1] feesHeld s' := by
  refine ⟨_, rfl, by decide +kernel, by decide +kernel, fun h => ?_⟩
  have hcustody := h.custody (.asset 1)
  revert hcustody
  decide +kernel

end Mock

end Ocex
