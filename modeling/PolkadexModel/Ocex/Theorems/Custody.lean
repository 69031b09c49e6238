import PolkadexModel.Lib.Trees
import PolkadexModel.Ocex.Theorems.Amounts

open Function

namespace Ocex

variable {Acc Auth W : Type}

-- The balance of the account that holds the funds of the exchange, and how the other pallets change it.
-- What the liquidity mining pallet does with the shares of a pool and with its funds does not concern
-- it, as long as it is neither the pool nor the provider.
class Custody (Acc W : Type) [PalletAccounts Acc] [Assets Acc W]
    [CrowdSourceLiquidityMining Acc W] where
  balance : W → AssetId → ℕ
  transfer_out : ∀ {w w' : W} {payee : Acc} {amount : ℕ} {asset : AssetId},
    Assets.transfer w PalletAccounts.palletAccount payee amount asset = .ok w' →
    payee ≠ PalletAccounts.palletAccount → balance w = balance w' + Pi.single asset amount
  transfer_in : ∀ {w w' : W} {payer : Acc} {amount : ℕ} {asset : AssetId},
    Assets.transfer w payer PalletAccounts.palletAccount amount asset = .ok w' →
    payer ≠ PalletAccounts.palletAccount → balance w' = balance w + Pi.single asset amount
  burn : ∀ {w w' : W} {amount : ℕ},
    Assets.burnNative w (PalletAccounts.palletAccount : Acc) amount = some w' →
    balance w = balance w' + Pi.single .polkadex amount
  pot_ne : (PalletAccounts.potAccount : Acc) ≠ PalletAccounts.palletAccount
  pool_ne : ∀ {w : W} {pool : Acc}, CrowdSourceLiquidityMining.isValidPoolId w pool →
    pool ≠ PalletAccounts.palletAccount
  newEpoch : ∀ (w : W) epoch, balance (CrowdSourceLiquidityMining.newEpoch Acc w epoch) = balance w
  stopAccepting : ∀ (w : W) epoch,
    balance (CrowdSourceLiquidityMining.stopAcceptingLmpWithdrawals Acc w epoch) = balance w
  addLiquiditySuccess : ∀ {w w' : W} {market pool} {lp : Acc} {shares price inventory},
    CrowdSourceLiquidityMining.addLiquiditySuccess w market pool lp shares price inventory = .ok w' →
    lp ≠ PalletAccounts.palletAccount → balance w' = balance w
  removeLiquiditySuccess : ∀ {w w' : W} {market} {pool lp : Acc} {base quote},
    CrowdSourceLiquidityMining.removeLiquiditySuccess w market pool lp base quote = .ok w' →
    pool ≠ PalletAccounts.palletAccount → lp ≠ PalletAccounts.palletAccount → balance w' = balance w
  removeLiquidityFailed : ∀ {w w' : W} {market pool} {lp : Acc} {burnFrac total b q b' q'},
    CrowdSourceLiquidityMining.removeLiquidityFailed w market pool lp burnFrac total b q b' q' = .ok w' →
    lp ≠ PalletAccounts.palletAccount → balance w' = balance w
  poolForceCloseSuccess : ∀ {w w' : W} {market} {pool : Acc} {base quote},
    CrowdSourceLiquidityMining.poolForceCloseSuccess w market pool base quote = .ok w' →
    balance w' = balance w

def planck [Decimal.Arith] (amount : Decimal) : ℕ :=
  (amount.saturatingMul unitDecimal).toNat?.getD 0

theorem planck_of_inPlanck [Decimal.Arith] (h : State.inPlanck amount = .ok n) : planck amount = n := by
  rw [State.inPlanck, orElse_eq_ok] at h
  rw [planck, h, Option.getD_some]

def planckOf [Decimal.Arith] (amounts : List (AssetId × Decimal)) (asset : AssetId) : ℕ :=
  (amounts.map fun e => if e.1 = asset then planck e.2 else 0).sum

section Sums

variable [Decimal.Arith]

theorem planckOf_nil : planckOf [] = 0 :=
  rfl

theorem planckOf_cons (e : AssetId × Decimal) (l : List (AssetId × Decimal)) :
    planckOf (e :: l) = Pi.single e.1 (planck e.2) + planckOf l := by
  funext asset
  simp [planckOf, Pi.single_apply, eq_comm]

theorem planckOf_append (l₁ l₂ : List (AssetId × Decimal)) :
    planckOf (l₁ ++ l₂) = planckOf l₁ + planckOf l₂ := by
  funext asset
  simp [planckOf]

end Sums

namespace EgressMessages

def payouts : EgressMessages Acc → List (AssetId × Decimal)
  | .tradingFees fees => fees.toList
  | .removeLiquidityResult market _ _ baseFreed quoteFreed
  | .poolForceClosed market _ baseFreed quoteFreed =>
    [(market.baseAsset, baseFreed), (market.quoteAsset, quoteFreed)]
  | _ => []

def provider : EgressMessages Acc → Option Acc
  | .addLiquidityResult _ _ lp _ _ _
  | .removeLiquidityResult _ _ lp _ _
  | .removeLiquidityFailed _ _ lp _ _ _ _ _ _ => some lp
  | _ => none

end EgressMessages

variable [Ord Acc] {cfg : Config} [PalletAccounts Acc] [Assets Acc W]
  [CrowdSourceLiquidityMining Acc W] [Custody Acc W]

namespace State

variable {s s' : State Acc Auth W cfg}

def custody (s : State Acc Auth W cfg) (asset : AssetId) : ℕ :=
  Custody.balance Acc s.world asset

def PaysOthers (s : State Acc Auth W cfg) : Prop :=
  ∀ distribution, s.feeDistributionConfig = some distribution →
    distribution.recipientAddress ≠ PalletAccounts.palletAccount

-- A step that pays the given amounts, and nothing else.
structure Pays (s : State Acc Auth W cfg) (paid : AssetId → ℕ)
    (s' : State Acc Auth W cfg) : Prop where
  custody : s.custody = s'.custody + paid
  config : s'.feeDistributionConfig = s.feeDistributionConfig

namespace Pays

variable {paid paid' : AssetId → ℕ}

theorem keep (hw : Custody.balance Acc s'.world = Custody.balance Acc s.world)
    (hc : s'.feeDistributionConfig = s.feeDistributionConfig) : Pays s 0 s' :=
  ⟨hw.symm, hc⟩

theorem trans (h : Pays s paid s') (h' : Pays s' paid' s'') : Pays s (paid + paid') s'' :=
  ⟨by rw [h.custody, h'.custody]; ac_rfl, h'.config.trans h.config⟩

theorem others (h : Pays s paid s') (ho : s.PaysOthers) : s'.PaysOthers :=
  fun distribution hd => ho distribution (h.config ▸ hd)

theorem transferAsset (h : s.transferAsset PalletAccounts.palletAccount payee amount asset = .ok s')
    (hp : payee ≠ PalletAccounts.palletAccount) : Pays s (Pi.single asset amount) s' := by
  simp only [State.transferAsset, bind_eq_ok, pure_eq_ok] at h
  obtain ⟨_, hw, hs⟩ := h
  exact hs ▸ ⟨Custody.transfer_out hw hp, rfl⟩

theorem burnFees (h : s.burnFees amount = .ok s') : Pays s (Pi.single .polkadex amount) s' := by
  simp only [State.burnFees, bind_eq_ok, pure_eq_ok, orElse_eq_ok] at h
  obtain ⟨_, hw, hs⟩ := h
  exact hs ▸ ⟨Custody.burn hw, rfl⟩

section Percent

variable [Percent]

omit [Ord Acc] [PalletAccounts Acc] [Assets Acc W]
  [CrowdSourceLiquidityMining Acc W] [Custody Acc W] in
theorem mul_le_of_le_hundred (hp : p ≤ 100) (n : ℕ) : Percent.mul p n ≤ n := by
  have hlt := (Percent.mul_nearest p n).2
  have hle := Nat.mul_le_mul_right n hp
  omega

theorem payFees (ho : s.PaysOthers)
    (h : s.payFees fees asset = .ok s') : Pays s (Pi.single asset fees) s' := by
  simp only [State.payFees] at h
  split at h
  · exact transferAsset h (Custody.pot_ne W)
  · split at h
    case h_1 distribution hd =>
      simp only [State.distributeFees, bind_eq_ok] at h
      obtain ⟨_, _, t, ht, h⟩ := h
      have hle := mul_le_of_le_hundred (Nat.min_le_right distribution.burnRation 100) fees
      have hpay := (burnFees ht).trans (transferAsset h (ho distribution hd))
      rwa [← Pi.single_add, Nat.add_sub_of_le hle] at hpay
    case h_2 => exact burnFees h

end Percent

variable [Decimal.Arith]

theorem foldlM {α : Type} {f : State Acc Auth W cfg → α → Except DispatchError _}
    {g : α → List (AssetId × Decimal)} {l : List α}
    (hf : ∀ x ∈ l, ∀ s s', s.PaysOthers → f s x = .ok s' → Pays s (planckOf (g x)) s')
    (ho : s.PaysOthers) (h : l.foldlM f s = .ok s') : Pays s (planckOf (l.flatMap g)) s' := by
  induction l generalizing s with
  | nil => exact foldlM_nil_eq_ok.mp h ▸ .keep rfl rfl
  | cons x l hi =>
    obtain ⟨t, ht, h⟩ := foldlM_cons_eq_ok.mp h
    have hx := hf x List.mem_cons_self s t ho ht
    rw [List.flatMap_cons, planckOf_append]
    exact hx.trans (hi (fun y hy => hf y (List.mem_cons_of_mem x hy)) (hx.others ho) h)

theorem processTradingFees [Percent] (ho : s.PaysOthers)
    (h : s.processTradingFees entry = .ok s') : Pays s (planckOf [entry]) s' := by
  simp only [State.processTradingFees, bind_eq_ok, pure_eq_ok] at h
  obtain ⟨fees, hf, t, ht, hs⟩ := h
  have hpay := payFees ho ht
  rw [planckOf_cons, planck_of_inPlanck hf, planckOf_nil, add_zero]
  exact hs ▸ ⟨hpay.custody, hpay.config⟩

theorem payPool (h : s.payPool market pool base quote = .ok s') :
    Pays s (planckOf [(market.baseAsset, base), (market.quoteAsset, quote)]) s' ∧
      pool ≠ PalletAccounts.palletAccount := by
  simp only [State.payPool, bind_eq_ok, ensure_eq_ok] at h
  obtain ⟨_, hv, b, hb, q, hq, t, ht, h⟩ := h
  have hp := Custody.pool_ne hv
  rw [planckOf_cons, planckOf_cons, planck_of_inPlanck hb, planck_of_inPlanck hq, planckOf_nil,
    add_zero]
  exact ⟨(transferAsset ht hp).trans (transferAsset h hp), hp⟩

variable [Percent]

theorem processEgress (ho : s.PaysOthers)
    (hm : msg.provider ≠ some PalletAccounts.palletAccount) (h : s.processEgress msg = .ok s') :
    Pays s (planckOf msg.payouts) s' := by
  cases msg with
  | tradingFees fees =>
    have hp : Pays s (planckOf (fees.toList.flatMap ([·]))) s' :=
      Pays.foldlM (fun e _ t t' ho => processTradingFees ho) ho h
    rwa [List.flatMap_singleton'] at hp
  | priceOracle prices => exact Except.ok.inj h ▸ .keep rfl rfl
  | addLiquidityResult =>
    simp only [State.processEgress, bind_eq_ok, pure_eq_ok] at h
    obtain ⟨_, hw, hs⟩ := h
    exact hs ▸ .keep (Custody.addLiquiditySuccess hw fun he => hm (he ▸ rfl)) rfl
  | removeLiquidityFailed =>
    simp only [State.processEgress, bind_eq_ok, pure_eq_ok] at h
    obtain ⟨_, hw, hs⟩ := h
    exact hs ▸ .keep (Custody.removeLiquidityFailed hw fun he => hm (he ▸ rfl)) rfl
  | removeLiquidityResult =>
    simp only [State.processEgress, bind_eq_ok, pure_eq_ok] at h
    obtain ⟨t, ht, _, hw, hs⟩ := h
    obtain ⟨hpay, hpool⟩ := Pays.payPool ht
    have hcall := Custody.removeLiquiditySuccess hw hpool fun he => hm (he ▸ rfl)
    exact hs ▸ ⟨hpay.custody.trans (congrArg (· + _) hcall.symm), hpay.config⟩
  | poolForceClosed =>
    simp only [State.processEgress, bind_eq_ok, pure_eq_ok] at h
    obtain ⟨t, ht, _, hw, hs⟩ := h
    have hpay := (Pays.payPool ht).1
    have hcall := Custody.poolForceCloseSuccess hw
    exact hs ▸ ⟨hpay.custody.trans (congrArg (· + _) hcall.symm), hpay.config⟩

theorem processEgressMsg (ho : s.PaysOthers)
    (hm : ∀ msg ∈ msgs, msg.provider ≠ some PalletAccounts.palletAccount)
    (h : s.processEgressMsg msgs = .ok s') : Pays s (planckOf (msgs.flatMap EgressMessages.payouts)) s' := by
  simp only [State.processEgressMsg, bind_eq_ok] at h
  obtain ⟨_, _, h⟩ := h
  exact Pays.foldlM (fun msg hmem s s' ho => processEgress ho (hm msg hmem)) ho h

end Pays

end State

namespace Mock

theorem transfer_eq (world : World) (payer payee : Account) (amount : ℕ) (asset : AssetId) :
    Assets.transfer world payer payee amount asset = transfer world asset payer payee amount := by
  cases asset <;> rfl

@[reducible]
def custody : Custody Account World where
  balance world := world PalletAccounts.palletAccount
  transfer_out {w w' payee amount asset} h hp := by
    rw [transfer_eq] at h
    simp only [transfer] at h
    split_ifs at h with hlt
    rw [← Except.ok.inj h, update_of_ne hp.symm, update_self]
    funext a
    by_cases ha : a = asset <;> simp [ha]
    omega
  transfer_in {w w' payer amount asset} h hp := by
    rw [transfer_eq] at h
    simp only [transfer] at h
    split_ifs at h with hlt
    rw [← Except.ok.inj h, update_self, update_of_ne hp.symm]
    funext a
    by_cases ha : a = asset <;> simp [ha]
  burn {w w' amount} h := by
    simp only [Assets.burnNative] at h
    split_ifs at h with hlt
    rw [← Option.some.inj h, update_self]
    funext a
    by_cases ha : a = .polkadex <;> simp [ha]
    omega
  pot_ne := by decide
  pool_ne h := by cases h
  newEpoch _ _ := rfl
  stopAccepting _ _ := rfl
  addLiquiditySuccess h := by cases h
  removeLiquiditySuccess h := by cases h
  removeLiquidityFailed h := by cases h
  poolForceCloseSuccess h := by cases h

end Mock

end Ocex
