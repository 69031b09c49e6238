import PolkadexModel.Ocex.Rewards
import PolkadexModel.Ocex.Theorems.Records

-- What the calls do to the storage of the other pallets.
namespace Ocex

variable {Acc Auth AuthSign W : Type}

section Moves

variable [Assets Acc W] [CrossChainGadget Acc W] [CrowdSourceLiquidityMining Acc W]
  [RewardsAccount Acc W]

-- One operation of another pallet. The messages of the engine that are handed over to the liquidity
-- mining pallet are among those of `E`.
inductive WorldMove (E : EgressMessages Acc → Prop) : W → W → Prop
  | transfer {w w' : W} {payer payee : Acc} {amount : ℕ} {asset : AssetId}
      (h : Assets.transfer w payer payee amount asset = .ok w') : WorldMove E w w'
  | burnNative {w w' : W} {account : Acc} {amount : ℕ}
      (h : Assets.burnNative w account amount = some w') : WorldMove E w w'
  | parachainWithdraw {w w' : W} {account : Acc} {asset : AssetId} {amount beneficiary : ℕ}
      {feeAsset : Option AssetId} {feeAmount : Option ℕ} {id : ℕ}
      (h : CrossChainGadget.parachainWithdraw w account asset amount beneficiary feeAsset feeAmount id =
        .ok w') : WorldMove E w w'
  | transferAllowDeath {w w' : W} {payer payee : Acc} {amount : ℕ}
      (h : RewardsAccount.transferAllowDeath w payer payee amount = .ok w') : WorldMove E w w'
  | newEpoch (w : W) (epoch : ℕ) :
      WorldMove E w (CrowdSourceLiquidityMining.newEpoch Acc w epoch)
  | stopAcceptingLmpWithdrawals (w : W) (epoch : ℕ) :
      WorldMove E w (CrowdSourceLiquidityMining.stopAcceptingLmpWithdrawals Acc w epoch)
  | addLiquiditySuccess {w w' : W} {market : TradingPairConfig} {pool lp : Acc}
      {shares price inventory : Decimal}
      (he : E (.addLiquidityResult market pool lp shares price inventory))
      (h : CrowdSourceLiquidityMining.addLiquiditySuccess w market.pair pool lp shares price inventory =
        .ok w') : WorldMove E w w'
  | removeLiquiditySuccess {w w' : W} {market : TradingPairConfig} {pool lp : Acc}
      {base quote : Decimal} (he : E (.removeLiquidityResult market pool lp base quote))
      (h : CrowdSourceLiquidityMining.removeLiquiditySuccess w market.pair pool lp base quote = .ok w') :
      WorldMove E w w'
  | removeLiquidityFailed {w w' : W} {market : TradingPairConfig} {pool lp : Acc}
      {burnFrac total base quote base' quote' : Decimal}
      (he : E (.removeLiquidityFailed market pool lp burnFrac total base quote base' quote'))
      (h : CrowdSourceLiquidityMining.removeLiquidityFailed w market.pair pool lp burnFrac total base
        quote base' quote' = .ok w') : WorldMove E w w'
  | poolForceCloseSuccess {w w' : W} {market : TradingPairConfig} {pool : Acc}
      {base quote : Decimal} (he : E (.poolForceClosed market pool base quote))
      (h : CrowdSourceLiquidityMining.poolForceCloseSuccess w market.pair pool base quote = .ok w') :
      WorldMove E w w'

abbrev WorldMoves (E : EgressMessages Acc → Prop) : W → W → Prop :=
  Relation.ReflTransGen (WorldMove E)

end Moves

variable [Ord Acc] {cfg : Config}

namespace State

variable {s s' : State Acc Auth W cfg}

section Payments

theorem world_depositClaimed (s : State Acc Auth W cfg) (id : ℕ) (main : Acc)
    (processed : List (Withdrawal Acc)) :
    (s.depositClaimed id main processed).world = s.world := by
  simp only [depositClaimed]
  split_ifs <;> rfl

variable [Assets Acc W] [CrossChainGadget Acc W] [CrowdSourceLiquidityMining Acc W]
  [RewardsAccount Acc W] {E : EgressMessages Acc → Prop}

theorem moves_foldlM {α : Type} {f : State Acc Auth W cfg → α → Except DispatchError _}
    {l : List α} (hf : ∀ a ∈ l, ∀ {s s'}, f s a = .ok s' → WorldMoves E s.world s'.world)
    (h : l.foldlM f s = .ok s') : WorldMoves E s.world s'.world := by
  induction l generalizing s with
  | nil => exact foldlM_nil_eq_ok.mp h ▸ .refl
  | cons a l hi =>
    obtain ⟨t, ht, h⟩ := foldlM_cons_eq_ok.mp h
    exact (hf a List.mem_cons_self ht).trans (hi (fun b hb => hf b (List.mem_cons_of_mem a hb)) h)

theorem moves_foldl {α β : Type} {f : State Acc Auth W cfg × β → α → _ × β}
    (hf : ∀ acc a, WorldMoves E acc.1.world (f acc a).1.world)
    (acc : State Acc Auth W cfg × β) (l : List α) :
    WorldMoves E acc.1.world (l.foldl f acc).1.world := by
  induction l generalizing acc with
  | nil => exact .refl
  | cons a l hi => exact (hf acc a).trans (hi (f acc a))

theorem moves_transferAsset
    (h : s.transferAsset payer payee amount asset = .ok s') : WorldMoves E s.world s'.world := by
  simp only [transferAsset, bind_eq_ok, pure_eq_ok] at h
  obtain ⟨w, hw, hs⟩ := h
  exact hs ▸ .single (.transfer hw)

theorem moves_startNewEpoch (s : State Acc Auth W cfg) (n : ℕ) :
    WorldMoves E s.world (s.startNewEpoch n).world := by
  simp only [startNewEpoch]
  split
  · exact .refl
  · rw [(frame_pushEpoch ..).1]
    exact .single (.newEpoch ..)

theorem moves_onInitialize (s : State Acc Auth W cfg) (n : ℕ) :
    WorldMoves E s.world (s.onInitialize n).world := by
  have hstart : WorldMoves E s.world
      (if Word.saturatedInto 32 n % epochLength = 0 then s.startNewEpoch n else s).world := by
    split_ifs
    · exact moves_startNewEpoch s n
    · exact .refl
  simp only [onInitialize]
  split_ifs at hstart ⊢
  all_goals first | exact hstart | exact hstart.tail (.stopAcceptingLmpWithdrawals ..)

variable [Decimal.Arith]

theorem moves_doClaimLmpRewards [DecidableEq Acc]
    (h : s.doClaimLmpRewards main epoch market = .ok (s', total)) : WorldMoves E s.world s'.world := by
  simp only [doClaimLmpRewards, bind_eq_ok, pure_eq_ok, Prod.mk.injEq] at h
  obtain ⟨_, _, _, _, _, _, _, _, _, _, w, hw, hs, _⟩ := h
  exact hs ▸ .single (.transferAllowDeath hw)

variable [PalletAccounts Acc]

omit [Decimal.Arith] in
theorem moves_burnFees (h : s.burnFees amount = .ok s') : WorldMoves E s.world s'.world := by
  simp only [burnFees, bind_eq_ok, pure_eq_ok, orElse_eq_ok] at h
  obtain ⟨w, hw, hs⟩ := h
  exact hs ▸ .single (.burnNative hw)

theorem moves_payPool
    (h : s.payPool market pool baseFreed quoteFreed = .ok s') : WorldMoves E s.world s'.world := by
  simp only [payPool, bind_eq_ok] at h
  obtain ⟨_, _, _, _, _, _, t, ht, h⟩ := h
  exact (moves_transferAsset ht).trans (moves_transferAsset h)

omit [Ord Acc] in
theorem moves_onIdleWithdrawalProcessor {w w' : W} {withdrawal : Withdrawal Acc}
    (h : onIdleWithdrawalProcessor w withdrawal = .ok w') : WorldMoves E w w' := by
  simp only [onIdleWithdrawalProcessor, bind_eq_ok] at h
  obtain ⟨_, _, t, ht, h⟩ := h
  have hm : WorldMoves E w t := .single (.transfer ht)
  split at h
  · exact pure_eq_ok.mp h ▸ hm
  · exact hm.tail (.parachainWithdraw h)

theorem moves_doWithdraw (s : State Acc Auth W cfg) (id : ℕ)
    (withdrawals : List (Withdrawal Acc)) :
    WorldMoves E s.world (s.doWithdraw id withdrawals).1.world := by
  refine moves_foldl (fun acc withdrawal => ?_) (s, [], []) withdrawals.reverse
  simp only [tryWithdrawal]
  split
  case h_1 hw => exact moves_onIdleWithdrawalProcessor hw
  case h_2 => exact .refl

theorem moves_settleWithdrawals (s : State Acc Auth W cfg) (id : ℕ)
    (withdrawals : List (Withdrawal Acc)) :
    WorldMoves E s.world (s.settleWithdrawals id withdrawals).world := by
  have h (acc : State Acc Auth W cfg × WithdrawalsMap Acc) entry :
      WorldMoves E acc.1.world (settleAccount id acc entry).1.world := by
    simp only [settleAccount, world_depositClaimed]
    exact moves_doWithdraw ..
  have hf := moves_foldl h (s, ∅) (createWithdrawalTree withdrawals).toList
  simp only [settleWithdrawals]
  split_ifs <;> exact hf

theorem moves_claimWithdraw {id : ℕ} (h : s.claimWithdraw id account = .ok s') :
    WorldMoves E s.world s'.world := by
  simp only [claimWithdraw, bind_eq_ok, pure_eq_ok] at h
  obtain ⟨_, _, withdrawals, _, hs⟩ := h
  rw [← hs]
  simp only [world_depositClaimed]
  exact moves_doWithdraw ..

theorem moves_settleWithdrawalFee
    (h : s.settleWithdrawalFee withdrawal = .ok s') : WorldMoves E s.world s'.world := by
  simp only [settleWithdrawalFee] at h
  split at h
  · simp only [bind_eq_ok, pure_eq_ok, orElse_eq_ok] at h
    obtain ⟨w, hw, hs⟩ := h
    exact hs ▸ .single (.burnNative hw)
  · simp only [bind_eq_ok, pure_eq_ok] at h
    obtain ⟨w, hw, hs⟩ := h
    have hw : Assets.transfer s.world (PalletAccounts.palletAccount : Acc)
      PalletAccounts.potAccount _ .polkadex = .ok w := hw
    exact hs ▸ .single (.transfer hw)

theorem moves_executeWithdrawals {id : ℕ} {withdrawals : List (Withdrawal Acc)}
    (h : s.executeWithdrawals id withdrawals = .ok s') : WorldMoves E s.world s'.world := by
  simp only [executeWithdrawals] at h
  split_ifs at h
  · exact Except.ok.inj h ▸ .refl
  · exact (moves_settleWithdrawals s id withdrawals).trans
      (moves_foldlM (fun _ _ _ _ => moves_settleWithdrawalFee) h)

theorem moves_doDeposit [DecidableEq Acc] {id amount : ℕ}
    (h : s.doDeposit id user asset amount = .ok s') : WorldMoves E s.world s'.world := by
  simp only [doDeposit, bind_eq_ok, pure_eq_ok] at h
  obtain ⟨_, _, _, _, _, _, _, _, _, _, t, ht, u, hu, _, _, v, hv, hs⟩ := h
  have hp := (frame_pushIngress hv).1
  have hw : s'.world = u.world := hs ▸ hp
  rw [hw, ← (frame_registerDepositor ht).1]
  exact moves_transferAsset hu

theorem moves_addLiquidity {lp : Acc} [DecidableEq Acc] {id : ℕ}
    (h : s.addLiquidity id market pool lp totalShares baseAmount quoteAmount = .ok s') :
    WorldMoves E s.world s'.world := by
  simp only [addLiquidity, bind_eq_ok] at h
  obtain ⟨_, _, t, ht, _, _, u, hu, h⟩ := h
  rw [(frame_pushIngress h).1]
  exact (moves_doDeposit ht).trans (moves_doDeposit hu)

variable [Percent]

omit [Decimal.Arith] in
theorem moves_payFees (h : s.payFees fees asset = .ok s') : WorldMoves E s.world s'.world := by
  cases asset with
  | asset id => exact moves_transferAsset h
  | polkadex =>
    simp only [payFees] at h
    split at h
    · simp only [distributeFees, bind_eq_ok] at h
      obtain ⟨_, _, t, ht, h⟩ := h
      exact (moves_burnFees ht).trans (moves_transferAsset h)
    · exact moves_burnFees h

theorem moves_processTradingFees
    (h : s.processTradingFees entry = .ok s') : WorldMoves E s.world s'.world := by
  simp only [processTradingFees, bind_eq_ok, pure_eq_ok] at h
  obtain ⟨_, _, t, ht, hs⟩ := h
  have hm : WorldMoves E s.world t.world := moves_payFees ht
  exact hs ▸ hm

theorem moves_processEgress (he : E msg)
    (h : s.processEgress msg = .ok s') : WorldMoves E s.world s'.world := by
  cases msg with
  | tradingFees fees => exact moves_foldlM (fun _ _ _ _ => moves_processTradingFees) h
  | priceOracle prices => exact Except.ok.inj h ▸ .refl
  | addLiquidityResult =>
    simp only [processEgress, bind_eq_ok, pure_eq_ok] at h
    obtain ⟨w, hw, hs⟩ := h
    exact hs ▸ .single (.addLiquiditySuccess he hw)
  | removeLiquidityFailed =>
    simp only [processEgress, bind_eq_ok, pure_eq_ok] at h
    obtain ⟨w, hw, hs⟩ := h
    exact hs ▸ .single (.removeLiquidityFailed he hw)
  | removeLiquidityResult =>
    simp only [processEgress, bind_eq_ok, pure_eq_ok] at h
    obtain ⟨t, ht, w, hw, hs⟩ := h
    exact hs ▸ (moves_payPool ht).tail (.removeLiquiditySuccess he hw)
  | poolForceClosed =>
    simp only [processEgress, bind_eq_ok, pure_eq_ok] at h
    obtain ⟨t, ht, w, hw, hs⟩ := h
    exact hs ▸ (moves_payPool ht).tail (.poolForceCloseSuccess he hw)

theorem moves_processEgressMsg {msgs : List (EgressMessages Acc)}
    (h : s.processEgressMsg msgs = .ok s') : WorldMoves (· ∈ msgs) s.world s'.world := by
  simp only [processEgressMsg, bind_eq_ok] at h
  obtain ⟨_, _, h⟩ := h
  exact moves_foldlM (fun _ hm _ _ => moves_processEgress hm) h

theorem moves_submitSnapshot [DecidableEq Acc] {summary : SnapshotSummary Acc}
    (h : s.submitSnapshot summary = .ok s') :
    WorldMoves (· ∈ summary.egressMessages) s.world s'.world := by
  simp only [submitSnapshot, bind_eq_ok, pure_eq_ok] at h
  obtain ⟨s₁, h₁, s₂, h₂, s₃, h₃, s₄, h₄, hs⟩ := h
  have hm := (moves_processEgressMsg h₂).trans (moves_executeWithdrawals h₃)
  have hp := (frame_pushIngress h₄).1
  have hw : s'.world = s₃.world := hs ▸ hp
  rw [hw, ← (scores_updateScores h₁).world]
  exact hm

end Payments

end State

def Call.Carries : Call Acc Auth AuthSign → EgressMessages Acc → Prop
  | .submitSnapshot summary _, message => message ∈ summary.egressMessages
  | _, _ => False

def LmpCall.Carries : LmpCall Acc Auth AuthSign →
    EgressMessages Acc → Prop
  | .call c, message => c.Carries message
  | .claimLmpRewards .., _ => False

section Dispatch

variable [DecidableEq Acc] [PalletAccounts Acc] [Assets Acc W]
  [CrossChainGadget Acc W] [CrowdSourceLiquidityMining Acc W] [RewardsAccount Acc W]
  [Percent] [Authority Acc Auth AuthSign] [Decimal.Arith]
  {s s' : State Acc Auth W cfg}

open State

theorem moves_dispatch {c : Call Acc Auth AuthSign}
    (h : dispatch s c = .ok s') : WorldMoves c.Carries s.world s'.world := by
  have keep (hw : s'.world = s.world) : WorldMoves c.Carries s.world s'.world := hw ▸ .refl
  cases c with
  | submitSnapshot =>
    simp only [dispatch, bind_eq_ok] at h
    obtain ⟨_, _, h⟩ := h
    exact moves_submitSnapshot h
  | claimWithdraw => exact moves_claimWithdraw h
  | deposit => exact moves_doDeposit h
  | addLiquidity => exact moves_addLiquidity h
  | startNewEpochLmp => exact Except.ok.inj h ▸ moves_startNewEpoch ..
  | nextBlock =>
    have hs := Except.ok.inj h
    have hm : WorldMoves (Call.nextBlock : Call Acc Auth AuthSign).Carries
        s.world (State.onInitialize
        { s with currentBlockNumber := s.currentBlockNumber + 1 } (s.currentBlockNumber + 1)).world :=
      moves_onInitialize { s with currentBlockNumber := s.currentBlockNumber + 1 } _
    exact hs ▸ hm
  | registerMainAccount => exact keep (frame_registerUser h).1
  | addProxyAccount => exact keep (frame_addProxyAccount h).1
  | removeProxyAccount => exact keep (frame_removeProxyAccount h).1
  | setLmpEpochConfig =>
    simp only [dispatch, setLmpEpochConfig, bind_eq_ok, pure_eq_ok] at h
    obtain ⟨_, _, _, _, _, _, _, _, _, _, hs⟩ := h
    exact keep (hs ▸ rfl)
  | _ => exact keep (frame_of_setting rfl h).1

theorem moves_lmpDispatch {c : LmpCall Acc Auth AuthSign}
    (h : lmpDispatch s c = .ok s') : WorldMoves c.Carries s.world s'.world := by
  cases c with
  | call c => exact moves_dispatch h
  | claimLmpRewards main epoch market =>
    obtain ⟨⟨t, total⟩, ht, hs⟩ := Except.map_eq_ok.mp h
    exact hs ▸ moves_doClaimLmpRewards ht

end Dispatch

end Ocex
