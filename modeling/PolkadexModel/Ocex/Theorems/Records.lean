import PolkadexModel.Ocex.Theorems.Frame

namespace Ocex

-- The main accounts with their proxies, and the index of the proxies.
structure Registry (Acc : Type) where
  accounts : Acc → Option (AccountInfo Acc)
  proxies : Acc → Option Acc

-- The epochs of the liquidity mining, and the scores in them.
structure Epochs (Acc : Type) where
  lmpEpoch : ℕ
  traderMetrics : ℕ × TradingPair × Acc → Decimal × Decimal × Bool
  totalScores : ℕ × TradingPair → Decimal × Decimal
  finalizeLMPScore : Option ℕ
  lmpConfig : ℕ → Option LMPEpochConfig
  expectedLMPConfig : Option LMPEpochConfig
  lmpClaimBlk : ℕ → Option ℕ

def Epochs.enter {Acc : Type} (r : Epochs Acc) (config : LMPEpochConfig) :
    Epochs Acc :=
  let epoch := Word.saturatingAdd 16 r.lmpEpoch 1
  let lmpConfig := if r.lmpEpoch = 0 ∧ (r.lmpConfig 0).isNone
    then Function.update r.lmpConfig 0 (some config) else r.lmpConfig
  { r with
    finalizeLMPScore := some (r.finalizeLMPScore.getD r.lmpEpoch)
    lmpEpoch := epoch
    lmpConfig := Function.update lmpConfig epoch (some config) }

-- The part of the state that neither payments nor messages concern.
structure Records (Acc : Type) where
  registry : Registry Acc
  epochs : Epochs Acc

variable {Acc Auth AuthSign W : Type} [Ord Acc] {cfg : Config}

namespace State

variable {s s' : State Acc Auth W cfg}

def registry (s : State Acc Auth W cfg) : Registry Acc :=
  ⟨s.accounts, s.proxies⟩

def epochs (s : State Acc Auth W cfg) : Epochs Acc where
  lmpEpoch := s.lmpEpoch
  traderMetrics := s.traderMetrics
  totalScores := s.totalScores
  finalizeLMPScore := s.finalizeLMPScore
  lmpConfig := s.lmpConfig
  expectedLMPConfig := s.expectedLMPConfig
  lmpClaimBlk := s.lmpClaimBlk

def records (s : State Acc Auth W cfg) : Records Acc :=
  ⟨s.registry, s.epochs⟩

theorem frame_pushIngressAt
    (h : s.pushIngressAt n message = some s') : s'.world = s.world ∧ s'.records = s.records := by
  obtain ⟨_, _, rfl⟩ := Option.map_eq_some_iff.mp h
  exact ⟨rfl, rfl⟩

theorem frame_pushIngress (h : s.pushIngress message = .ok s') :
    s'.world = s.world ∧ s'.records = s.records :=
  frame_pushIngressAt (orElse_eq_ok.mp h)

theorem frame_getD_pushIngressAt (s : State Acc Auth W cfg) (n : ℕ)
    (message : IngressMessages Acc) : ((s.pushIngressAt n message).getD s).world = s.world ∧
      ((s.pushIngressAt n message).getD s).records = s.records := by
  cases h : s.pushIngressAt n message with
  | none => exact ⟨rfl, rfl⟩
  | some s' => exact frame_pushIngressAt h

theorem frame_pushEpoch (s : State Acc Auth W cfg) (n epoch : ℕ)
    (config : LMPEpochConfig) : (s.pushEpoch n epoch config).world = s.world ∧
      (s.pushEpoch n epoch config).records = s.records := by
  simp only [pushEpoch]
  cases h : s.pushIngressAt n (.newLMPEpoch epoch) with
  | none => exact ⟨rfl, rfl⟩
  | some t =>
    simp only [Option.bind_some]
    cases h' : t.pushIngressAt n (.lmpConfig config) with
    | none => exact ⟨rfl, rfl⟩
    | some s' =>
      have ht := frame_pushIngressAt h
      have hs := frame_pushIngressAt h'
      exact ⟨hs.1.trans ht.1, hs.2.trans ht.2⟩

theorem frame_removeLiquidity {lp : Acc} [Decimal.Arith] (h : s.removeLiquidity market pool lp burned total = .ok s') :
    s'.world = s.world ∧ s'.records = s.records := by
  simp only [removeLiquidity, bind_eq_ok, pure_eq_ok] at h
  obtain ⟨_, _, _, _, hs⟩ := h
  exact hs ▸ frame_getD_pushIngressAt ..

theorem Spends.records (h : Spends s s') : s'.records = s.records := by
  obtain ⟨_, _, _, rfl, _⟩ := h
  rfl

theorem Scores.registry (h : Scores s s') : s'.registry = s.registry := by
  obtain ⟨_, _, _, _, _, rfl, _⟩ := h
  rfl

theorem Scores.world (h : Scores s s') : s'.world = s.world := by
  obtain ⟨_, _, _, _, _, rfl, _⟩ := h
  rfl

theorem records_submitSnapshot [DecidableEq Acc] [PalletAccounts Acc] [Assets Acc W]
    [CrossChainGadget Acc W] [CrowdSourceLiquidityMining Acc W] [Decimal.Arith] [Percent]
 (h : s.submitSnapshot summary = .ok s') :
    ∃ t, s.updateScores summary.traderMetrics = .ok t ∧ s'.records = t.records := by
  simp only [submitSnapshot, executeWithdrawals, bind_eq_ok, pure_eq_ok] at h
  obtain ⟨t, ht, s₂, h₂, s₃, h₃, s₄, h₄, hs⟩ := h
  have h₂ := (Spends.processEgressMsg h₂).records
  have h₃ : s₃.records = s₂.records := by
    split_ifs at h₃
    · exact Except.ok.inj h₃ ▸ rfl
    · exact (Spends.foldlM .settleWithdrawalFee h₃).records.trans
        (IgnoresPayments.settleWithdrawals (fun _ _ _ _ => rfl) ..)
  exact ⟨t, ht, hs ▸ (frame_pushIngress h₄).2.trans (h₃.trans h₂)⟩

section Epochs

variable [CrowdSourceLiquidityMining Acc W]

theorem records_startNewEpoch (s : State Acc Auth W cfg) (n : ℕ) :
    (s.startNewEpoch n).records = s.records ∨
      ∃ config, (s.startNewEpoch n).records = ⟨s.registry, s.epochs.enter config⟩ := by
  simp only [startNewEpoch]
  cases h : s.expectedLMPConfig with
  | none => exact .inl rfl
  | some config => exact .inr ⟨config, (frame_pushEpoch ..).2⟩

theorem records_onInitialize (s : State Acc Auth W cfg) (n : ℕ) :
    (s.onInitialize n).records = s.records ∨
      ∃ config, (s.onInitialize n).records = ⟨s.registry, s.epochs.enter config⟩ := by
  simp only [onInitialize]
  split_ifs
  · exact records_startNewEpoch s n
  · exact .inl rfl
  · exact records_startNewEpoch s n
  · exact .inl rfl

end Epochs

-- The calls that change the registry concern neither the other pallets nor the epochs.
section Registry

variable [DecidableEq Acc] {main proxy user : Acc}

theorem frame_registerUser (h : s.registerUser main proxy = .ok s') :
    s'.world = s.world ∧ s'.epochs = s.epochs := by
  simp only [registerUser, bind_eq_ok, pure_eq_ok] at h
  obtain ⟨_, _, _, _, _, _, _, _, t, ht, rfl⟩ := h
  have hp := frame_pushIngress ht
  exact ⟨hp.1, congrArg Records.epochs hp.2⟩

theorem frame_addProxyAccount (h : s.addProxyAccount main proxy = .ok s') :
    s'.world = s.world ∧ s'.epochs = s.epochs := by
  simp only [addProxyAccount, bind_eq_ok, pure_eq_ok] at h
  obtain ⟨_, _, _, _, _, _, _, _, t, ht, rfl⟩ := h
  have hp := frame_pushIngress ht
  exact ⟨hp.1, congrArg Records.epochs hp.2⟩

theorem frame_removeProxyAccount (h : s.removeProxyAccount main proxy = .ok s') :
    s'.world = s.world ∧ s'.epochs = s.epochs := by
  simp only [removeProxyAccount, bind_eq_ok, pure_eq_ok] at h
  obtain ⟨_, _, _, _, _, _, _, _, t, ht, rfl⟩ := h
  have hp := frame_pushIngress ht
  exact ⟨hp.1, congrArg Records.epochs hp.2⟩

theorem frame_registerDepositor (h : s.registerDepositor user = .ok s') :
    s'.world = s.world ∧ s'.epochs = s.epochs := by
  simp only [registerDepositor] at h
  split_ifs at h
  · exact frame_registerUser h
  · exact Except.ok.inj h ▸ ⟨rfl, rfl⟩

variable [PalletAccounts Acc] [Assets Acc W] [Decimal.Arith]

theorem records_doDeposit {id amount : ℕ} (h : s.doDeposit id user asset amount = .ok s') :
    ∃ t, s.registerDepositor user = .ok t ∧ s'.records = t.records := by
  simp only [doDeposit, bind_eq_ok, pure_eq_ok] at h
  obtain ⟨_, _, _, _, _, _, _, _, _, _, t₁, h₁, t₂, h₂, _, _, t₃, h₃, hs⟩ := h
  have hr : t₃.records = t₁.records := (frame_pushIngress h₃).2.trans (Spends.transferAsset h₂).records
  exact ⟨t₁, h₁, hs ▸ hr⟩

theorem epochs_doDeposit {id amount : ℕ}
    (h : s.doDeposit id user asset amount = .ok s') : s'.epochs = s.epochs := by
  obtain ⟨t, ht, hr⟩ := records_doDeposit h
  exact (congrArg Records.epochs hr).trans (frame_registerDepositor ht).2

theorem epochs_addLiquidity {lp : Acc} {id : ℕ}
    (h : s.addLiquidity id market pool lp totalShares baseAmount quoteAmount = .ok s') :
    s'.epochs = s.epochs := by
  simp only [addLiquidity, bind_eq_ok] at h
  obtain ⟨_, _, t₁, h₁, _, _, t₂, h₂, h₃⟩ := h
  have hp := congrArg Records.epochs (frame_pushIngress h₃).2
  exact hp.trans ((epochs_doDeposit h₂).trans (epochs_doDeposit h₁))

end Registry

end State

-- The main account that a call can change the registration of. The calls for a pool are made in its
-- name.
def Call.registrant : Call Acc Auth AuthSign → Option Acc
  | .registerMainAccount main _ | .addProxyAccount main _ | .removeProxyAccount main _ => some main
  | .deposit _ user _ _ => some user
  | .addLiquidity _ _ pool _ _ _ _ => some pool
  | _ => none

namespace State

variable [DecidableEq Acc]

-- What an accepted call can do to the records.
inductive RecordStep (s : State Acc Auth W cfg) :
    Call Acc Auth AuthSign → Records Acc → Prop
  | register {c : Call Acc Auth AuthSign} {r : Records Acc} :
    c.registrant.isSome → r.epochs = s.epochs → RecordStep s c r
  | keep {c : Call Acc Auth AuthSign} : RecordStep s c s.records
  | expect {c : Call Acc Auth AuthSign} {config : Option LMPEpochConfig} :
    RecordStep s c ⟨s.registry, { s.epochs with expectedLMPConfig := config }⟩
  | enter {c : Call Acc Auth AuthSign} {config : LMPEpochConfig} :
    RecordStep s c ⟨s.registry, s.epochs.enter config⟩
  | scores {summary : SnapshotSummary Acc} {signatures : List (ℕ × AuthSign)}
      {t : State Acc Auth W cfg} :
    s.updateScores summary.traderMetrics = .ok t →
    RecordStep s (.submitSnapshot summary signatures) t.records

variable {s s' : State Acc Auth W cfg}
  {c : Call Acc Auth AuthSign}

theorem RecordStep.registry (h : s.RecordStep c r) (hc : c.registrant = none) : r.registry = s.registry := by
  cases h with
  | register hsome => simp [hc] at hsome
  | scores h => exact (scores_updateScores h).registry
  | _ => rfl

variable [PalletAccounts Acc] [Assets Acc W] [CrossChainGadget Acc W]
  [CrowdSourceLiquidityMining Acc W] [Percent]
  [Authority Acc Auth AuthSign] [Decimal.Arith]

-- The calls that only make settings, and queue messages about them.
def isSetting : Call Acc Auth AuthSign → Bool
  | .closeTradingPair .. | .openTradingPair .. | .registerTradingPair .. | .updateTradingPair ..
  | .setExchangeState _ | .allowlistToken _ | .removeLiquidity .. | .forceClosePool .. | .setSnapshot _
  | .removeAllowlistedToken _ | .whitelistOrderbookOperator _ | .setFeeDistribution _
  | .forceSubmitSnapshot _ | .newSession .. => true
  | _ => false

theorem frame_of_setting (hc : isSetting c) (h : dispatch s c = .ok s') :
    s'.world = s.world ∧ s'.records = s.records := by
  cases c with
  | closeTradingPair | openTradingPair =>
    simp only [dispatch, closeTradingPair, openTradingPair, setOperationalStatus, bind_eq_ok,
      pure_eq_ok] at h
    obtain ⟨_, _, _, _, _, _, t, ht, hs⟩ := h
    have hp := frame_pushIngress ht
    exact hs ▸ hp
  | registerTradingPair =>
    simp only [dispatch, registerTradingPair, bind_eq_ok, pure_eq_ok] at h
    obtain ⟨_, _, _, _, _, _, _, _, _, _, _, _, _, _, _, _, _, _, _, _, _, _, t, ht, hs⟩ := h
    have hp := frame_pushIngress ht
    exact hs ▸ hp
  | updateTradingPair =>
    simp only [dispatch, updateTradingPair, bind_eq_ok, pure_eq_ok] at h
    obtain ⟨_, _, _, _, _, _, _, _, _, _, _, _, _, _, _, _, _, _, t, ht, hs⟩ := h
    have hp := frame_pushIngress ht
    exact hs ▸ hp
  | setExchangeState =>
    simp only [dispatch, setExchangeState, bind_eq_ok, pure_eq_ok] at h
    obtain ⟨t, ht, hs⟩ := h
    have hp := frame_pushIngress ht
    exact hs ▸ hp
  | allowlistToken =>
    simp only [dispatch, allowlistToken, bind_eq_ok, pure_eq_ok] at h
    obtain ⟨_, _, hs⟩ := h
    exact hs ▸ ⟨rfl, rfl⟩
  | removeLiquidity => exact frame_removeLiquidity h
  | forceClosePool => exact Except.ok.inj h ▸ frame_getD_pushIngressAt ..
  | setSnapshot | removeAllowlistedToken | whitelistOrderbookOperator | setFeeDistribution
  | forceSubmitSnapshot | newSession => exact Except.ok.inj h ▸ ⟨rfl, rfl⟩
  | _ => cases hc

theorem recordStep_of_dispatch (h : dispatch s c = .ok s') : s.RecordStep c s'.records := by
  have keep (hr : s'.records = s.records) : s.RecordStep c s'.records := hr ▸ .keep
  have epoch (hr : s'.records = s.records ∨
      ∃ config, s'.records = ⟨s.registry, s.epochs.enter config⟩) : s.RecordStep c s'.records := by
    rcases hr with hr | ⟨config, hr⟩
    · exact keep hr
    · exact hr ▸ .enter
  cases c with
  | registerMainAccount => exact .register rfl (frame_registerUser h).2
  | addProxyAccount => exact .register rfl (frame_addProxyAccount h).2
  | removeProxyAccount => exact .register rfl (frame_removeProxyAccount h).2
  | deposit => exact .register rfl (epochs_doDeposit h)
  | addLiquidity => exact .register rfl (epochs_addLiquidity h)
  | claimWithdraw => exact keep (IgnoresPayments.claimWithdraw (fun _ _ _ _ => rfl) h)
  | submitSnapshot summary =>
    simp only [dispatch, bind_eq_ok] at h
    obtain ⟨_, _, h⟩ := h
    obtain ⟨t, ht, hr⟩ := records_submitSnapshot h
    exact hr ▸ .scores ht
  | setLmpEpochConfig =>
    simp only [dispatch, setLmpEpochConfig, bind_eq_ok, pure_eq_ok] at h
    obtain ⟨_, _, _, _, _, _, _, _, _, _, hs⟩ := h
    exact hs ▸ .expect
  | startNewEpochLmp => exact epoch (Except.ok.inj h ▸ records_startNewEpoch s s.currentBlockNumber)
  | nextBlock =>
    have hr := records_onInitialize { s with currentBlockNumber := s.currentBlockNumber + 1 }
      (s.currentBlockNumber + 1)
    exact epoch (Except.ok.inj h ▸ hr)
  | _ => exact keep (frame_of_setting rfl h).2

end State

end Ocex
