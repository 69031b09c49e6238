import PolkadexModel.Ocex.Pallet

open Function List

namespace Ocex

variable {Acc Auth AuthSign W : Type} [Ord Acc] {cfg : Config}

def Event.claimed : Event Acc → Option (ℕ × Acc × List (Withdrawal Acc))
  | .withdrawalClaimed id main withdrawals => some (id, main, withdrawals)
  | _ => none

-- The part of the state that the withdrawals are settled with: those that are pending, the number of
-- the last snapshot, and the record of those that were paid.
structure Ledger (Acc : Type) [Ord Acc] where
  withdrawals : ℕ → Option (WithdrawalsMap Acc)
  snapshotNonce : ℕ
  claimed : List (ℕ × Acc × List (Withdrawal Acc))

-- The part of the state that most calls do not change.
structure View (Acc Auth : Type) [Ord Acc] extends Ledger Acc where
  snapshots : ℕ → Option (SnapshotSummary Acc)
  tradingPairs : TradingPair → Option TradingPairConfig
  allowlistedToken : Std.TreeSet AssetId
  authorities : ℕ → List Auth
  validatorSetId : ℕ
  orderbookOperatorPublicKey : Option ℕ
  currentBlockNumber : ℕ

def IngressMessages.isSetting : IngressMessages Acc → Bool
  | .deposit .. | .addLiquidity .. | .removeLiquidity .. | .forceClosePool .. => false
  | _ => true

omit [Ord Acc] in
theorem IngressMessages.settings_of_subset {ms ms' : List (IngressMessages Acc)} (h : ms ⊆ ms')
    (hs : ∀ m ∈ ms', m.isSetting) : ∀ m ∈ ms, m.isSetting :=
  fun m hm => hs m (h hm)

namespace State

def view (s : State Acc Auth W cfg) : View Acc Auth where
  withdrawals := s.withdrawals
  snapshotNonce := s.snapshotNonce
  claimed := s.events.filterMap Event.claimed
  snapshots := s.snapshots
  tradingPairs := s.tradingPairs
  allowlistedToken := s.allowlistedToken
  authorities := s.authorities
  validatorSetId := s.validatorSetId
  orderbookOperatorPublicKey := s.orderbookOperatorPublicKey
  currentBlockNumber := s.currentBlockNumber

def ledger (s : State Acc Auth W cfg) : Ledger Acc :=
  s.view.toLedger

-- Nothing of the view is changed, and messages are only queued in the current block.
structure Frame (s s' : State Acc Auth W cfg) : Prop where
  view : s'.view = s.view
  ingress : ∀ n ≠ s.currentBlockNumber, s'.ingressMessages n = s.ingressMessages n

-- Nothing of the view is changed, and exactly the messages `ms` are queued in the current block. The
-- main accounts stay registered.
structure Queues (s : State Acc Auth W cfg) (ms : List (IngressMessages Acc))
    (s' : State Acc Auth W cfg) : Prop where
  view : s'.view = s.view
  ingress : ∀ n, (s'.ingressMessages n).toList =
    (s.ingressMessages n).toList ++ if n = s.currentBlockNumber then ms else []
  accounts : ∀ account, (s.accounts account).isSome → (s'.accounts account).isSome

end State

theorem ensure_eq_ok [Decidable p] : ensure p e = .ok u ↔ p := by
  simp only [ensure]
  split_ifs with h <;> simp [h]

theorem orElse_eq_ok {α : Type} {a : Option α} {b : α} : orElse e a = .ok b ↔ a = some b := by
  cases a <;> simp [orElse]

namespace State

variable {s s' s'' : State Acc Auth W cfg}

theorem exists_pushIngress_iff (s : State Acc Auth W cfg)
    (message : IngressMessages Acc) : (∃ t, s.pushIngress message = .ok t) ↔
      (s.ingressMessages s.currentBlockNumber).toList.length < cfg.obIngressLimit := by
  simp only [pushIngress, pushIngressAt, orElse_eq_ok, Option.map_eq_some_iff]
  constructor
  · rintro ⟨_, messages, hp, _⟩
    have hlen := messages.length_le
    rw [BoundedVec.tryPush_eq_some.mp hp, length_append] at hlen
    exact hlen
  · intro h
    obtain ⟨messages, hp⟩ := BoundedVec.exists_tryPush message h
    exact ⟨_, messages, hp, rfl⟩

namespace Frame

theorem refl (s : State Acc Auth W cfg) : Frame s s :=
  ⟨rfl, fun _ _ => rfl⟩

theorem currentBlockNumber (h : Frame s s') : s'.currentBlockNumber = s.currentBlockNumber :=
  congrArg View.currentBlockNumber h.view

theorem depositEvent (h : e.claimed = none) (hv : s'.view = s.view)
    (hi : ∀ n ≠ s.currentBlockNumber, s'.ingressMessages n = s.ingressMessages n) :
    Frame s (s'.depositEvent e) := by
  have he : (s'.depositEvent e).view = s'.view := by simp [State.view, State.depositEvent, h]
  exact ⟨he.trans hv, hi⟩

end Frame

namespace Queues

variable {ms ms' : List (IngressMessages Acc)}

theorem currentBlockNumber (h : Queues s ms s') : s'.currentBlockNumber = s.currentBlockNumber :=
  congrArg View.currentBlockNumber h.view

theorem frame (h : Queues s ms s') : Frame s s' :=
  ⟨h.view, fun n hn => BoundedVec.ext (by simp [h.ingress n, hn])⟩

theorem keep (hv : s'.view = s.view) (hi : s'.ingressMessages = s.ingressMessages)
    (ha : s'.accounts = s.accounts) : Queues s [] s' :=
  ⟨hv, fun n => by simp [hi], fun account h => ha ▸ h⟩

theorem refl (s : State Acc Auth W cfg) : Queues s [] s :=
  keep rfl rfl rfl

theorem trans (h : Queues s ms s') (h' : Queues s' ms' s'') : Queues s (ms ++ ms') s'' := by
  refine ⟨h'.view.trans h.view, fun n => ?_, fun account ha => h'.accounts _ (h.accounts _ ha)⟩
  rw [h'.ingress n, h.ingress n, h.currentBlockNumber]
  split_ifs <;> simp

theorem depositEvent (he : e.claimed = none) (h : Queues s ms s') : Queues s ms (s'.depositEvent e) := by
  have hv : (s'.depositEvent e).view = s'.view := by simp [State.view, State.depositEvent, he]
  exact ⟨hv.trans h.view, h.ingress, h.accounts⟩

theorem pushIngressAt
    (h : s.pushIngressAt s.currentBlockNumber message = some s') : Queues s [message] s' := by
  obtain ⟨messages, hp, hs⟩ := Option.map_eq_some_iff.mp h
  subst hs
  refine ⟨rfl, fun n => ?_, fun _ ha => ha⟩
  split_ifs with hn
  · simpa [hn] using BoundedVec.tryPush_eq_some.mp hp
  · simp [hn]

theorem pushIngress (h : s.pushIngress message = .ok s') : Queues s [message] s' :=
  pushIngressAt (orElse_eq_ok.mp h)

theorem getD_pushIngressAt_cases (message : IngressMessages Acc) :
    if (s.ingressMessages s.currentBlockNumber).toList.length < cfg.obIngressLimit
    then Queues s [message] ((s.pushIngressAt s.currentBlockNumber message).getD s)
    else (s.pushIngressAt s.currentBlockNumber message).getD s = s := by
  cases hpush : s.pushIngressAt s.currentBlockNumber message with
  | none =>
    have hn := Option.map_eq_none_iff.mp hpush
    rw [if_neg fun hlen => ?_]
    · rfl
    · obtain ⟨_, hv⟩ := BoundedVec.exists_tryPush _ hlen
      exact absurd (hn.symm.trans hv) (by simp)
  | some t =>
    have hq := Queues.pushIngressAt hpush
    have hlen := (t.ingressMessages s.currentBlockNumber).length_le
    rw [hq.ingress, if_pos rfl, length_append, length_singleton] at hlen
    rw [if_pos (Nat.lt_of_succ_le hlen)]
    exact hq

theorem getD_pushIngressAt (message : IngressMessages Acc) : ∃ ms, ms ⊆ [message] ∧
    Queues s ms ((s.pushIngressAt s.currentBlockNumber message).getD s) := by
  have h := getD_pushIngressAt_cases (s := s) message
  split_ifs at h
  · exact ⟨[message], List.Subset.refl _, h⟩
  · exact ⟨[], nil_subset _, h.symm ▸ .refl s⟩

end Queues

-- What payments change: the storage of the other pallets, the prices, and events that are not about
-- withdrawals.
def Spends (s s' : State Acc Auth W cfg) : Prop :=
  ∃ world prices events, s' = { s with world := world, priceOracle := prices, events := events } ∧
    events.filterMap Event.claimed = s.events.filterMap Event.claimed

namespace Spends

theorem world (s : State Acc Auth W cfg) (world : W) : Spends s { s with world := world } :=
  ⟨world, _, _, rfl, rfl⟩

theorem trans (h : Spends s s') (h' : Spends s' s'') : Spends s s'' := by
  obtain ⟨_, _, _, rfl, he⟩ := h
  obtain ⟨_, _, _, rfl, he'⟩ := h'
  exact ⟨_, _, _, rfl, he'.trans he⟩

theorem queues (h : Spends s s') : Queues s [] s' := by
  obtain ⟨_, _, _, rfl, he⟩ := h
  exact .keep (by simp [State.view, he]) rfl rfl

theorem foldlM {α : Type} {f : State Acc Auth W cfg → α → Except DispatchError _}
    {l : List α} (hf : ∀ {s s' a}, f s a = .ok s' → Spends s s') (h : l.foldlM f s = .ok s') : Spends s s' :=
  Except.foldlM_invariant (motive := Spends s) h (.world s s.world) fun _ _ _ _ ht h => ht.trans (hf h)

variable [Assets Acc W]

theorem transferAsset (h : s.transferAsset payer payee amount asset = .ok s') : Spends s s' := by
  simp only [State.transferAsset, bind_eq_ok, pure_eq_ok] at h
  obtain ⟨w, _, hs⟩ := h
  exact hs ▸ .world s w

variable [PalletAccounts Acc]

theorem burnFees (h : s.burnFees amount = .ok s') : Spends s s' := by
  simp only [State.burnFees, bind_eq_ok, pure_eq_ok] at h
  obtain ⟨w, _, hs⟩ := h
  exact hs ▸ .world s w

theorem payFees [Percent] (h : s.payFees fees asset = .ok s') : Spends s s' := by
  simp only [State.payFees] at h
  split at h
  · exact .transferAsset h
  · split at h
    · simp only [State.distributeFees, bind_eq_ok] at h
      obtain ⟨_, _, t, ht, h⟩ := h
      exact (Spends.burnFees ht).trans (.transferAsset h)
    · exact .burnFees h

variable [Decimal.Arith]

theorem settleWithdrawalFee (h : s.settleWithdrawalFee withdrawal = .ok s') : Spends s s' := by
  simp only [State.settleWithdrawalFee] at h
  cases ha : withdrawal.asset
  all_goals
    simp only [ha, bind_eq_ok, pure_eq_ok] at h
    obtain ⟨w, _, hs⟩ := h
    exact hs ▸ .world s w

variable [CrowdSourceLiquidityMining Acc W]

theorem payPool (h : s.payPool market pool baseFreed quoteFreed = .ok s') : Spends s s' := by
  simp only [State.payPool, bind_eq_ok] at h
  obtain ⟨_, _, _, _, _, _, t, ht, h⟩ := h
  exact (Spends.transferAsset ht).trans (.transferAsset h)

variable [Percent]

theorem processEgress (h : s.processEgress msg = .ok s') : Spends s s' := by
  cases msg with
  | tradingFees fees =>
    refine .foldlM (fun {s s' entry} h => ?_) h
    simp only [State.processTradingFees, bind_eq_ok, pure_eq_ok] at h
    obtain ⟨_, _, t, ht, hs⟩ := h
    exact hs ▸ (Spends.payFees ht).trans ⟨t.world, t.priceOracle, _, rfl, by simp [Event.claimed]⟩
  | priceOracle prices => exact Except.ok.inj h ▸ ⟨s.world, _, _, rfl, rfl⟩
  | addLiquidityResult | removeLiquidityFailed =>
    simp only [State.processEgress, bind_eq_ok, pure_eq_ok] at h
    obtain ⟨w, _, hs⟩ := h
    exact hs ▸ .world s w
  | removeLiquidityResult | poolForceClosed =>
    simp only [State.processEgress, bind_eq_ok, pure_eq_ok] at h
    obtain ⟨t, ht, w, _, hs⟩ := h
    exact hs ▸ (Spends.payPool ht).trans (.world t w)

theorem processEgressMsg (h : s.processEgressMsg msgs = .ok s') : Spends s s' := by
  simp only [State.processEgressMsg, bind_eq_ok] at h
  obtain ⟨_, _, h⟩ := h
  exact .foldlM .processEgress h

end Spends

namespace Queues

section Registry

variable [DecidableEq Acc] {main proxy : Acc}

omit [Ord Acc] in
theorem isSome_update {f : Acc → Option (AccountInfo Acc)} (h : (f account).isSome) :
    (update f main (some info) account).isSome := by
  by_cases ha : account = main <;> simp [ha, h]

theorem registerUser (h : s.registerUser main proxy = .ok s') :
    Queues s [.registerUser main proxy] s' ∧ (s'.accounts main).isSome := by
  simp only [State.registerUser, bind_eq_ok, pure_eq_ok] at h
  obtain ⟨_, _, _, _, _, _, _, _, t, ht, hs⟩ := h
  have hp := Queues.pushIngress ht
  subst hs
  exact ⟨.depositEvent rfl ⟨hp.view, hp.ingress, fun account ha => hp.accounts account (isSome_update ha)⟩,
    hp.accounts main (by simp)⟩

theorem addProxyAccount (h : s.addProxyAccount main proxy = .ok s') :
    Queues s [.addProxy main proxy] s' := by
  simp only [State.addProxyAccount, bind_eq_ok, pure_eq_ok] at h
  obtain ⟨_, _, _, _, _, _, _, _, t, ht, hs⟩ := h
  have hp := Queues.pushIngress ht
  exact hs ▸ .depositEvent rfl
    ⟨hp.view, hp.ingress, fun account ha => isSome_update (hp.accounts account ha)⟩

theorem removeProxyAccount (h : s.removeProxyAccount main proxy = .ok s') :
    Queues s [.removeProxy main proxy] s' := by
  simp only [State.removeProxyAccount, bind_eq_ok, pure_eq_ok] at h
  obtain ⟨_, _, _, _, _, _, _, _, t, ht, hs⟩ := h
  have hp := Queues.pushIngress ht
  exact hs ▸ .depositEvent rfl
    ⟨hp.view, hp.ingress, fun account ha => isSome_update (hp.accounts account ha)⟩

end Registry

theorem setExchangeState (h : s.setExchangeState state = .ok s') : Queues s [.setExchangeState state] s' := by
  simp only [State.setExchangeState, bind_eq_ok, pure_eq_ok] at h
  obtain ⟨t, ht, hs⟩ := h
  have hp := Queues.pushIngress ht
  exact hs ▸ .depositEvent rfl ⟨hp.view, hp.ingress, hp.accounts⟩

theorem setLmpEpochConfig [Decimal.Arith] {lmpConfig : List LMPMarketConfigWrapper}
    (h : s.setLmpEpochConfig miningRewards tradingRewards lmpConfig maxAccounts safetyPeriod = .ok s') :
    Queues s [] s' := by
  simp only [State.setLmpEpochConfig, bind_eq_ok, pure_eq_ok] at h
  obtain ⟨_, _, _, _, _, _, _, _, _, _, hs⟩ := h
  exact hs ▸ .keep rfl rfl rfl

section Transfers

variable [DecidableEq Acc]

theorem registerDepositor (h : s.registerDepositor user = .ok s') :
    ∃ ms, ms ⊆ [.registerUser user user] ∧ Queues s ms s' ∧ (s'.accounts user).isSome := by
  simp only [State.registerDepositor] at h
  split_ifs at h with hn
  · exact ⟨_, List.Subset.refl _, Queues.registerUser h⟩
  · have hs : (s.accounts user).isSome := by simpa [Option.isSome_iff_ne_none] using hn
    exact Except.ok.inj h ▸ ⟨[], nil_subset _, .refl s, hs⟩

variable [PalletAccounts Acc] [Assets Acc W] [Decimal.Arith]

theorem doDeposit {id amount : ℕ} (h : s.doDeposit id user asset amount = .ok s') :
    cfg.minimumDeposit ≤ amount ∧ amount ≤ depositMax ∧ ∃ converted ms,
      inUnits .failedToConvertDecimaltoBalance amount = .ok converted ∧
      ms ⊆ [.registerUser user user] ∧ Queues s (ms ++ [.deposit id user asset converted]) s' ∧
      (s'.accounts user).isSome := by
  simp only [State.doDeposit, bind_eq_ok, pure_eq_ok, ensure_eq_ok] at h
  obtain ⟨_, _, _, _, _, hmax, _, hmin, converted, hc, t₁, h₁, t₂, h₂, _, _, t₃, h₃, hs⟩ := h
  obtain ⟨ms, hms, hr, hu⟩ := Queues.registerDepositor h₁
  have hp := Queues.pushIngress h₃
  have h₃ : Queues t₂ _ t₃ := ⟨hp.view, hp.ingress, hp.accounts⟩
  have h₂ := (Spends.transferAsset h₂).queues.trans h₃
  subst hs
  exact ⟨hmin, hmax, converted, ms, hc, hms, .depositEvent rfl (hr.trans h₂), h₂.accounts user hu⟩

theorem addLiquidity {lp : Acc} {id : ℕ}
    (h : s.addLiquidity id market pool lp totalShares baseAmount quoteAmount = .ok s') :
    ∃ base quote t t', inPlanck baseAmount = .ok base ∧ inPlanck quoteAmount = .ok quote ∧
      s.doDeposit id pool market.base base = .ok t ∧ t.doDeposit id pool market.quote quote = .ok t' ∧
      Queues t' [.addLiquidity (.ofPair market.base market.quote) pool lp totalShares baseAmount
        quoteAmount] s' := by
  simp only [State.addLiquidity, bind_eq_ok] at h
  obtain ⟨base, hb, t, h₁, quote, hq, t', h₂, h₃⟩ := h
  exact ⟨base, quote, t, t', hb, hq, h₁, h₂, .pushIngress h₃⟩

omit [DecidableEq Acc] [PalletAccounts Acc] [Assets Acc W] in
theorem removeLiquidity {lp : Acc} (h : s.removeLiquidity market pool lp burned total = .ok s') : ∃ b t ms,
      decimalFrom burned = .ok b ∧ decimalFrom total = .ok t ∧ ms ⊆ [.removeLiquidity
        (.ofPair market.base market.quote) pool lp ((Decimal.Arith.checkedDiv b t).getD 0) t] ∧
      Queues s ms s' := by
  simp only [State.removeLiquidity, bind_eq_ok, pure_eq_ok] at h
  obtain ⟨b, hb, t, ht, hs⟩ := h
  obtain ⟨ms, hms, hq⟩ := Queues.getD_pushIngressAt (s := s) (.removeLiquidity
    (.ofPair market.base market.quote) pool lp ((Decimal.Arith.checkedDiv b t).getD 0) t)
  exact ⟨b, t, ms, hb, ht, hms, hs ▸ hq⟩

end Transfers

section Session

theorem pushEpoch (epoch : ℕ) (config : LMPEpochConfig) :
    ∃ ms, ms ⊆ [.newLMPEpoch epoch, .lmpConfig config] ∧
      Queues s ms (s.pushEpoch s.currentBlockNumber epoch config) := by
  simp only [State.pushEpoch]
  cases h : s.pushIngressAt s.currentBlockNumber (.newLMPEpoch epoch) with
  | none => exact ⟨[], nil_subset _, .refl s⟩
  | some t =>
    have ht := Queues.pushIngressAt h
    simp only [Option.bind_some]
    cases h' : t.pushIngressAt s.currentBlockNumber (.lmpConfig config) with
    | none => exact ⟨[], nil_subset _, .refl s⟩
    | some s' =>
      exact ⟨_, List.Subset.refl _, ht.trans (.pushIngressAt (ht.currentBlockNumber ▸ h'))⟩

variable [CrowdSourceLiquidityMining Acc W]

theorem startNewEpoch (s : State Acc Auth W cfg) :
    ∃ epoch config ms, ms ⊆ [.newLMPEpoch epoch, .lmpConfig config] ∧
      Queues s ms (s.startNewEpoch s.currentBlockNumber) := by
  simp only [State.startNewEpoch]
  cases s.expectedLMPConfig with
  | none => exact ⟨0, default, [], nil_subset _, .refl s⟩
  | some config =>
    obtain ⟨ms, hms, h⟩ := Queues.pushEpoch (s := s.enterEpoch config) (s.enterEpoch config).lmpEpoch
      config
    exact ⟨_, config, ms, hms, ⟨h.view, h.ingress, h.accounts⟩⟩

theorem onInitialize (s : State Acc Auth W cfg) :
    ∃ epoch config ms, ms ⊆ [.newLMPEpoch epoch, .lmpConfig config] ∧
      Queues s ms (s.onInitialize s.currentBlockNumber) := by
  obtain ⟨epoch, config, ms, hms, h⟩ := Queues.startNewEpoch s
  simp only [State.onInitialize]
  split_ifs
  · exact ⟨epoch, config, ms, hms, ⟨h.view, h.ingress, h.accounts⟩⟩
  · exact ⟨0, default, [], nil_subset _, .keep rfl rfl rfl⟩
  · exact ⟨epoch, config, ms, hms, h⟩
  · exact ⟨0, default, [], nil_subset _, .refl s⟩

end Session

end Queues

section Scores

variable [DecidableEq Acc]

-- What the scores of a snapshot change.
def Scores (s s' : State Acc Auth W cfg) : Prop :=
  ∃ traderMetrics totalScores finalize claimBlk events, s' = { s with
    traderMetrics := traderMetrics
    totalScores := totalScores
    finalizeLMPScore := finalize
    lmpClaimBlk := claimBlk
    events := events } ∧ events.filterMap Event.claimed = s.events.filterMap Event.claimed

omit [DecidableEq Acc] in
theorem Scores.queues (h : Scores s s') : Queues s [] s' := by
  obtain ⟨_, _, _, _, _, rfl, he⟩ := h
  exact .keep (by simp [State.view, he]) rfl rfl

theorem scores_storeMarket (epoch : ℕ) (acc : State Acc Auth W cfg × ℕ)
    (l : List (TradingPair × Std.TreeMap Acc (Decimal × Decimal) × (Decimal × Decimal))) :
    ∃ metrics scores, (l.foldl (storeMarket epoch) acc).1 =
      { acc.1 with traderMetrics := metrics, totalScores := scores } := by
  induction l generalizing acc with
  | nil => exact ⟨_, _, rfl⟩
  | cons market l hi => exact hi (storeMarket epoch acc market)

theorem scores_updateScores (h : s.updateScores metrics = .ok s') : Scores s s' := by
  have keep : Scores s s := ⟨_, _, _, _, _, rfl, rfl⟩
  cases metrics with
  | none => exact Except.ok.inj h ▸ keep
  | some metrics =>
    simp only [updateScores, updateLmpScores] at h
    split at h
    case h_1 => exact Except.ok.inj h ▸ keep
    case h_2 epoch _ =>
      simp only [bind_eq_ok, pure_eq_ok] at h
      obtain ⟨config, _, hs⟩ := h
      obtain ⟨_, _, ht⟩ := scores_storeMarket epoch (s, config.maxAccountsRewarded) metrics.toList
      rw [ht] at hs
      exact ⟨_, _, _, _, _, hs.symm, by simp [Event.claimed]⟩

end Scores

-- A part of the state which the payments of withdrawals do not write to.
def IgnoresPayments {α : Type} (f : State Acc Auth W cfg → α) : Prop :=
  ∀ s world withdrawals events,
    f { s with world := world, withdrawals := withdrawals, events := events } = f s

namespace IgnoresPayments

variable {α : Type} {f : State Acc Auth W cfg → α}

theorem depositClaimed (hf : IgnoresPayments f) (s : State Acc Auth W cfg) (id : ℕ)
    (main : Acc) (processed : List (Withdrawal Acc)) :
    f (s.depositClaimed id main processed) = f s := by
  simp only [State.depositClaimed]
  split_ifs
  · rfl
  · exact hf ..

variable [PalletAccounts Acc] [Assets Acc W] [CrossChainGadget Acc W]
  [Decimal.Arith]

theorem doWithdraw (hf : IgnoresPayments f) (s : State Acc Auth W cfg) (id : ℕ)
    (withdrawals : List (Withdrawal Acc)) : f (s.doWithdraw id withdrawals).1 = f s := by
  have h (acc : State Acc Auth W cfg × List (Withdrawal Acc) ×
      List (Withdrawal Acc)) withdrawal : f (tryWithdrawal id acc withdrawal).1 = f acc.1 := by
    simp only [tryWithdrawal]
    split <;> exact hf ..
  exact Run.foldl_frame (fun acc => f acc.1) h (s, [], []) withdrawals.reverse

theorem settleWithdrawals (hf : IgnoresPayments f) (s : State Acc Auth W cfg) (id : ℕ)
    (withdrawals : List (Withdrawal Acc)) : f (s.settleWithdrawals id withdrawals) = f s := by
  have h (acc : State Acc Auth W cfg × WithdrawalsMap Acc) entry :
      f (settleAccount id acc entry).1 = f acc.1 :=
    (hf.depositClaimed ..).trans (hf.doWithdraw acc.1 id entry.2)
  have hs := Run.foldl_frame (fun acc => f acc.1) h (s, ∅) (createWithdrawalTree withdrawals).toList
  simp only [State.settleWithdrawals]
  split_ifs
  · exact hs
  · exact (hf ..).trans hs

theorem claimWithdraw (hf : IgnoresPayments f) {id : ℕ}
    (h : s.claimWithdraw id account = .ok s') : f s' = f s := by
  simp only [State.claimWithdraw, bind_eq_ok, pure_eq_ok] at h
  obtain ⟨_, _, withdrawals, _, hs⟩ := h
  rw [← hs]
  exact (hf ..).trans ((hf.depositClaimed ..).trans (hf.doWithdraw s id withdrawals))

end IgnoresPayments

-- How the messages in the queues of the chain come about. The amounts of an added liquidity are those
-- of its two deposits, and a depositor is registered.
inductive Sent [Decimal.Arith] (s : State Acc Auth W cfg) :
    IngressMessages Acc → Prop
  | deposit {id amount : ℕ} {user : Acc} {asset : AssetId} {converted : Decimal} :
    cfg.minimumDeposit ≤ amount → inUnits .failedToConvertDecimaltoBalance amount = .ok converted →
    (s.accounts user).isSome → Sent s (.deposit id user asset converted)
  | addLiquidity {base quote : ℕ} {market : TradingPair} {pool lp : Acc}
      {totalShares baseAmount quoteAmount : Decimal} :
    cfg.minimumDeposit ≤ base → inPlanck baseAmount = .ok base →
    cfg.minimumDeposit ≤ quote → inPlanck quoteAmount = .ok quote → (s.accounts pool).isSome →
    Sent s (.addLiquidity (.ofPair market.base market.quote) pool lp totalShares baseAmount
      quoteAmount)
  | removeLiquidity {burned total : ℕ} {market : TradingPair} {pool lp : Acc} {b t : Decimal} :
    decimalFrom burned = .ok b → decimalFrom total = .ok t →
    Sent s (.removeLiquidity (.ofPair market.base market.quote) pool lp
      ((Decimal.Arith.checkedDiv b t).getD 0) t)
  | forceClosePool {market : TradingPair} {pool : Acc} :
    Sent s (.forceClosePool (.ofPair market.base market.quote) pool)
  | setting {message : IngressMessages Acc} : message.isSetting → Sent s message

theorem Sent.mono [Decimal.Arith]
    (ha : ∀ account, (s.accounts account).isSome → (s'.accounts account).isSome) :
    Sent s message → Sent s' message 
  | deposit hm hc hu => .deposit hm hc (ha _ hu)
  | addLiquidity hm hb hm' hq hp => .addLiquidity hm hb hm' hq (ha _ hp)
  | removeLiquidity hb ht => .removeLiquidity hb ht
  | forceClosePool => .forceClosePool
  | setting h => .setting h

section Dispatch

def setPair (s : State Acc Auth W cfg) (base quote : AssetId)
    (config : TradingPairConfig) : State Acc Auth W cfg :=
  { s with tradingPairs := update s.tradingPairs ⟨base, quote⟩ (some config) }

-- The settings that a call makes. The state `t` differs from `s` only in them.
def Sets (s : State Acc Auth W cfg) (t : State Acc Auth W cfg) :
    Call Acc Auth AuthSign → Prop
  | .closeTradingPair base quote => ∃ config, s.tradingPairs ⟨base, quote⟩ = some config ∧
      t = s.setPair base quote { config with operationalStatus := false }
  | .openTradingPair base quote => ∃ config, s.tradingPairs ⟨base, quote⟩ = some config ∧
      t = s.setPair base quote { config with operationalStatus := true }
  | .registerTradingPair base quote _ _ _ _ => s.tradingPairs ⟨base, quote⟩ = none ∧
      ∃ config, t = s.setPair base quote config
  | .updateTradingPair base quote _ _ _ _ => ∃ config, t = s.setPair base quote config
  | .allowlistToken token => t = { s with allowlistedToken := s.allowlistedToken.insert token }
  | .removeAllowlistedToken token => t = { s with allowlistedToken := s.allowlistedToken.erase token }
  | .setSnapshot id => t = { s with snapshotNonce := id }
  | .forceSubmitSnapshot summary => t = { s with
      snapshotNonce := summary.snapshotId
      snapshots := update s.snapshots summary.snapshotId (some summary) }
  | .whitelistOrderbookOperator key => t = { s with orderbookOperatorPublicKey := some key }
  | .newSession authorities queued => t = s.onNewSession authorities queued
  | .nextBlock => t = { s with currentBlockNumber := s.currentBlockNumber + 1 }
  | .claimWithdraw .. | .submitSnapshot .. => False
  | _ => t = s

section Sets

variable {t : State Acc Auth W cfg}
  {c : Call Acc Auth AuthSign}

theorem Sets.currentBlockNumber_le (h : s.Sets t c) : s.currentBlockNumber ≤ t.currentBlockNumber := by
  cases c with
  | closeTradingPair | openTradingPair | registerTradingPair =>
    obtain ⟨_, _, ht⟩ := h
    exact ht ▸ le_rfl
  | updateTradingPair =>
    obtain ⟨_, ht⟩ := h
    exact ht ▸ le_rfl
  | claimWithdraw | submitSnapshot => exact h.elim
  | nextBlock =>
    have hb := congrArg State.currentBlockNumber h
    exact hb ▸ Nat.le_succ _
  | _ => exact (congrArg State.currentBlockNumber h).ge

theorem Sets.history (h : s.Sets t c) (hset : ∀ id, c ≠ .setSnapshot id)
    (hforce : ∀ summary, c ≠ .forceSubmitSnapshot summary) :
    t.ledger = s.ledger ∧ t.snapshots = s.snapshots := by
  cases c with
  | closeTradingPair | openTradingPair | registerTradingPair =>
    obtain ⟨_, _, ht⟩ := h
    exact ht ▸ ⟨rfl, rfl⟩
  | updateTradingPair =>
    obtain ⟨_, ht⟩ := h
    exact ht ▸ ⟨rfl, rfl⟩
  | claimWithdraw | submitSnapshot => exact h.elim
  | setSnapshot id => exact absurd rfl (hset id)
  | forceSubmitSnapshot summary => exact absurd rfl (hforce summary)
  | _ => exact ⟨(congrArg ledger h).trans rfl, (congrArg snapshots h).trans rfl⟩

end Sets

theorem queues_setOperationalStatus (he : ∀ config, (event config).claimed = none)
    (h : s.setOperationalStatus base quote status message event = .ok s') : ∃ config,
      s.tradingPairs ⟨base, quote⟩ = some config ∧
      Queues (s.setPair base quote { config with operationalStatus := status })
        [message { config with operationalStatus := status }] s' := by
  simp only [setOperationalStatus, bind_eq_ok, pure_eq_ok, orElse_eq_ok] at h
  obtain ⟨_, _, _, _, config, hc, t, ht, hs⟩ := h
  have hp := Queues.pushIngress ht
  exact ⟨config, hc, hs ▸ .depositEvent (he _) ⟨hp.view, hp.ingress, hp.accounts⟩⟩

variable [DecidableEq Acc] [PalletAccounts Acc] [Assets Acc W] [Decimal.Arith]

theorem sent_of_doDeposit {id amount : ℕ} (h : s.doDeposit id user asset amount = .ok s') :
    ∃ ms, Queues s ms s' ∧ ∀ m ∈ ms, Sent s' m := by
  obtain ⟨hmin, _, converted, ms, hc, hms, hq, hu⟩ := Queues.doDeposit h
  refine ⟨_, hq, fun m hm => ?_⟩
  cases mem_append.mp hm with
  | inl hm => exact .setting (IngressMessages.settings_of_subset hms (by simp [IngressMessages.isSetting]) m hm)
  | inr hm => exact mem_singleton.mp hm ▸ .deposit hmin hc hu

theorem sent_of_addLiquidity {lp : Acc} {id : ℕ}
    (h : s.addLiquidity id market pool lp totalShares baseAmount quoteAmount = .ok s') :
    ∃ ms, Queues s ms s' ∧ ∀ m ∈ ms, Sent s' m := by
  obtain ⟨base, quote, t, t', hb, hq, h₁, h₂, h₃⟩ := Queues.addLiquidity h
  obtain ⟨ms₁, hq₁, hs₁⟩ := sent_of_doDeposit h₁
  obtain ⟨ms₂, hq₂, hs₂⟩ := sent_of_doDeposit h₂
  obtain ⟨hmin₁, _⟩ := Queues.doDeposit h₁
  obtain ⟨hmin₂, _, _, _, _, _, _, hp⟩ := Queues.doDeposit h₂
  refine ⟨_, (hq₁.trans hq₂).trans h₃, fun m hm => ?_⟩
  simp only [mem_append, mem_singleton, or_assoc] at hm
  match hm with
  | .inl hm => exact (hs₁ m hm).mono (hq₂.trans h₃).accounts
  | .inr (.inl hm) => exact (hs₂ m hm).mono h₃.accounts
  | .inr (.inr hm) => exact hm ▸ .addLiquidity hmin₁ hb hmin₂ hq (h₃.accounts pool hp)

def movesFunds : Call Acc Auth AuthSign → Bool
  | .deposit .. | .addLiquidity .. | .removeLiquidity .. | .forceClosePool .. => true
  | _ => false

variable [CrossChainGadget Acc W] [CrowdSourceLiquidityMining Acc W] [Percent]
  [Authority Acc Auth AuthSign]

-- Every other call that does not settle withdrawals makes its settings, queues messages about them, and
-- changes what is outside of the view.
theorem settings_of_dispatch {c : Call Acc Auth AuthSign}
    (hc : ∀ id account, c ≠ .claimWithdraw id account)
    (hc' : ∀ summary signatures, c ≠ .submitSnapshot summary signatures)
    (hm : movesFunds c = false) (h : dispatch s c = .ok s') :
    ∃ t, s.Sets t c ∧ ∃ ms, Queues t ms s' ∧ ∀ m ∈ ms, m.isSetting := by
  cases c with
  | claimWithdraw id account => exact absurd rfl (hc id account)
  | submitSnapshot summary signatures => exact absurd rfl (hc' summary signatures)
  | deposit | addLiquidity | removeLiquidity | forceClosePool => cases hm
  | startNewEpochLmp =>
    obtain ⟨_, _, ms, hms, hq⟩ := Queues.startNewEpoch s
    exact ⟨s, rfl, ms, Except.ok.inj h ▸ hq, IngressMessages.settings_of_subset hms (by simp [IngressMessages.isSetting])⟩
  | nextBlock =>
    obtain ⟨_, _, ms, hms, hq⟩ := Queues.onInitialize
      { s with currentBlockNumber := s.currentBlockNumber + 1 }
    exact ⟨_, rfl, ms, Except.ok.inj h ▸ hq, IngressMessages.settings_of_subset hms (by simp [IngressMessages.isSetting])⟩
  | registerMainAccount => exact ⟨s, rfl, _, (Queues.registerUser h).1, forall_mem_singleton.mpr rfl⟩
  | addProxyAccount => exact ⟨s, rfl, _, .addProxyAccount h, forall_mem_singleton.mpr rfl⟩
  | removeProxyAccount => exact ⟨s, rfl, _, .removeProxyAccount h, forall_mem_singleton.mpr rfl⟩
  | setExchangeState => exact ⟨s, rfl, _, .setExchangeState h, forall_mem_singleton.mpr rfl⟩
  | setLmpEpochConfig => exact ⟨s, rfl, _, .setLmpEpochConfig h, by simp⟩
  | setFeeDistribution => exact ⟨s, rfl, [], Except.ok.inj h ▸ .keep rfl rfl rfl, by simp⟩
  | setSnapshot | newSession => exact ⟨_, rfl, [], Except.ok.inj h ▸ .refl _, by simp⟩
  | forceSubmitSnapshot | whitelistOrderbookOperator | removeAllowlistedToken =>
    exact ⟨_, rfl, [], Except.ok.inj h ▸ .depositEvent rfl (.keep rfl rfl rfl), by simp⟩
  | allowlistToken token =>
    simp only [dispatch, allowlistToken, bind_eq_ok, pure_eq_ok] at h
    obtain ⟨_, _, hs⟩ := h
    exact ⟨_, rfl, [], hs ▸ .depositEvent rfl (.keep rfl rfl rfl), by simp⟩
  | closeTradingPair | openTradingPair =>
    obtain ⟨config, hc, hq⟩ := queues_setOperationalStatus (fun _ => rfl) h
    exact ⟨_, ⟨config, hc, rfl⟩, _, hq, forall_mem_singleton.mpr rfl⟩
  | registerTradingPair base quote =>
    simp only [dispatch, registerTradingPair, bind_eq_ok, pure_eq_ok, ensure_eq_ok] at h
    obtain ⟨_, _, _, _, _, hn, _, _, _, _, _, _, _, _, _, _, _, _, _, _, _, _, t, ht, hs⟩ := h
    have hp := Queues.pushIngress ht
    exact ⟨s.setPair base quote _, ⟨hn, _, rfl⟩, _,
      hs ▸ Queues.depositEvent rfl ⟨hp.view, hp.ingress, hp.accounts⟩,
      forall_mem_singleton.mpr rfl⟩
  | updateTradingPair base quote =>
    simp only [dispatch, updateTradingPair, bind_eq_ok, pure_eq_ok] at h
    obtain ⟨_, _, _, _, _, _, _, _, _, _, _, _, _, _, _, _, _, _, t, ht, hs⟩ := h
    have hp := Queues.pushIngress ht
    exact ⟨s.setPair base quote _, ⟨_, rfl⟩, _,
      hs ▸ Queues.depositEvent rfl ⟨hp.view, hp.ingress, hp.accounts⟩,
      forall_mem_singleton.mpr rfl⟩

theorem queues_of_dispatch {c : Call Acc Auth AuthSign}
    (hc : ∀ id account, c ≠ .claimWithdraw id account)
    (hc' : ∀ summary signatures, c ≠ .submitSnapshot summary signatures)
    (h : dispatch s c = .ok s') :
    ∃ t, s.Sets t c ∧ ∃ ms, Queues t ms s' ∧ ∀ m ∈ ms, Sent s' m := by
  cases c with
  | deposit => exact ⟨s, rfl, sent_of_doDeposit h⟩
  | addLiquidity => exact ⟨s, rfl, sent_of_addLiquidity h⟩
  | removeLiquidity =>
    obtain ⟨b, t, ms, hb, ht, hms, hq⟩ := Queues.removeLiquidity h
    exact ⟨s, rfl, ms, hq, fun m hm => mem_singleton.mp (hms hm) ▸ .removeLiquidity hb ht⟩
  | forceClosePool market pool =>
    obtain ⟨ms, hms, hq⟩ := Queues.getD_pushIngressAt (s := s)
      (.forceClosePool (.ofPair market.base market.quote) pool)
    exact ⟨s, rfl, ms, Except.ok.inj h ▸ hq,
      fun m hm => mem_singleton.mp (hms hm) ▸ .forceClosePool⟩
  | _ =>
    obtain ⟨t, ht, ms, hq, hms⟩ := settings_of_dispatch hc hc' rfl h
    exact ⟨t, ht, ms, hq, fun m hm => .setting (hms m hm)⟩

theorem sets_of_dispatch {c : Call Acc Auth AuthSign}
    (hc : ∀ id account, c ≠ .claimWithdraw id account)
    (hc' : ∀ summary signatures, c ≠ .submitSnapshot summary signatures)
    (h : dispatch s c = .ok s') : ∃ t, s.Sets t c ∧ Frame t s' := by
  obtain ⟨t, ht, _, hq, _⟩ := queues_of_dispatch hc hc' h
  exact ⟨t, ht, hq.frame⟩

end Dispatch

end State

end Ocex
