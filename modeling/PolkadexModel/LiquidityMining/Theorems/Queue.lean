import PolkadexModel.LiquidityMining.Theorems.Frame
import PolkadexModel.Ocex.Theorems.Queue

-- The messages for the engine that the calls queue.
namespace LiquidityMining

open Ocex (TradingPair IngressMessages RewardsAccount)
open Ocex.State (Advances Queued Queues core)

variable {Acc Auth AuthSign A : Type} [Ord Acc] {cfg : Ocex.Config}

section Rewards

variable [DecidableEq Acc] [RewardsAccount Acc A] [Decimal.Arith]
  {s s' : Chain Acc Auth A cfg} {market : TradingPair} {pool maker lp : Acc}
  {epoch rewards : ℕ}

theorem core_doClaimLmpRewards (h : s.doClaimLmpRewards pool epoch market = .ok (s', rewards)) :
    s'.core = s.core := by
  simp only [Ocex.State.doClaimLmpRewards, bind_eq_ok, pure_eq_ok, Prod.mk.injEq] at h
  obtain ⟨_, _, _, _, _, _, _, _, _, _, _, _, hs, _⟩ := h
  exact hs ▸ rfl

theorem core_poolRewards (h : poolRewards s market pool epoch = .ok (s', rewards)) :
    s'.core = s.core := by
  simp only [poolRewards] at h
  split at h
  · exact (Prod.mk.inj (Except.ok.inj h)).1 ▸ rfl
  · simp only [bind_eq_ok, pure_eq_ok, Prod.mk.injEq] at h
    obtain ⟨_, ht, hs, _⟩ := h
    have hcore := core_doClaimLmpRewards ht
    exact hs ▸ hcore

theorem core_claimRewardsByLp (h : claimRewardsByLp s lp market maker epoch = .ok s') :
    s'.core = s.core := by
  simp only [claimRewardsByLp, lpClaim, bind_eq_ok, pure_eq_ok, onStorage_eq_ok] at h
  obtain ⟨_, ⟨_, _, ⟨u, _⟩, hu, _, _, _, _, _, _, hr⟩, t, ⟨w, _, ht⟩, hs⟩ := h
  have hcore := core_poolRewards hu
  subst hr ht
  exact hs ▸ hcore

theorem core_claimRewardsByMm (h : claimRewardsByMm s maker market epoch = .ok s') :
    s'.core = s.core := by
  simp only [claimRewardsByMm, mmClaim, bind_eq_ok, pure_eq_ok, onStorage_eq_ok] at h
  obtain ⟨_, ⟨_, _, ⟨u, _⟩, hu, _, _, _, _, hr⟩, t, ⟨w, _, ht⟩, hs⟩ := h
  have hcore := core_poolRewards hu
  subst hr ht
  exact hs ▸ hcore

end Rewards

theorem forceClosePool_eq_ok {s s' : Chain Acc Auth A cfg} (h : forceClosePool s market maker = .ok s') :
    (s.world.pools (market, maker)).isSome ∧ s'.world = s.world ∧
    if (s.ingressMessages s.currentBlockNumber).toList.length < cfg.obIngressLimit
    then Queues s [.forceClosePool (.ofPair market.base market.quote) maker] s' else s' = s := by
  simp only [forceClosePool, bind_eq_ok, pure_eq_ok, ensure_eq_ok] at h
  obtain ⟨_, hp, hs⟩ := h
  subst hs
  exact ⟨hp, (Ocex.State.frame_getD_pushIngressAt ..).1, Queues.getD_pushIngressAt_cases _⟩

section Calls

variable [DecidableEq Acc] [Ocex.Assets Acc A] [Ocex.CrossChainGadget Acc A]
  [RewardsAccount Acc A] [Fungibles Acc A] [Decimal.Arith]

-- The messages that a call may queue. A deposit tells the shares that are issued, and a removal is for a
-- request that is stored.
inductive Posts (s : Chain Acc Auth A cfg) :
    Call Acc Auth AuthSign → IngressMessages Acc → Prop
  | setting {c : Call Acc Auth AuthSign} {m : IngressMessages Acc}
      (h : m.isSetting) : Posts s c m
  | deposit {c : Call Acc Auth AuthSign} {id : ℕ} {user : Acc}
      {asset : Ocex.AssetId} {amount : Decimal} : Posts s c (.deposit id user asset amount)
  | addLiquidity {id baseAmount maxQuoteAmount : ℕ} {lp maker : Acc} {market : TradingPair}
      {config : MarketMakerConfig Acc} {a : A} {total base quote : Decimal}
      (hc : s.world.pools (market, maker) = some config)
      (ha : AssetMoves Acc (fun _ => False) s.world.assets a)
      (ht : Ocex.State.divUnit (Fungibles.totalIssuance Acc a config.shareId) = .ok total) :
      Posts s (.addLiquidity id lp market maker baseAmount maxQuoteAmount)
        (.addLiquidity (.ofPair market.base market.quote) config.poolId lp total base quote)
  | removeLiquidity {epoch numRequests : ℕ} {maker : Acc} {market : TradingPair}
      {config : MarketMakerConfig Acc} {request : Acc × ℕ × ℕ} {frac total : Decimal}
      (hc : s.world.pools (market, maker) = some config)
      (hr : request ∈ s.world.withdrawalRequests (epoch, config.poolId)) :
      Posts s (.initiateWithdrawal maker market epoch numRequests)
        (.removeLiquidity (.ofPair market.base market.quote) config.poolId request.1 frac total)
  | forceClosePool {market : TradingPair} {maker : Acc}
      (hp : (s.world.pools (market, maker)).isSome)
      (hlen : (s.ingressMessages s.currentBlockNumber).toList.length < cfg.obIngressLimit) :
      Posts s (.forceClosePool market maker)
        (.forceClosePool (.ofPair market.base market.quote) maker)

variable {s s' : Chain Acc Auth A cfg} {market : TradingPair} {maker lp : Acc}

omit [DecidableEq Acc] in
theorem queued_forceClosePool (h : forceClosePool s market maker = .ok s') :
    Queued (Posts s (.forceClosePool market maker : Call Acc Auth AuthSign)) s s' := by
  obtain ⟨hp, _, hq⟩ := forceClosePool_eq_ok h
  split_ifs at hq with hlen
  · exact .queues hq (List.forall_mem_singleton.mpr (.forceClosePool hp hlen))
  · exact hq ▸ .of_eq rfl

theorem queued_addLiquidity [Ocex.PalletAccounts Acc] {id baseAmount maxQuoteAmount : ℕ}
    (hcall : c = .addLiquidity id lp market maker baseAmount maxQuoteAmount)
    (h : addLiquidity s id lp market maker baseAmount maxQuoteAmount = .ok s') : Queued (Posts s c) s s' := by
  simp only [addLiquidity, bind_eq_ok, orElse_eq_ok, onStorage_eq_ok] at h
  obtain ⟨config, hc, _, _, _, _, _, _, _, _, _, _, _, _, _, _, t, ⟨w₁, h₁, ht⟩, u, ⟨w₂, h₂, hu⟩, total,
    htotal, h⟩ := h
  subst ht hu
  have hm : AssetMoves Acc (fun _ => False) s.world.assets w₂.assets :=
    (Storage.Kept.transferAsset h₁).assets.trans (Storage.Kept.transferAsset h₂).assets
  obtain ⟨base, quote, t, t', _, _, hb, hq, h⟩ := Queues.addLiquidity h
  have h₁ := Queued.doDeposit (fun _ => Posts.setting (s := s) (c := c)) (fun _ => .deposit) hb
  have h₂ := Queued.doDeposit (fun _ => Posts.setting (s := s) (c := c)) (fun _ => .deposit) hq
  have h₃ := Queued.queues h (List.forall_mem_singleton.mpr
    (hcall ▸ Posts.addLiquidity hc hm htotal : Posts s c _))
  exact (h₁.trans h₂).trans h₃

theorem queued_initiateWithdrawal (hcall : c = .initiateWithdrawal maker market epoch numRequests)
    (h : initiateWithdrawal s maker market epoch numRequests = .ok s') : Queued (Posts s c) s s' := by
  simp only [initiateWithdrawal, bind_eq_ok, orElse_eq_ok] at h
  obtain ⟨config, hc, t, ht, h⟩ := h
  have hq : Queued (Posts s c) s t :=
    Except.foldlM_invariant (motive := Queued (Posts s c) s) ht (.of_eq rfl)
      fun request hmem u _ hu h => by
        obtain ⟨_, _, ms, _, _, hms, hq⟩ := Queues.removeLiquidity h
        refine hu.trans (.queues hq fun m hm => ?_)
        rw [List.mem_singleton.mp (hms hm), hcall]
        exact .removeLiquidity hc (List.mem_of_mem_take hmem)
  split_ifs at h
  exact pure_eq_ok.mp h ▸ hq

variable [Ocex.PalletAccounts Acc] [PoolAccounts Acc] [Ocex.Percent]
  [Ocex.Authority Acc Auth AuthSign]
  {c : Call Acc Auth AuthSign}

theorem queued_of_dispatch (h : dispatch s c = .ok s') : Queued (Posts s c) s s' := by
  have hset (m : IngressMessages Acc) (hm : m.isSetting) : Posts s c m := .setting hm
  cases c with
  | ocex call =>
    simp only [dispatch] at h
    split_ifs at h with hint
    cases call with
    | call call =>
      refine .dispatch hset (fun _ _ _ _ => .deposit) (fun hm => ?_) h
      cases call <;> simp_all [isInternal, Ocex.State.movesFunds]
    | claimLmpRewards =>
      obtain ⟨⟨_, total⟩, ht, hs⟩ := Except.map_eq_ok.mp h
      exact hs ▸ .of_eq (congrArg Prod.fst (core_doClaimLmpRewards ht))
  | registerPool =>
    simp only [dispatch, registerPool, bind_eq_ok, pure_eq_ok, onStorage_eq_ok] at h
    obtain ⟨_, _, _, _, _, _, _, _, _, _, _, _, t, ⟨w, _, ht⟩, u, hu, hs⟩ := h
    subst ht hs
    have hq := Queued.queues (Queues.registerUser hu).1 (List.forall_mem_singleton.mpr (hset _ rfl))
    exact hq
  | addLiquidity => exact queued_addLiquidity rfl h
  | forceClosePool => exact queued_forceClosePool h
  | initiateWithdrawal => exact queued_initiateWithdrawal rfl h
  | removeLiquidity =>
    simp only [dispatch, removeLiquidity, bind_eq_ok, pure_eq_ok, onStorage_eq_ok] at h
    obtain ⟨_, _, _, _, _, _, t, ⟨w, _, ht⟩, hs⟩ := h
    subst ht
    exact hs ▸ .of_eq rfl
  | claimForceClosedPoolFunds =>
    simp only [dispatch, claimForceClosedPoolFunds, bind_eq_ok, pure_eq_ok] at h
    obtain ⟨_, _, _, _, _, _, _, _, _, _, _, _, _, _, _, _, _, _, hs⟩ := h
    exact hs ▸ .of_eq rfl
  | claimRewardsByLp => exact .of_eq (congrArg Prod.fst (core_claimRewardsByLp h))
  | claimRewardsByMm => exact .of_eq (congrArg Prod.fst (core_claimRewardsByMm h))
  | submitScoresOfLps =>
    simp only [dispatch, submitScoresOfLps, bind_eq_ok, onStorage_eq_ok] at h
    obtain ⟨_, _, w, _, hs⟩ := h
    exact hs ▸ .of_eq rfl

theorem advances_of_dispatch (h : dispatch s c = .ok s') : Advances s s' := by
  cases c with
  | ocex call =>
    simp only [dispatch] at h
    split_ifs at h
    cases call with
    | call call => exact .dispatch h
    | claimLmpRewards =>
      obtain ⟨⟨_, total⟩, ht, hs⟩ := Except.map_eq_ok.mp h
      exact hs ▸ .of_core (core_doClaimLmpRewards ht)
  | registerPool =>
    simp only [dispatch, registerPool, bind_eq_ok, pure_eq_ok, onStorage_eq_ok] at h
    obtain ⟨_, _, _, _, _, _, _, _, _, _, _, _, t, ⟨w, _, ht⟩, u, hu, hs⟩ := h
    have hw : Advances s t := ht ▸ .of_core rfl
    have hq : Advances t u :=
      .queues (Queues.registerUser hu).1 (List.forall_mem_singleton.mpr (.setting rfl))
    have hu : Advances u s' := hs ▸ .of_core rfl
    exact (hw.trans hq).trans hu
  | addLiquidity =>
    simp only [dispatch, addLiquidity, bind_eq_ok, onStorage_eq_ok] at h
    obtain ⟨_, _, _, _, _, _, _, _, _, _, _, _, _, _, _, _, t, ⟨w₁, _, ht⟩, u, ⟨w₂, _, hu⟩, _, _, h⟩ := h
    have hw : Advances s t := ht ▸ .of_core rfl
    have hw' : Advances t u := hu ▸ .of_core rfl
    obtain ⟨ms, hq, hms⟩ := Ocex.State.sent_of_addLiquidity h
    exact (hw.trans hw').trans (.queues hq hms)
  | forceClosePool =>
    obtain ⟨_, _, hq⟩ := forceClosePool_eq_ok h
    split_ifs at hq
    · exact .queues hq (List.forall_mem_singleton.mpr .forceClosePool)
    · exact hq ▸ .refl s
  | initiateWithdrawal =>
    simp only [dispatch, initiateWithdrawal, bind_eq_ok] at h
    obtain ⟨_, _, t, ht, h⟩ := h
    have ha : Advances s t := Except.foldlM_invariant (motive := Advances s) ht (.refl s)
      fun request _ u _ hu h => by
        obtain ⟨b, total, ms, hb, htotal, hms, hq⟩ := Queues.removeLiquidity h
        exact hu.trans (.queues hq fun m hm =>
          List.mem_singleton.mp (hms hm) ▸ .removeLiquidity hb htotal)
    split_ifs at h
    have hw : Advances t s' := pure_eq_ok.mp h ▸ .of_core rfl
    exact ha.trans hw
  | removeLiquidity =>
    simp only [dispatch, removeLiquidity, bind_eq_ok, pure_eq_ok, onStorage_eq_ok] at h
    obtain ⟨_, _, _, _, _, _, t, ⟨w, _, ht⟩, hs⟩ := h
    subst ht
    exact hs ▸ .of_core rfl
  | claimForceClosedPoolFunds =>
    simp only [dispatch, claimForceClosedPoolFunds, bind_eq_ok, pure_eq_ok] at h
    obtain ⟨_, _, _, _, _, _, _, _, _, _, _, _, _, _, _, _, _, _, hs⟩ := h
    exact hs ▸ .of_core rfl
  | claimRewardsByLp => exact .of_core (core_claimRewardsByLp h)
  | claimRewardsByMm => exact .of_core (core_claimRewardsByMm h)
  | submitScoresOfLps =>
    simp only [dispatch, submitScoresOfLps, bind_eq_ok, onStorage_eq_ok] at h
    obtain ⟨_, _, w, _, hs⟩ := h
    exact hs ▸ .of_core rfl

end Calls

end LiquidityMining
