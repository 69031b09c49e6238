import PolkadexModel.LiquidityMining.Theorems.Removal

open Function List

-- The requests to remove liquidity are forwarded to the engine in the order in which they were made.
namespace LiquidityMining

open Ocex (TradingPair IngressMessages RewardsAccount)
open Ocex.State (Queues)

variable {Acc Auth AuthSign A : Type} [Ord Acc] {cfg : Ocex.Config}

def isRemoval : IngressMessages Acc → Bool
  | .removeLiquidity .. => true
  | _ => false

section Messages

variable [Decimal.Arith] {s s' : Chain Acc Auth A cfg} {market : TradingPair}
  {pool : Acc} {requests : List (Acc × ℕ × ℕ)}

def MessageOf (market : TradingPair) (pool : Acc) (request : Acc × ℕ × ℕ)
    (m : IngressMessages Acc) : Prop :=
  ∃ burned total, Decimal.ofNat? request.2.1 = some burned ∧ Decimal.ofNat? request.2.2 = some total ∧
    m = removalMessage market pool request.1 burned total

theorem removeLiquidity_queues (market : TradingPair) (pool : Acc)
    (hfits : request.2.1 < 2 ^ 96 ∧ request.2.2 < 2 ^ 96)
    (hlen : (s.ingressMessages s.currentBlockNumber).toList.length < cfg.obIngressLimit) :
    ∃ s' m, s.removeLiquidity market pool request.1 request.2.1 request.2.2 = .ok s' ∧
      MessageOf market pool request m ∧ Queues s [m] s' := by
  obtain ⟨burned, hb⟩ := Decimal.exists_ofNat? hfits.1
  obtain ⟨total, ht⟩ := Decimal.exists_ofNat? hfits.2
  have hq := Queues.getD_pushIngressAt_cases (s := s)
    (removalMessage market pool request.1 burned total)
  rw [if_pos hlen] at hq
  refine ⟨_, _, ?_, ⟨burned, total, hb, ht, rfl⟩, hq⟩
  simp only [Ocex.State.removeLiquidity, bind_eq_ok, pure_eq_ok, Ocex.decimalFrom_eq_ok]
  exact ⟨burned, hb, total, ht, rfl⟩

theorem foldlM_removeLiquidity_queues (market : TradingPair) (pool : Acc)
    (hfits : ∀ request ∈ requests, request.2.1 < 2 ^ 96 ∧ request.2.2 < 2 ^ 96)
    (hlen : (s.ingressMessages s.currentBlockNumber).toList.length + requests.length ≤
      cfg.obIngressLimit) :
    ∃ s' ms, requests.foldlM (fun s request =>
        s.removeLiquidity market pool request.1 request.2.1 request.2.2) s = .ok s' ∧
      List.Forall₂ (MessageOf market pool) requests ms ∧ Queues s ms s' := by
  induction requests generalizing s with
  | nil => exact ⟨s, [], rfl, .nil, .refl s⟩
  | cons request requests hi =>
    rw [forall_mem_cons] at hfits
    rw [length_cons] at hlen
    obtain ⟨t, m, ht, hm, hq⟩ := removeLiquidity_queues market pool hfits.1
      (by omega : (s.ingressMessages s.currentBlockNumber).toList.length < cfg.obIngressLimit)
    have hcount : (t.ingressMessages t.currentBlockNumber).toList.length =
        (s.ingressMessages s.currentBlockNumber).toList.length + 1 := by
      simp [hq.currentBlockNumber, hq.ingress]
    obtain ⟨s', ms, hs, hms, hq'⟩ := hi hfits.2 (by omega : (t.ingressMessages _).toList.length + _ ≤ _)
    exact ⟨s', m :: ms, foldlM_cons_eq_ok.mpr ⟨t, ht, hs⟩, .cons hm hms, hq.trans hq'⟩

end Messages

section Runs

variable [DecidableEq Acc] [Ocex.PalletAccounts Acc] [Ocex.Assets Acc A]
  [Ocex.CrossChainGadget Acc A] [RewardsAccount Acc A] [Fungibles Acc A]
  [PoolAccounts Acc] [Ocex.Percent] [Ocex.Authority Acc Auth AuthSign]
  [Decimal.Arith] {s s' : Chain Acc Auth A cfg}
  {c : Call Acc Auth AuthSign} {key : ℕ × Acc}

def added (key : ℕ × Acc) (s : Chain Acc Auth A cfg) :
    Call Acc Auth AuthSign → List (Acc × ℕ × ℕ)
  | .removeLiquidity lp market maker shares =>
    match s.world.pools (market, maker) with
    | some config =>
      if (removeLiquidity s lp market maker shares).toOption.isSome ∧
          (s.world.withdrawingEpoch, config.poolId) = key
      then [(lp, shares, Fungibles.totalIssuance Acc s.world.assets config.shareId)] else []
    | none => []
  | _ => []

def taken (key : ℕ × Acc) (s : Chain Acc Auth A cfg) :
    Call Acc Auth AuthSign → List (Acc × ℕ × ℕ)
  | .initiateWithdrawal maker market epoch numRequests =>
    match s.world.pools (market, maker) with
    | some config =>
      if (initiateWithdrawal s maker market epoch numRequests).toOption.isSome ∧
          (epoch, config.poolId) = key
      then (s.world.withdrawalRequests key).take numRequests else []
    | none => []
  | _ => []

theorem withdrawalRequests_of_dispatch
    (hr : ∀ lp market maker shares, c ≠ .removeLiquidity lp market maker shares)
    (hi : ∀ maker market epoch n, c ≠ .initiateWithdrawal maker market epoch n)
    (h : dispatch s c = .ok s') : s'.world.withdrawalRequests = s.world.withdrawalRequests := by
  have hkept (hk : s.world.Kept (fun _ => True) s'.world) :
      s'.world.withdrawalRequests = s.world.withdrawalRequests :=
    congrArg Records.withdrawalRequests hk.records
  cases c with
  | removeLiquidity lp market maker shares => exact absurd rfl (hr lp market maker shares)
  | initiateWithdrawal maker market epoch n => exact absurd rfl (hi maker market epoch n)
  | ocex call =>
    simp only [dispatch] at h
    split_ifs at h
    exact hkept (kept_ocex (fun _ _ _ _ => trivial) h)
  | registerPool =>
    obtain ⟨_, _, _, _, _, _, _, hrec⟩ := registerPool_spec (M := fun _ => True) h
    exact congrArg Records.withdrawalRequests hrec
  | addLiquidity => exact hkept (kept_addLiquidity h)
  | forceClosePool => exact hkept (kept_forceClosePool h)
  | claimForceClosedPoolFunds => exact hkept (kept_claimForceClosedPoolFunds h)
  | claimRewardsByLp =>
    obtain ⟨u, pool, score, amount, _, _, _, hu, _, hrec, _⟩ :=
      claimRewardsByLp_spec (M := fun _ => True) h
    obtain ⟨_, _, _, _, _, _, _, _, _, _, _, hrec', _⟩ := lpClaim_spec (M := fun _ => True) hu
    rw [hrec'] at hrec
    exact (congrArg Records.withdrawalRequests hrec).trans rfl
  | claimRewardsByMm =>
    obtain ⟨u, pool, amount, _, _, _, hu, _, hrec, _⟩ := claimRewardsByMm_spec (M := fun _ => True) h
    obtain ⟨_, _, _, _, _, _, _, _, _, hrec', _⟩ := mmClaim_spec (M := fun _ => True) hu
    rw [hrec'] at hrec
    exact (congrArg Records.withdrawalRequests hrec).trans rfl
  | submitScoresOfLps =>
    simp only [dispatch, bind_eq_ok] at h
    obtain ⟨_, _, h⟩ := h
    exact (Records.pools_foldlM_storeScores (submitScoresOfLps_spec h).1).2.2

theorem withdrawalRequests_exec
    (hr : ∀ lp market maker shares, c ≠ .removeLiquidity lp market maker shares)
    (hi : ∀ maker market epoch n, c ≠ .initiateWithdrawal maker market epoch n) :
    (Run.exec step s c).world.withdrawalRequests = s.world.withdrawalRequests := by
  cases Run.exec_cases step s c with
  | inl he => exact withdrawalRequests_of_dispatch hr hi (toOption_eq_some.mp he)
  | inr he => rw [he.2]

theorem exec_of_error (h : dispatch s c = .error e) : Run.exec step s c = s :=
  Run.exec_of_none (by simp [step, h, Except.toOption])

theorem requests_exec (key : ℕ × Acc) (s : Chain Acc Auth A cfg)
    (c : Call Acc Auth AuthSign) :
    s.world.withdrawalRequests key ++ added key s c =
      taken key s c ++ (Run.exec step s c).world.withdrawalRequests key := by
  cases c with
  | removeLiquidity lp market maker shares =>
    cases hd : removeLiquidity s lp market maker shares with
    | error e =>
      rw [exec_of_error (by exact hd)]
      cases hc : s.world.pools (market, maker) <;> simp [added, taken, hc, hd, Except.toOption]
    | ok s' =>
      obtain ⟨config, hc, _, _, hrec⟩ := removeLiquidity_spec hd
      have hq : s'.world.withdrawalRequests = update s.world.withdrawalRequests
        (s.world.withdrawingEpoch, config.poolId) _ := congrArg Records.withdrawalRequests hrec
      rw [Run.exec_of_some (toOption_eq_some.mpr hd), hq, update_apply]
      simp only [added, taken, hc, hd, Except.toOption, Option.isSome_some, true_and, nil_append,
        eq_comm (a := key)]
      split_ifs with hkey
      · rw [hkey]
      · exact append_nil _
  | initiateWithdrawal maker market epoch numRequests =>
    cases hd : initiateWithdrawal s maker market epoch numRequests with
    | error e =>
      rw [exec_of_error (by exact hd)]
      cases hc : s.world.pools (market, maker) <;> simp [added, taken, hc, hd, Except.toOption]
    | ok s' =>
      obtain ⟨config, hc, _, hrec⟩ := initiateWithdrawal_spec hd
      have hq : s'.world.withdrawalRequests = update s.world.withdrawalRequests
        (epoch, config.poolId) _ := congrArg Records.withdrawalRequests hrec
      rw [Run.exec_of_some (toOption_eq_some.mpr hd), hq, update_apply]
      simp only [added, taken, hc, hd, Except.toOption, Option.isSome_some, true_and, append_nil,
        eq_comm (a := key)]
      split_ifs with hkey
      · rw [hkey, take_append_drop]
      · rfl
  | _ =>
    rw [withdrawalRequests_exec (by simp) (by simp)]
    exact append_nil _

-- Every request that was in the queue, or was added to it, was taken from it once or is still there.
theorem requests_run (key : ℕ × Acc) (s : Chain Acc Auth A cfg)
    (calls : List (Call Acc Auth AuthSign)) :
    s.world.withdrawalRequests key ++ (Run.trace step s calls).flatMap (fun e => added key e.1 e.2) =
      (Run.trace step s calls).flatMap (fun e => taken key e.1 e.2) ++
        (Run.run step s calls).world.withdrawalRequests key := by
  induction calls generalizing s with
  | nil => simp
  | cons c calls hi =>
    rw [Run.trace_cons, flatMap_cons, flatMap_cons, Run.run_cons, ← append_assoc,
      requests_exec, append_assoc, hi, append_assoc]

-- The messages of the requests that a call takes are stored, and no message of this kind is stored by
-- another call.
def Forwards (s : Chain Acc Auth A cfg) :
    Call Acc Auth AuthSign → Prop
  | .initiateWithdrawal maker market epoch numRequests =>
    ∀ config, s.world.pools (market, maker) = some config →
      ∃ s' ms, initiateWithdrawal s maker market epoch numRequests = .ok s' ∧
        List.Forall₂ (MessageOf market config.poolId)
          ((s.world.withdrawalRequests (epoch, config.poolId)).take numRequests) ms ∧ Queues s ms s'
  | c => ∀ n, ∀ m ∈ ((Run.exec step s c).ingressMessages n).toList, isRemoval m →
      m ∈ (s.ingressMessages n).toList

-- There are as many requests, whose amounts are decimals, and there is space for the messages.
def Forwardable (s : Chain Acc Auth A cfg) :
    Call Acc Auth AuthSign → Prop
  | .initiateWithdrawal maker market epoch numRequests =>
    ∀ config, s.world.pools (market, maker) = some config →
      numRequests ≤ (s.world.withdrawalRequests (epoch, config.poolId)).length ∧
      (∀ request ∈ (s.world.withdrawalRequests (epoch, config.poolId)).take numRequests,
        request.2.1 < 2 ^ 96 ∧ request.2.2 < 2 ^ 96) ∧
      (s.ingressMessages s.currentBlockNumber).toList.length + numRequests ≤ cfg.obIngressLimit
  | _ => True

theorem removals_of_exec (hi : ∀ maker market epoch n, c ≠ .initiateWithdrawal maker market epoch n)
    (n : ℕ) : ∀ m ∈ ((Run.exec step s c).ingressMessages n).toList, isRemoval m →
      m ∈ (s.ingressMessages n).toList := by
  intro m hm hr
  cases Run.exec_cases step s c with
  | inl he =>
    refine (queued_of_dispatch (toOption_eq_some.mp he) n m hm).resolve_right fun hp => ?_
    cases hp with
    | setting h => cases m <;> simp [isRemoval, IngressMessages.isSetting] at hr h
    | deposit | addLiquidity | forceClosePool => cases hr
    | removeLiquidity => exact hi _ _ _ _ rfl
  | inr he => exact he.2 ▸ hm

theorem forwards_iff : Forwards s c ↔ Forwardable s c := by
  cases c with
  | initiateWithdrawal maker market epoch numRequests =>
    refine forall₂_congr fun config hc => ?_
    constructor
    case mp =>
      rintro ⟨s', ms, hd, hms, hq⟩
      have hle : numRequests ≤ (s.world.withdrawalRequests (epoch, config.poolId)).length := by
        simp only [initiateWithdrawal, bind_eq_ok, orElse_eq_ok, hc, Option.some.injEq,
          exists_eq_left'] at hd
        obtain ⟨t, _, hd⟩ := hd
        split_ifs at hd with hlt
        exact not_lt.mp hlt
      have hlen := (s'.ingressMessages s.currentBlockNumber).length_le
      rw [hq.ingress, if_pos rfl, length_append, ← hms.length_eq, length_take,
        min_eq_left hle] at hlen
      refine ⟨hle, fun request hr => ?_, hlen⟩
      obtain ⟨b, t, hb, ht, _⟩ := queuedOrFull_initiateWithdrawal hc hd request hr
      exact ⟨Decimal.lt_of_ofNat? hb, Decimal.lt_of_ofNat? ht⟩
    case mpr =>
      rintro ⟨hle, hfits, hlen⟩
      have hcount : ((s.world.withdrawalRequests (epoch, config.poolId)).take numRequests).length =
          numRequests := length_take_of_le hle
      obtain ⟨t, ms, ht, hms, hq⟩ := foldlM_removeLiquidity_queues market config.poolId hfits
        (hcount.symm ▸ hlen)
      refine ⟨{ t with world := { t.world with
        withdrawalRequests := update t.world.withdrawalRequests (epoch, config.poolId)
          ((s.world.withdrawalRequests (epoch, config.poolId)).drop numRequests) } }, ms, ?_, hms,
        ⟨hq.view, hq.ingress, hq.accounts⟩⟩
      simp only [initiateWithdrawal, bind_eq_ok, orElse_eq_ok, hc, Option.some.injEq,
        exists_eq_left']
      exact ⟨t, ht, if_neg (not_lt.mpr hle)⟩
  | _ => exact iff_of_true (fun n => removals_of_exec (by simp) n) trivial

-- No call of a market maker is refused, the messages of the requests that it takes are stored, and the
-- requests are taken in the order in which they were added, each of them once.
structure ForwardedOnce (s : Chain Acc Auth A cfg)
    (calls : List (Call Acc Auth AuthSign)) : Prop where
  forwards : Run.Along step Forwards s calls
  requests : ∀ key, s.world.withdrawalRequests key ++
      (Run.trace step s calls).flatMap (fun e => added key e.1 e.2) =
    (Run.trace step s calls).flatMap (fun e => taken key e.1 e.2) ++
      (Run.run step s calls).world.withdrawalRequests key

theorem removals_forwarded_iff (s : Chain Acc Auth A cfg)
    (calls : List (Call Acc Auth AuthSign)) :
    ForwardedOnce s calls ↔ Run.Along step Forwardable s calls := by
  have hiff : Run.Along step Forwards s calls ↔ Run.Along step Forwardable s calls :=
    forall₂_congr fun e _ => forwards_iff
  exact ⟨fun h => hiff.mp h.forwards, fun h => ⟨hiff.mpr h, fun key => requests_run key s calls⟩⟩

end Runs

namespace Mock

open Ocex.Mock (Account AuthSig config)

attribute [local instance] Decimal.HalfEven.arith Ocex.Mock.percent

def narrow : Ocex.Config :=
  { config with obIngressLimit := 5 }

def filled : Chain Account ℕ Bank narrow :=
  Run.run step (genesis [7] (bank [2, 3])) (poolCalls 0 ++
    [.ocex (.call (.submitSnapshot issuing [(0, 7, 1, 0)]))] ++
    List.replicate 5 (.ocex (.call (.setExchangeState true))) ++ [burn])

theorem not_forwardedOnce {s : Chain Account ℕ Bank cfg}
    (hpool : (s.world.pools (market, 2)).map MarketMakerConfig.poolId = some 6)
    (h : (s.world.withdrawalRequests (0, 6)).length < n ∨
      cfg.obIngressLimit < (s.ingressMessages s.currentBlockNumber).toList.length + n) :
    ¬ ForwardedOnce s [(.initiateWithdrawal 2 market 0 n : Call Account ℕ AuthSig)] := by
  intro hf
  obtain ⟨poolConfig, hc, hid⟩ := Option.map_eq_some_iff.mp hpool
  obtain ⟨hle, _, hlen⟩ := forwards_iff.mp (Run.Along.cons_iff.mp hf.forwards).1 poolConfig hc
  rw [hid] at hle
  exact h.elim hle.not_gt hlen.not_gt

-- The request is taken from the queue, but there is no message for it. If more requests are asked for
-- than there are, the call is refused.
theorem request_lost :
    filled.world.withdrawalRequests (0, 6) = [(3, 10 ^ 12, 10 ^ 12)] ∧
    (step filled forward).isSome ∧
    (Run.exec step filled forward).world.withdrawalRequests (0, 6) = [] ∧
    ((Run.exec step filled forward).ingressMessages 0).toList.all (fun m => !isRemoval m) ∧
    ¬ ForwardedOnce filled [forward] ∧
    (initiateWithdrawal (Run.exec step issued burn) 2 market 0 2).map (fun _ => ()) =
      .error (.panic "range start index out of range for slice") ∧
    ¬ ForwardedOnce (Run.exec step issued burn)
      [(.initiateWithdrawal 2 market 0 2 : Call Account ℕ AuthSig)] :=
  ⟨by decide +kernel, by decide +kernel, by decide +kernel, by decide +kernel,
    not_forwardedOnce (by decide +kernel) (.inr (by decide +kernel)), by decide +kernel,
    not_forwardedOnce (by decide +kernel) (.inl (by decide +kernel))⟩

end Mock

end LiquidityMining
