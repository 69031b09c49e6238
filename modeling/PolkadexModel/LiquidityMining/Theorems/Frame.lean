import PolkadexModel.LiquidityMining.Pallet
import PolkadexModel.Ocex.Theorems.World

open Function

-- What the calls do to the storage of the pallet and to the currencies.
namespace LiquidityMining

open Ocex (AssetId TradingPair DispatchError EgressMessages RewardsAccount WorldMove WorldMoves)

variable {Acc Auth AuthSign A : Type}

theorem ensure_eq_ok [Decidable p] : ensure p e = .ok u ↔ p := by
  simp only [ensure]
  split_ifs with h <;> simp [h]

theorem orElse_eq_ok {α : Type} {a : Option α} {b : α} : orElse e a = .ok b ↔ a = some b := by
  cases a <;> simp [orElse]

section Moves

variable [Ocex.Assets Acc A] [Ocex.CrossChainGadget Acc A] [RewardsAccount Acc A]
  [Fungibles Acc A]

-- One operation of the currencies. The amounts that are minted are among those of `M`.
inductive AssetMove (M : ℕ → Prop) : A → A → Prop
  | transfer {a a' : A} {payer payee : Acc} {amount : ℕ} {asset : AssetId}
      (h : Ocex.Assets.transfer a payer payee amount asset = .ok a') : AssetMove M a a'
  | transferPreserve {a a' : A} {id amount : ℕ} {payer payee : Acc}
      (h : Fungibles.transferPreserve a id payer payee amount = .ok a') : AssetMove M a a'
  | transferAllowDeath {a a' : A} {payer payee : Acc} {amount : ℕ}
      (h : RewardsAccount.transferAllowDeath a payer payee amount = .ok a') : AssetMove M a a'
  | burnNative {a a' : A} {account : Acc} {amount : ℕ}
      (h : Ocex.Assets.burnNative a account amount = some a') : AssetMove M a a'
  | parachainWithdraw {a a' : A} {account : Acc} {asset : AssetId} {amount beneficiary : ℕ}
      {feeAsset : Option AssetId} {feeAmount : Option ℕ} {id : ℕ}
      (h : Ocex.CrossChainGadget.parachainWithdraw a account asset amount beneficiary feeAsset
        feeAmount id = .ok a') : AssetMove M a a'
  | create {a a' : A} {id minimum : ℕ} {admin : Acc}
      (h : Fungibles.create a id admin minimum = .ok a') : AssetMove M a a'
  | mintInto {a a' : A} {id amount : ℕ} {account : Acc} (hm : M amount)
      (h : Fungibles.mintInto a id account amount = .ok a') : AssetMove M a a'
  | burnFrom {a a' : A} {id amount : ℕ} {account : Acc} {fortitude : Fortitude}
      (h : Fungibles.burnFrom a id account amount fortitude = .ok a') : AssetMove M a a'

variable (Acc) in
abbrev AssetMoves (M : ℕ → Prop) : A → A → Prop :=
  Relation.ReflTransGen (@AssetMove Acc A _ _ _ _ M)

variable {M : ℕ → Prop}

theorem AssetMove.native {payer payee : Acc} (h : Ocex.Assets.transferNative a payer payee amount = .ok a') :
    @AssetMove Acc A _ _ _ _ M a a' :=
  transfer (show Ocex.Assets.transfer a payer payee amount .polkadex = .ok a' from h)

theorem AssetMove.other {id amount : ℕ} {payer payee : Acc}
    (h : Ocex.Assets.transferOther a id payer payee amount = .ok a') : @AssetMove Acc A _ _ _ _ M a a' :=
  transfer (show Ocex.Assets.transfer a payer payee amount (.asset id) = .ok a' from h)

theorem AssetMove.mono (hM : ∀ n, M n → M' n)
    (h : @AssetMove Acc A _ _ _ _ M a a') : @AssetMove Acc A _ _ _ _ M' a a' := by
  cases h with
  | transfer h => exact .transfer h
  | transferPreserve h => exact .transferPreserve h
  | transferAllowDeath h => exact .transferAllowDeath h
  | burnNative h => exact .burnNative h
  | parachainWithdraw h => exact .parachainWithdraw h
  | create h => exact .create h
  | mintInto hm h => exact .mintInto (hM _ hm) h
  | burnFrom h => exact .burnFrom h

theorem payMinimum_moves {a a' : A} {maker pool : Acc}
    (h : payMinimum a maker pool asset = .ok a') : AssetMoves Acc M a a' := by
  simp only [payMinimum] at h
  split at h
  · exact Except.ok.inj h ▸ .refl
  · exact .single (.transferPreserve h)

theorem openPool_spec {a a' : A} {maker pool : Acc} (h : openPool a maker pool shareId market = .ok a') :
    ∃ a₁, Fungibles.create a shareId pool 1 = .ok a₁ ∧ AssetMoves Acc M a₁ a' := by
  simp only [openPool, bind_eq_ok] at h
  obtain ⟨a₁, h₁, a₂, h₂, a₃, h₃, a₄, h₄, quote, _, h₅⟩ := h
  have hm : AssetMoves Acc M a₁ a₂ := .single (.native h₂)
  exact ⟨a₁, h₁, (hm.trans (payMinimum_moves h₃)).trans ((payMinimum_moves h₄).tail
    (.transferPreserve h₅))⟩

end Moves

variable [Ord Acc] {cfg : Ocex.Config}

-- A pool as it was registered.
def MarketMakerConfig.terms (config : MarketMakerConfig Acc) : MarketMakerConfig Acc :=
  { config with forceClosed := false }

-- The pools, with the requests of their providers and the rewards for them.
structure Records (Acc : Type) [Ord Acc] where
  terms : TradingPair × Acc → Option (MarketMakerConfig Acc)
  poolIdIndex : Acc → Option (TradingPair × Acc)
  rewards : ℕ × Acc → Option ℕ
  withdrawalRequests : ℕ × Acc → List (Acc × ℕ × ℕ)
  liquidityProviders : ℕ × Acc → MMInfo Acc

namespace Records

variable [DecidableEq Acc]

def setRewards (r : Records Acc) (key : ℕ × Acc) (rewards : ℕ) : Records Acc :=
  { r with rewards := update r.rewards key (some rewards) }

def setRequests (r : Records Acc) (key : ℕ × Acc) (requests : List (Acc × ℕ × ℕ)) :
    Records Acc :=
  { r with withdrawalRequests := update r.withdrawalRequests key requests }

def setProviders (r : Records Acc) (key : ℕ × Acc) (info : MMInfo Acc) :
    Records Acc :=
  { r with liquidityProviders := update r.liquidityProviders key info }

def storeScores (r : Records Acc)
    (entry : (TradingPair × Acc × ℕ) × (Std.TreeMap Acc (ℕ × Bool) × ℕ)) :
    Option (Records Acc) :=
  (r.terms (entry.1.1, entry.1.2.1)).map fun config =>
    r.setProviders (entry.1.2.2, config.poolId) (entry.2.1, entry.2.2, false)

theorem pools_foldlM_storeScores {results : LMPScoreSheet Acc} (h : results.foldlM storeScores r = some r') :
    r'.terms = r.terms ∧ r'.poolIdIndex = r.poolIdIndex ∧ r'.withdrawalRequests = r.withdrawalRequests := by
  induction results generalizing r with
  | nil => exact Option.some.inj h ▸ ⟨rfl, rfl, rfl⟩
  | cons entry results hi =>
    obtain ⟨t, ht, h⟩ := Option.bind_eq_some_iff.mp h
    obtain ⟨config, _, ht⟩ := Option.map_eq_some_iff.mp ht
    subst ht
    have hk := hi h
    exact hk

end Records

def Mints [Decimal.Arith] : EgressMessages Acc → ℕ → Prop
  | .addLiquidityResult _ _ _ shares _ _, amount => Storage.toBalance shares = .ok amount
  | .removeLiquidityFailed _ _ _ burnFrac total _ _ _ _, amount =>
    Storage.toBalance (total.saturatingMul burnFrac) = .ok amount
  | _, _ => False

namespace Storage

variable {w w' w'' : Storage Acc A}

def records (w : Storage Acc A) : Records Acc where
  terms key := (w.pools key).map MarketMakerConfig.terms
  poolIdIndex := w.poolIdIndex
  rewards := w.rewards
  withdrawalRequests := w.withdrawalRequests
  liquidityProviders := w.liquidityProviders

theorem resolvePool_eq_ok : w.resolvePool market pool = .ok (maker, config) ↔
      (∃ pair, w.poolIdIndex pool = some (pair, maker)) ∧ w.pools (market, maker) = some config := by
  simp only [resolvePool, bind_eq_ok, pure_eq_ok, orElse_eq_ok, Prod.mk.injEq]
  constructor
  · rintro ⟨⟨pair, _⟩, hi, _, hp, rfl, rfl⟩
    exact ⟨⟨pair, hi⟩, hp⟩
  · rintro ⟨⟨pair, hi⟩, hp⟩
    exact ⟨(pair, maker), hi, config, hp, rfl, rfl⟩

theorem records_close [DecidableEq Acc] (h : w.pools key = some config) :
    { w with pools := update w.pools key (some { config with forceClosed := true }) }.records =
      w.records := by
  have hterms : (fun k => (update w.pools key (some { config with forceClosed := true }) k).map
      MarketMakerConfig.terms) = fun k => (w.pools k).map MarketMakerConfig.terms := by
    funext k
    by_cases hk : k = key
    · simp [hk, h, MarketMakerConfig.terms]
    · rw [update_of_ne hk]
  simp only [records, hterms]

variable [Ocex.Assets Acc A] [Ocex.CrossChainGadget Acc A] [RewardsAccount Acc A]
  [Fungibles Acc A] {M : ℕ → Prop}

-- The pools and the rewards are kept, and nothing else is minted.
structure Kept (M : ℕ → Prop) (w w' : Storage Acc A) : Prop where
  records : w'.records = w.records
  assets : AssetMoves Acc M w.assets w'.assets

namespace Kept

theorem refl (w : Storage Acc A) : Kept M w w :=
  ⟨rfl, .refl⟩

theorem trans (h : Kept M w w') (h' : Kept M w' w'') : Kept M w w'' :=
  ⟨h'.records.trans h.records, h.assets.trans h'.assets⟩

theorem onAssets (hf : ∀ {a a'}, f a = .ok a' → AssetMoves Acc M a a') (h : w.onAssets f = .ok w') :
    Kept M w w' := by
  obtain ⟨a, ha, hw⟩ := Except.map_eq_ok.mp h
  exact hw ▸ ⟨rfl, hf ha⟩

theorem transfer {payer payee : Acc}
    (h : Ocex.Assets.transfer w payer payee amount asset = .ok w') : Kept M w w' := by
  cases asset with
  | polkadex => exact onAssets (fun ha => .single (.native ha)) h
  | asset id => exact onAssets (fun ha => .single (.other ha)) h

theorem depositEvent (h : Kept M w w') : Kept M w (w'.depositEvent e) :=
  ⟨h.records, h.assets⟩

variable [Decimal.Arith]

theorem transferAsset (h : w.transferAsset payer payee amount asset = .ok w') : Kept M w w' := by
  simp only [Storage.transferAsset, bind_eq_ok] at h
  obtain ⟨_, _, _, _, h⟩ := h
  split at h
  · exact onAssets (fun ha => .single (.native ha)) h
  · exact onAssets (fun ha => .single (.transferPreserve ha)) h

variable [DecidableEq Acc] {E : EgressMessages Acc → Prop}

-- The operations of the exchange, which mints only through the messages of the engine.
theorem worldMove (hE : ∀ message, E message → ∀ amount, Mints message amount → M amount)
    (h : WorldMove E w w') : Kept M w w' := by
  cases h with
  | transfer h => exact .transfer h
  | burnNative h =>
    obtain ⟨a, ha, hw⟩ := Option.map_eq_some_iff.mp h
    exact hw ▸ ⟨rfl, .single (.burnNative ha)⟩
  | parachainWithdraw h => exact .onAssets (fun ha => .single (.parachainWithdraw ha)) h
  | transferAllowDeath h => exact .onAssets (fun ha => .single (.transferAllowDeath ha)) h
  | newEpoch | stopAcceptingLmpWithdrawals => exact ⟨rfl, .refl⟩
  | addLiquiditySuccess he h =>
    simp only [Ocex.CrowdSourceLiquidityMining.addLiquiditySuccess, addLiquiditySuccess,
      bind_eq_ok, pure_eq_ok] at h
    obtain ⟨_, _, shares, hs, _, _, _, _, t, ht, hw⟩ := h
    exact hw ▸ depositEvent (.onAssets (fun ha => .single (.mintInto (hE _ he _ hs) ha)) ht)
  | removeLiquiditySuccess he h =>
    simp only [Ocex.CrowdSourceLiquidityMining.removeLiquiditySuccess, removeLiquiditySuccess,
      bind_eq_ok, pure_eq_ok] at h
    obtain ⟨t, ht, u, hu, hw⟩ := h
    exact hw ▸ depositEvent ((transferAsset ht).trans (transferAsset hu))
  | removeLiquidityFailed he h =>
    simp only [Ocex.CrowdSourceLiquidityMining.removeLiquidityFailed, removeLiquidityFailed,
      bind_eq_ok, pure_eq_ok] at h
    obtain ⟨_, _, shares, hs, _, _, t, ht, _, _, _, _, _, _, _, _, hw⟩ := h
    exact hw ▸ depositEvent (.onAssets (fun ha => .single (.mintInto (hE _ he _ hs) ha)) ht)
  | poolForceCloseSuccess he h =>
    simp only [Ocex.CrowdSourceLiquidityMining.poolForceCloseSuccess, poolForceCloseSuccess,
      bind_eq_ok, pure_eq_ok] at h
    obtain ⟨⟨maker, config⟩, hr, _, _, _, _, hw⟩ := h
    exact hw ▸ depositEvent ⟨records_close (resolvePool_eq_ok.mp hr).2, .refl⟩

theorem worldMoves (hE : ∀ message, E message → ∀ amount, Mints message amount → M amount)
    (h : WorldMoves E w w') : Kept M w w' := by
  induction h with
  | refl => exact .refl w
  | tail _ h hi => exact hi.trans (worldMove hE h)

end Kept

end Storage

theorem onStorage_eq_ok {s s' : Chain Acc Auth A cfg} :
    onStorage s f = .ok s' ↔ ∃ w, f s.world = .ok w ∧ { s with world := w } = s' :=
  Except.map_eq_ok

section Calls

variable [Ocex.Assets Acc A] [Ocex.CrossChainGadget Acc A] [RewardsAccount Acc A]
  [Fungibles Acc A] {s s' : Chain Acc Auth A cfg} {M : ℕ → Prop}

theorem kept_forceClosePool (h : forceClosePool s market maker = .ok s') : s.world.Kept M s'.world := by
  simp only [forceClosePool, bind_eq_ok, pure_eq_ok] at h
  obtain ⟨_, _, hs⟩ := h
  have hw : s'.world = s.world := hs ▸ (Ocex.State.frame_getD_pushIngressAt ..).1
  exact hw ▸ .refl _

theorem kept_claimForceClosedPoolFunds {lp : Acc}
    (h : claimForceClosedPoolFunds s lp market maker = .ok s') : s.world.Kept M s'.world := by
  simp only [claimForceClosedPoolFunds, bind_eq_ok, pure_eq_ok] at h
  obtain ⟨_, _, _, _, base, _, _, _, _, _, a₁, h₁, a₂, h₂, quote, _, a₃, h₃, hs⟩ := h
  have hm : AssetMoves Acc M s.world.assets a₃ :=
    ((Relation.ReflTransGen.single (.burnFrom h₁)).tail (.other h₂)).tail
      (.other h₃)
  exact hs ▸ ⟨rfl, hm⟩

variable [DecidableEq Acc]

omit [Ocex.Assets Acc A] [Ocex.CrossChainGadget Acc A] [RewardsAccount Acc A] in
theorem removeLiquidity_spec {lp : Acc} (h : removeLiquidity s lp market maker shares = .ok s') :
    ∃ config, s.world.pools (market, maker) = some config ∧
      Fungibles.totalIssuance Acc s.world.assets config.shareId ≠ 0 ∧
      Fungibles.burnFrom s.world.assets config.shareId lp shares .polite = .ok s'.world.assets ∧
      s'.world.records = s.world.records.setRequests (s.world.withdrawingEpoch, config.poolId)
        (s.world.withdrawalRequests (s.world.withdrawingEpoch, config.poolId) ++
          [(lp, shares, Fungibles.totalIssuance Acc s.world.assets config.shareId)]) := by
  simp only [removeLiquidity, bind_eq_ok, pure_eq_ok, orElse_eq_ok, ensure_eq_ok,
    onStorage_eq_ok] at h
  obtain ⟨config, hc, _, _, _, hne, t, ⟨w, hw, ht⟩, hs⟩ := h
  obtain ⟨a, ha, hw⟩ := Except.map_eq_ok.mp hw
  subst hw ht hs
  exact ⟨config, hc, hne, ha, rfl⟩

variable [Decimal.Arith]

theorem kept_addLiquidity {lp : Acc} [Ocex.PalletAccounts Acc] {id : ℕ}
    (h : addLiquidity s id lp market maker baseAmount maxQuoteAmount = .ok s') : s.world.Kept M s'.world := by
  simp only [addLiquidity, bind_eq_ok, onStorage_eq_ok] at h
  obtain ⟨_, _, _, _, _, _, _, _, _, _, _, _, _, _, _, _, t, ⟨w₁, h₁, ht⟩, u, ⟨w₂, h₂, hu⟩, _, _, h⟩ := h
  subst ht hu
  have hm : WorldMoves (fun _ => False) w₂ s'.world := Ocex.State.moves_addLiquidity h
  exact (Storage.Kept.transferAsset h₁).trans ((Storage.Kept.transferAsset h₂).trans
    (.worldMoves (by simp) hm))

omit [Ocex.Assets Acc A] [Ocex.CrossChainGadget Acc A] [RewardsAccount Acc A]
  [Fungibles Acc A] in
theorem initiateWithdrawal_spec (h : initiateWithdrawal s maker market epoch numRequests = .ok s') :
    ∃ config, s.world.pools (market, maker) = some config ∧ s'.world.assets = s.world.assets ∧
      s'.world.records = s.world.records.setRequests (epoch, config.poolId)
        ((s.world.withdrawalRequests (epoch, config.poolId)).drop numRequests) := by
  simp only [initiateWithdrawal, bind_eq_ok, orElse_eq_ok] at h
  obtain ⟨config, hc, t, ht, h⟩ := h
  have hw : t.world = s.world := Except.foldlM_invariant (motive := fun u => u.world = s.world) ht rfl
    fun _ _ _ _ hu h => (Ocex.State.frame_removeLiquidity h).1.trans hu
  split_ifs at h
  rw [← pure_eq_ok.mp h, hw]
  exact ⟨config, hc, rfl, rfl⟩

theorem kept_ocex [Ocex.PalletAccounts Acc] [Ocex.Percent]
    [Ocex.Authority Acc Auth AuthSign]
    {call : Ocex.LmpCall Acc Auth AuthSign}
    (hM : ∀ message, call.Carries message → ∀ amount, Mints message amount → M amount)
    (h : Ocex.lmpDispatch s call = .ok s') : s.world.Kept M s'.world :=
  .worldMoves hM (Ocex.moves_lmpDispatch h)

end Calls

section Rewards

variable [DecidableEq Acc] [Ocex.Assets Acc A] [Ocex.CrossChainGadget Acc A]
  [RewardsAccount Acc A] [Fungibles Acc A] [Decimal.Arith]
  {s s' t : Chain Acc Auth A cfg} {M : ℕ → Prop} {market : TradingPair}
  {pool maker lp : Acc} {epoch rewards score amount : ℕ}

theorem poolRewards_spec (h : poolRewards s market pool epoch = .ok (t, rewards)) :
    (s.world.rewards (epoch, pool) = none ∨ s.world.rewards (epoch, pool) = some rewards) ∧
    t.world.records = s.world.records.setRewards (epoch, pool) rewards ∧
    AssetMoves Acc M s.world.assets t.world.assets := by
  simp only [poolRewards] at h
  split at h
  case h_1 r hr =>
    simp only [Except.ok.injEq, Prod.mk.injEq] at h
    obtain ⟨rfl, rfl⟩ := h
    refine ⟨.inr hr, ?_, .refl⟩
    have hset : update s.world.rewards (epoch, pool) (some r) = s.world.rewards :=
      hr ▸ update_eq_self ..
    simp only [Storage.records, Records.setRewards, hset]
  case h_2 hr =>
    simp only [bind_eq_ok, pure_eq_ok, Prod.mk.injEq] at h
    obtain ⟨⟨u, r⟩, hu, rfl, rfl⟩ := h
    have hm : WorldMoves (fun _ => False) s.world u.world := Ocex.State.moves_doClaimLmpRewards hu
    have hk : s.world.Kept M u.world := .worldMoves (by simp) hm
    exact ⟨.inl hr, congrArg (·.setRewards (epoch, pool) r) hk.records, hk.assets⟩

theorem lpClaim_spec (h : lpClaim s lp market maker epoch = .ok (t, pool, score, amount)) :
    ∃ config rewards scores totalScore mmClaimed,
      s.world.records.terms (market, maker) = some config ∧ config.poolId = pool ∧
      (s.world.rewards (epoch, pool) = none ∨ s.world.rewards (epoch, pool) = some rewards) ∧
      s.world.liquidityProviders (epoch, pool) = (scores, totalScore, mmClaimed) ∧
      scores[lp]? = some (score, false) ∧ rewardsForLp score rewards totalScore = .ok amount ∧
      t.world.records = s.world.records.setRewards (epoch, pool) rewards ∧
      AssetMoves Acc M s.world.assets t.world.assets := by
  simp only [lpClaim, bind_eq_ok, pure_eq_ok, orElse_eq_ok, ensure_eq_ok,
    Prod.mk.injEq] at h
  obtain ⟨config, hc, ⟨u, rewards⟩, hu, ⟨score', claimed⟩, hs, _, hn, amount', ha, rfl, rfl, rfl, rfl⟩ := h
  obtain ⟨hr, hrec, hm⟩ := poolRewards_spec (M := M) hu
  have hp : u.world.liquidityProviders = s.world.liquidityProviders :=
    congrArg Records.liquidityProviders hrec
  simp only [Bool.not_eq_eq_eq_not, Bool.not_true] at hn
  subst hn
  have hs : (u.world.liquidityProviders (epoch, config.poolId)).1[lp]? = some (score', false) := hs
  have ha : rewardsForLp score' rewards (u.world.liquidityProviders (epoch, config.poolId)).2.1 =
    .ok amount' := ha
  rw [hp] at hs ha
  refine ⟨config.terms, rewards, _, _, _, ?_, rfl, hr, rfl, hs, ha, hrec, hm⟩
  simp [Storage.records, hc]

theorem mmClaim_spec (h : mmClaim s maker market epoch = .ok (t, pool, amount)) :
    ∃ config rewards scores totalScore,
      s.world.records.terms (market, maker) = some config ∧ config.poolId = pool ∧
      (s.world.rewards (epoch, pool) = none ∨ s.world.rewards (epoch, pool) = some rewards) ∧
      s.world.liquidityProviders (epoch, pool) = (scores, totalScore, false) ∧
      rewardsForMm config.commission rewards = .ok amount ∧
      t.world.records = s.world.records.setRewards (epoch, pool) rewards ∧
      AssetMoves Acc M s.world.assets t.world.assets := by
  simp only [mmClaim, bind_eq_ok, pure_eq_ok, orElse_eq_ok, ensure_eq_ok,
    Prod.mk.injEq] at h
  obtain ⟨config, hc, ⟨u, rewards⟩, hu, _, hn, amount', ha, rfl, rfl, rfl⟩ := h
  obtain ⟨hr, hrec, hm⟩ := poolRewards_spec (M := M) hu
  have hp : u.world.liquidityProviders = s.world.liquidityProviders :=
    congrArg Records.liquidityProviders hrec
  simp only [Bool.not_eq_eq_eq_not, Bool.not_true, hp] at hn
  refine ⟨config.terms, rewards, (s.world.liquidityProviders (epoch, config.poolId)).1,
    (s.world.liquidityProviders (epoch, config.poolId)).2.1, ?_, rfl, hr, ?_, ha, hrec, hm⟩
  · simp [Storage.records, hc]
  · exact Prod.ext rfl (Prod.ext rfl hn)

theorem claimRewardsByLp_spec (h : claimRewardsByLp s lp market maker epoch = .ok s') :
    ∃ u pool score amount scores totalScore mmClaimed,
      lpClaim s lp market maker epoch = .ok (u, pool, score, amount) ∧
      s.world.liquidityProviders (epoch, pool) = (scores, totalScore, mmClaimed) ∧
      s'.world.records = u.world.records.setProviders (epoch, pool)
        (scores.insert lp (score, true), totalScore, mmClaimed) ∧
      AssetMoves Acc M s.world.assets s'.world.assets := by
  simp only [claimRewardsByLp, bind_eq_ok, pure_eq_ok, onStorage_eq_ok] at h
  obtain ⟨⟨u, pool, score, amount⟩, hu, t, ⟨w, hw, ht⟩, hs⟩ := h
  obtain ⟨config, rewards, scores, totalScore, mmClaimed, _, _, _, hp, _, _, hrec, hm⟩ :=
    lpClaim_spec (M := M) hu
  have hk : u.world.Kept M w := .onAssets (fun ha => .single (.transferAllowDeath ha)) hw
  have hw : w.records = s.world.records.setRewards (epoch, pool) rewards := hk.records.trans hrec
  have hp' : w.liquidityProviders (epoch, pool) = (scores, totalScore, mmClaimed) :=
    (congrFun (congrArg Records.liquidityProviders hw) _).trans hp
  subst ht
  refine ⟨u, pool, score, amount, scores, totalScore, mmClaimed, hu, hp, ?_, ?_⟩
  · rw [← hs, ← hk.records]
    simp only [hp']
    rfl
  · exact hs ▸ hm.trans hk.assets

theorem claimRewardsByMm_spec (h : claimRewardsByMm s maker market epoch = .ok s') :
    ∃ u pool amount scores totalScore mmClaimed,
      mmClaim s maker market epoch = .ok (u, pool, amount) ∧
      s.world.liquidityProviders (epoch, pool) = (scores, totalScore, mmClaimed) ∧
      s'.world.records = u.world.records.setProviders (epoch, pool) (scores, totalScore, true) ∧
      AssetMoves Acc M s.world.assets s'.world.assets := by
  simp only [claimRewardsByMm, bind_eq_ok, pure_eq_ok, onStorage_eq_ok] at h
  obtain ⟨⟨u, pool, amount⟩, hu, t, ⟨w, hw, ht⟩, hs⟩ := h
  obtain ⟨config, rewards, scores, totalScore, _, _, _, hp, _, hrec, hm⟩ := mmClaim_spec (M := M) hu
  have hk : u.world.Kept M w := .onAssets (fun ha => .single (.transferAllowDeath ha)) hw
  have hw : w.records = s.world.records.setRewards (epoch, pool) rewards := hk.records.trans hrec
  have hp' : w.liquidityProviders (epoch, pool) = (scores, totalScore, false) :=
    (congrFun (congrArg Records.liquidityProviders hw) _).trans hp
  subst ht
  refine ⟨u, pool, amount, scores, totalScore, false, hu, hp, ?_, ?_⟩
  · rw [← hs, ← hk.records]
    simp only [hp']
    rfl
  · exact hs ▸ hm.trans hk.assets

omit [Ocex.Assets Acc A] [Ocex.CrossChainGadget Acc A] [RewardsAccount Acc A]
  [Fungibles Acc A] [Decimal.Arith] in
theorem storeScores_eq_ok {w w' : Storage Acc A} (h : storeScores w entry = .ok w') :
    w.records.storeScores entry = some w'.records ∧ w'.assets = w.assets := by
  simp only [storeScores, bind_eq_ok, pure_eq_ok, orElse_eq_ok] at h
  obtain ⟨config, hc, hw⟩ := h
  subst hw
  refine ⟨?_, rfl⟩
  simp only [Records.storeScores, Storage.records, hc, Option.map_some]
  rfl

omit [Ocex.Assets Acc A] [Ocex.CrossChainGadget Acc A] [RewardsAccount Acc A]
  [Fungibles Acc A] [Decimal.Arith] in
theorem submitScoresOfLps_spec (h : submitScoresOfLps s results = .ok s') :
    results.foldlM Records.storeScores s.world.records = some s'.world.records ∧
      s'.world.assets = s.world.assets := by
  simp only [submitScoresOfLps, bind_eq_ok, pure_eq_ok, onStorage_eq_ok] at h
  obtain ⟨_, ⟨w, hw, rfl⟩, rfl⟩ := h
  have hfold (w₀ : Storage Acc A) (hw : results.foldlM storeScores w₀ = .ok w) :
      results.foldlM Records.storeScores w₀.records = some w.records ∧ w.assets = w₀.assets := by
    clear * - hw
    induction results generalizing w₀ with
    | nil => exact foldlM_nil_eq_ok.mp hw ▸ ⟨rfl, rfl⟩
    | cons entry results hi =>
      obtain ⟨w₁, h₁, hw⟩ := foldlM_cons_eq_ok.mp hw
      obtain ⟨hs, ha⟩ := storeScores_eq_ok h₁
      obtain ⟨hs', ha'⟩ := hi w₁ hw
      rw [List.foldlM_cons, hs]
      exact ⟨hs', ha'.trans ha⟩
  exact hfold s.world hw

end Rewards

section Register

variable [DecidableEq Acc] [Ocex.Assets Acc A] [Ocex.CrossChainGadget Acc A]
  [RewardsAccount Acc A] [Fungibles Acc A] [PoolAccounts Acc] [Decimal.Arith]
  {s s' : Chain Acc Auth A cfg} {M : ℕ → Prop}

theorem registerPool_spec {maker tradingAccount : Acc} {name : Vector UInt8 10}
    {market : TradingPair} {commission exitFee : ℕ} {publicFundsAllowed : Bool}
    (h : registerPool s maker name market commission exitFee publicFundsAllowed tradingAccount =
      .ok s') :
    ∃ config a, s.world.records.terms (market, maker) = none ∧
      PoolAccounts.createPoolAccount maker market = (config.poolId, config.shareId) ∧
      (0 ≤ config.commission ∧ config.commission ≤ 1) ∧
      Fungibles.create s.world.assets config.shareId config.poolId 1 = .ok a ∧
      AssetMoves Acc M a s'.world.assets ∧
      s'.world.records = { s.world.records with
        terms := update s.world.records.terms (market, maker) (some config)
        poolIdIndex := update s.world.poolIdIndex config.poolId (some (market, maker)) } := by
  simp only [registerPool, bind_eq_ok, pure_eq_ok, ensure_eq_ok, onStorage_eq_ok] at h
  obtain ⟨_, hn, _, _, commission', _, exitFee', _, _, hc, _, _, t, ⟨w, hw, ht⟩, u, hu, hs⟩ := h
  obtain ⟨a', ha', hw⟩ := Except.map_eq_ok.mp hw
  obtain ⟨a, ha, hm⟩ := openPool_spec (M := M) ha'
  subst hw ht
  have hworld : u.world = { s.world with assets := a' } := (Ocex.State.frame_registerUser hu).1
  refine ⟨⟨(PoolAccounts.createPoolAccount maker market).1, commission', exitFee', publicFundsAllowed,
    name, (PoolAccounts.createPoolAccount maker market).2, false⟩, a, ?_, rfl, hc, ha, ?_, ?_⟩
  · simpa [Storage.records] using hn
  · rw [← hs, hworld]
    exact hm
  · rw [← hs, hworld]
    simp only [Storage.records, Records.mk.injEq, and_true]
    funext key
    by_cases hk : key = (market, maker)
    · simp [hk, MarketMakerConfig.terms]
    · simp [hk]

end Register

end LiquidityMining
