import PolkadexModel.Ocex.Theorems.Imports

-- The answers of the engine to the messages about liquidity, and which of them are accepted.
namespace Ocex

section Replies

variable {Acc Auth W : Type}

-- The equality of configurations, in which the numbers count and not how they are written.
structure TradingPairConfig.Same (a b : TradingPairConfig) : Prop where
  baseAsset : a.baseAsset = b.baseAsset
  quoteAsset : a.quoteAsset = b.quoteAsset
  priceTickSize : a.priceTickSize ≈ b.priceTickSize
  minVolume : a.minVolume ≈ b.minVolume
  maxVolume : a.maxVolume ≈ b.maxVolume
  qtyStepSize : a.qtyStepSize ≈ b.qtyStepSize
  operationalStatus : a.operationalStatus = b.operationalStatus
  baseAssetPrecision : a.baseAssetPrecision = b.baseAssetPrecision
  quoteAssetPrecision : a.quoteAssetPrecision = b.quoteAssetPrecision

-- A reply belongs to a message about liquidity: what it repeats of the message is the same.
def Bound : IngressMessages Acc → EgressMessages Acc → Prop
  | .addLiquidity market pool lp _ _ _, .addLiquidityResult market' pool' lp' _ _ _ =>
    market'.Same market ∧ pool' = pool ∧ lp' = lp
  | .removeLiquidity market pool lp _ _, .removeLiquidityResult market' pool' lp' _ _ =>
    market'.Same market ∧ pool' = pool ∧ lp' = lp
  | .removeLiquidity market pool lp burnFrac totalShares,
      .removeLiquidityFailed market' pool' lp' burnFrac' totalShares' _ _ _ _ =>
    market'.Same market ∧ pool' = pool ∧ lp' = lp ∧ burnFrac' ≈ burnFrac ∧ totalShares' ≈ totalShares
  | .addLiquidity .., _ | .removeLiquidity .., _ => False
  | _, _ => True

-- The reply repeats the market of the message, and its number of shares if it has one.
def Repeats : IngressMessages Acc → EgressMessages Acc → Prop
  | .addLiquidity market _ _ _ _ _, .addLiquidityResult market' _ _ _ _ _ => market'.Same market
  | .removeLiquidity market _ _ _ _, .removeLiquidityResult market' _ _ _ _ => market'.Same market
  | .removeLiquidity market _ _ _ totalShares, .removeLiquidityFailed market' _ _ _ totalShares' _ _ _ _ =>
    market'.Same market ∧ totalShares' ≈ totalShares
  | _, _ => True

variable [DecidableEq Acc] [PalletAccounts Acc] [Decimal.Arith] {s : OffchainState Acc}
  {market : TradingPairConfig} {pool lp : Acc} {m : IngressMessages Acc}
  {reply : EgressMessages Acc} {allowlist : Std.TreeSet AssetId}
  {engine : IngressMessages Acc → Option (EgressMessages Acc)}
  {acc acc' : OffchainState Acc × List (EgressMessages Acc)}

namespace OffchainState

omit [DecidableEq Acc] [PalletAccounts Acc] [Decimal.Arith] in
theorem symm_equiv {x y : Decimal} (h : x ≈ y) : y ≈ x :=
  Decimal.equiv_iff.mpr (Decimal.equiv_iff.mp h).symm

omit [PalletAccounts Acc] in
theorem bound_iff_of_verifyAddLiquidity
    (h : s.verifyAddLiquidity market pool lp totalShares base quote (some reply) = .ok egress) :
    Bound (.addLiquidity market pool lp totalShares base quote) reply ↔
      Repeats (.addLiquidity market pool lp totalShares base quote) reply := by
  cases reply with
  | addLiquidityResult market' pool' lp' _ _ _ =>
    simp only [verifyAddLiquidity, bind_eq_ok, check_eq_ok] at h
    obtain ⟨_, rfl, _, rfl, -⟩ := h
    exact and_iff_left ⟨rfl, rfl⟩
  | _ => cases h

omit [PalletAccounts Acc] in
theorem bound_iff_of_importRemoveLiquidity
    (h : s.importRemoveLiquidity market pool lp burnFrac (some reply) = .ok r) :
    Bound (.removeLiquidity market pool lp burnFrac totalShares) reply ↔
      Repeats (.removeLiquidity market pool lp burnFrac totalShares) reply := by
  cases reply with
  | removeLiquidityResult market' pool' lp' _ _ =>
    simp only [importRemoveLiquidity, bind_eq_ok, check_eq_ok] at h
    obtain ⟨_, rfl, _, rfl, -⟩ := h
    exact and_iff_left ⟨rfl, rfl⟩
  | removeLiquidityFailed market' pool' lp' burnFrac' totalShares' _ _ _ _ =>
    simp only [importRemoveLiquidity, bind_eq_ok, check_eq_ok] at h
    obtain ⟨_, rfl, _, rfl, _, hburn, -⟩ := h
    have hburn' := symm_equiv hburn
    exact ⟨fun hb => ⟨hb.1, hb.2.2.2.2⟩, fun hr => ⟨hr.1, rfl, rfl, hburn', hr.2⟩⟩
  | _ => cases h

theorem bound_iff_of_importMessage (h : importMessage allowlist engine acc m = .ok acc')
    (hreply : engine m = some reply) : Bound m reply ↔ Repeats m reply := by
  cases m with
  | addLiquidity =>
    simp only [importMessage, importAddLiquidity, bind_eq_ok, hreply] at h
    obtain ⟨_, ⟨_, hverify, -⟩, -⟩ := h
    exact bound_iff_of_verifyAddLiquidity hverify
  | removeLiquidity =>
    simp only [importMessage, bind_eq_ok, hreply] at h
    obtain ⟨_, hremove, -⟩ := h
    exact bound_iff_of_importRemoveLiquidity hremove
  | _ => simp [Bound, Repeats]

end OffchainState

-- An accepted reply belongs to its message exactly if it repeats the market and the number of shares.
theorem reply_bound_iff [Ord Acc] {cfg : Config} {chain : State Acc Auth W cfg} {blk : ℕ}
    {info : StateInfo} {r : OffchainState Acc × StateInfo × List (EgressMessages Acc)}
    (h : importBlk chain blk s info engine = .ok r) (hm : m ∈ (chain.ingressMessages blk).toList)
    (hreply : engine m = some reply) : Bound m reply ↔ Repeats m reply := by
  obtain ⟨_, -, h⟩ := bind_eq_ok.mp h
  obtain ⟨_, h, -⟩ := bind_eq_ok.mp h
  obtain ⟨before, after, hsplit⟩ := List.append_of_mem hm
  rw [hsplit] at h
  obtain ⟨_, -, h⟩ := Except.foldlM_append_eq_ok.mp h
  obtain ⟨_, h, -⟩ := foldlM_cons_eq_ok.mp h
  exact OffchainState.bound_iff_of_importMessage h hreply

omit [Decimal.Arith] in
theorem lt_iff_not_le_of_equiv {x y z : Decimal} (h : x ≈ y) : z < y ↔ ¬x ≤ z := by
  rw [Decimal.lt_iff, Decimal.le_iff, Decimal.equiv_iff.mp h, not_le]

theorem accepted_iff_both_short
    (hreply : engine (.removeLiquidity market pool lp burnFrac totalShares) = some (.removeLiquidityFailed market'
      pool lp burnFrac' totalShares' baseFree quoteFree baseRequired quoteRequired))
    (hburn : burnFrac ≈ burnFrac')
    (hquote : burnFrac.saturatingMul (acc.1.getBalance pool market.quoteAsset) ≈ quoteRequired)
    (hbase : burnFrac.saturatingMul (acc.1.getBalance pool market.baseAsset) ≈ baseRequired) :
    (∃ acc', OffchainState.importMessage allowlist engine acc
        (.removeLiquidity market pool lp burnFrac totalShares) = .ok acc') ↔
      quoteFree < quoteRequired ∧ baseFree < baseRequired := by
  rw [lt_iff_not_le_of_equiv hquote, lt_iff_not_le_of_equiv hbase]
  simp only [OffchainState.importMessage, hreply, OffchainState.importRemoveLiquidity, bind_eq_ok, check_eq_ok]
  constructor
  · rintro ⟨_, _, ⟨_, -, _, -, _, -, _, -, _, -, _, hq, _, hb, -⟩, -⟩
    exact ⟨hq, hb⟩
  · rintro ⟨hq, hb⟩
    exact ⟨_, _, ⟨(), trivial, (), trivial, (), hburn, (), hquote, (), hbase, (), hq, (), hb, rfl⟩, rfl⟩

-- A refusal is accepted if one of the amounts is short, and only then, exactly if both amounts are short or none is.
theorem refusal_justified_iff {market' : TradingPairConfig}
    {burnFrac burnFrac' totalShares totalShares' baseFree quoteFree baseRequired quoteRequired : Decimal}
    (hreply : engine (.removeLiquidity market pool lp burnFrac totalShares) = some (.removeLiquidityFailed market'
      pool lp burnFrac' totalShares' baseFree quoteFree baseRequired quoteRequired))
    (hburn : burnFrac ≈ burnFrac')
    (hquote : burnFrac.saturatingMul (acc.1.getBalance pool market.quoteAsset) ≈ quoteRequired)
    (hbase : burnFrac.saturatingMul (acc.1.getBalance pool market.baseAsset) ≈ baseRequired) :
    ((∃ acc', OffchainState.importMessage allowlist engine acc
        (.removeLiquidity market pool lp burnFrac totalShares) = .ok acc') ↔
      baseFree < baseRequired ∨ quoteFree < quoteRequired) ↔
    (baseFree < baseRequired ↔ quoteFree < quoteRequired) := by
  rw [accepted_iff_both_short hreply hburn hquote hbase]
  tauto

end Replies

namespace Mock

attribute [local instance] Decimal.HalfEven.arith

def requested : TradingPairConfig :=
  .ofPair (.asset 1) .polkadex

def unrequested : TradingPairConfig :=
  .ofPair (.asset 2) .polkadex

def liquidityAdded : IngressMessages Account :=
  .addLiquidity requested 4 5 0 1 1

def liquidityRemoved : IngressMessages Account :=
  .removeLiquidity requested 4 5 1 1

def liquidityChain : State Account ℕ World config :=
  { (State.genesis [1, 2, 3] fun _ _ => 0 : State Account ℕ World config) with
    ingressMessages := fun _ => ⟨[liquidityAdded, liquidityRemoved], by decide⟩ }

def sharesIssued (market : TradingPairConfig) : EgressMessages Account :=
  .addLiquidityResult market 4 5 0 1 two

def removalRefused (market : TradingPairConfig) (totalShares baseFree quoteFree : Decimal) : EgressMessages Account :=
  .removeLiquidityFailed market 4 5 1 totalShares baseFree quoteFree 1 1

-- An engine that answers for a market and a number of shares. It has some amounts of the two assets left.
def answering (market : TradingPairConfig) (totalShares baseFree quoteFree : Decimal) :
    IngressMessages Account → Option (EgressMessages Account)
  | .addLiquidity .. => some (sharesIssued market)
  | .removeLiquidity .. => some (removalRefused market totalShares baseFree quoteFree)
  | _ => none

theorem replies_repeated :
    ∃ r, importBlk liquidityChain 1 .empty {} (answering requested 1 0 0) = .ok r ∧
      Bound liquidityRemoved (removalRefused requested 1 0 0) := by
  have hsame : requested.Same requested := ⟨rfl, rfl, rfl, rfl, rfl, rfl, rfl, rfl, rfl⟩
  have hmem : liquidityRemoved ∈ (liquidityChain.ingressMessages 1).toList :=
    List.mem_cons_of_mem _ List.mem_cons_self
  obtain ⟨r, hr⟩ : ∃ r, importBlk liquidityChain 1 .empty {} (answering requested 1 0 0) = .ok r := ⟨_, rfl⟩
  exact ⟨r, hr, (reply_bound_iff hr hmem rfl).2 ⟨hsame, rfl⟩⟩

-- The answers are accepted, but they are for another market and for twice the shares.
theorem replies_redirected :
    ∃ r, importBlk liquidityChain 1 .empty {} (answering unrequested two 0 0) = .ok r ∧
      r.2.2 = [sharesIssued unrequested, removalRefused unrequested two 0 0] ∧
      ¬Bound liquidityAdded (sharesIssued unrequested) ∧
      ¬Bound liquidityRemoved (removalRefused unrequested two 0 0) := by
  have hne : ¬unrequested.Same requested := fun h => absurd h.baseAsset (by decide)
  exact ⟨_, rfl, rfl, fun h => hne h.1, fun h => hne h.1⟩

def pooled : OffchainState Account × List (EgressMessages Account) :=
  ((OffchainState.empty.addBalance 4 (.asset 1) 1).addBalance 4 .polkadex 1, [])

theorem refusal_justified :
    (∃ acc, OffchainState.importMessage ∅ (answering requested 1 0 0) pooled liquidityRemoved = .ok acc) ↔
      (0 : Decimal) < 1 ∨ (0 : Decimal) < 1 :=
  (refusal_justified_iff rfl (by decide +kernel) (by decide +kernel) (by decide +kernel)).2 Iff.rfl

-- The engine has none of the base asset, and all of the quote asset.
theorem justified_refusal_denied :
    ¬∃ acc, OffchainState.importMessage ∅ (answering requested 1 0 1) pooled liquidityRemoved = .ok acc := by
  intro hacc
  have hshort := (accepted_iff_both_short rfl (by decide +kernel) (by decide +kernel) (by decide +kernel)).1 hacc
  revert hshort
  decide +kernel

end Mock

end Ocex
