import PolkadexModel.Ocex.Theorems.Authorisation

-- The operations on decimals that abort the processing of a batch.
namespace Ocex

open Decimal (Arith)

variable {Acc Auth Sign W : Type}

def Fault.IsPanic (f : Fault) : Prop :=
  ∃ message, f = .panic message

@[simp]
theorem Fault.not_isPanic_error (message : String) : ¬(Fault.error message).IsPanic := by
  simp [IsPanic]

@[simp]
theorem Fault.isPanic_panic (message : String) : (Fault.panic message).IsPanic :=
  ⟨message, rfl⟩

@[simp]
theorem avoids_check [Decidable p] : (check p message).Avoids Fault.IsPanic := by
  simp only [check]
  split_ifs <;> simp

section Trades

variable [Arith] [Verify Acc Sign]

namespace Order

-- The remainders that are computed are defined.
def Checkable (o : Order Acc Sign) (config : TradingPairConfig) : Prop :=
  let isMarketSame := o.pair.base = config.baseAsset ∧ o.pair.quote = config.quoteAsset
  let volume := o.price.saturatingMul o.qty
  match o.orderType, o.side with
  | .limit, _ => isMarketSame ∧ config.minVolume ≤ volume ∧ volume ≤ config.maxVolume →
    ∃ r, Arith.checkedRem o.price config.priceTickSize = some r ∧
      (r.isZero → Arith.checkedRem o.qty config.qtyStepSize ≠ none)
  | .market, .ask => isMarketSame → Arith.checkedRem o.qty config.qtyStepSize ≠ none
  | .market, .bid =>
    isMarketSame ∧ config.minVolume ≤ o.quoteOrderQty ∧ o.quoteOrderQty ≤ config.maxVolume →
      Arith.checkedRem o.quoteOrderQty config.priceTickSize ≠ none

theorem avoids_isMultiple : (isMultiple x y).Avoids Fault.IsPanic ↔ Arith.checkedRem x y ≠ none := by
  simp only [isMultiple]
  cases Arith.checkedRem x y <;> simp

theorem isMultiple_eq_ok : isMultiple x y = .ok b ↔ ∃ r, Arith.checkedRem x y = some r ∧ r.isZero = b := by
  simp only [isMultiple]
  cases Arith.checkedRem x y <;> simp

omit [Verify Acc Sign] in
theorem avoids_verifyConfig {o : Order Acc Sign} :
    (o.verifyConfig config).Avoids Fault.IsPanic ↔ o.Checkable config := by
  simp only [verifyConfig, Checkable]
  cases o.orderType with
  | limit =>
    dsimp only
    split_ifs with h
    · rw [Except.avoids_bind, avoids_isMultiple]
      simp only [h, isMultiple_eq_ok]
      cases Arith.checkedRem o.price config.priceTickSize with
      | none => simp
      | some r => cases hr : r.isZero <;> simp [avoids_isMultiple, hr]
    · simp [h]
  | market =>
    cases o.side <;> dsimp only <;> split_ifs with h <;> simp [h, avoids_isMultiple]

end Order

namespace Trade

variable {t : Trade Acc Sign}

-- The remainders for the two orders are defined, and the volume of a valid trade is.
structure Settleable (t : Trade Acc Sign) (config : TradingPairConfig) : Prop where
  maker : t.maker.verifySignature → t.taker.verifySignature → t.maker.Checkable config
  taker : t.maker.verifySignature → t.taker.verifySignature → t.maker.verifyConfig config = .ok true →
    t.taker.Checkable config
  volume : t.verify config = .ok true → Arith.checkedMul t.price t.amount ≠ none

theorem avoids_verify : (t.verify config).Avoids Fault.IsPanic ↔
    (t.maker.verifySignature → t.taker.verifySignature → t.maker.Checkable config ∧
      (t.maker.verifyConfig config = .ok true → t.taker.Checkable config)) := by
  simp only [verify]
  cases t.maker.verifySignature <;> cases t.taker.verifySignature <;>
    simp [Except.avoids_bind, Order.avoids_verifyConfig]

omit [Verify Acc Sign] in
theorem avoids_volume : t.volume.Avoids Fault.IsPanic ↔ Arith.checkedMul t.price t.amount ≠ none := by
  simp only [volume]
  cases Arith.checkedMul t.price t.amount <;> simp

end Trade

namespace OffchainState

variable [DecidableEq Acc] {s : OffchainState Acc} {account : Acc} {asset : AssetId}
  {amount : Decimal}

omit [DecidableEq Acc] in
theorem avoids_deductible : (deductible accountBalance balance isWithdrawal).Avoids Fault.IsPanic ↔
      (isWithdrawal → accountBalance < balance → Arith.checkedSub balance accountBalance ≠ none) := by
  simp only [deductible]
  cases isWithdrawal <;> split_ifs <;> cases Arith.checkedSub balance accountBalance <;> simp_all

theorem avoids_subBalance : (s.subBalance account asset amount isWithdrawal).Avoids Fault.IsPanic ↔
      ∀ balance, s.entry account asset = some balance → isWithdrawal → balance < amount →
        Arith.checkedSub amount balance ≠ none := by
  simp only [subBalance, entry]
  cases s.balances.get account with
  | none => simp
  | some balances =>
    cases hb : balances asset <;> simp [hb, avoids_deductible]

theorem avoids_subBalance_false :
    (s.subBalance account asset amount false).Avoids Fault.IsPanic :=
  avoids_subBalance.mpr (by simp)

variable [PalletAccounts Acc] {t : Trade Acc Sign}

omit [Verify Acc Sign] in
theorem avoids_settle :
    (s.settle t maker fraction).Avoids Fault.IsPanic ↔ Arith.checkedMul t.price t.amount ≠ none := by
  rw [← Trade.avoids_volume]
  simp only [settle, Trade.credit, Trade.debit]
  cases (t.order maker).side <;>
    simp [Except.avoids_bind, avoids_subBalance_false]

theorem avoids_processTrade :
    (s.processTrade t config makerFees takerFees).Avoids Fault.IsPanic ↔ t.Settleable config := by
  simp only [processTrade, Except.avoids_bind, Trade.avoids_verify]
  constructor
  · rintro ⟨hverify, hsettle⟩
    refine ⟨fun hm ht => (hverify hm ht).1, fun hm ht => (hverify hm ht).2, fun hok => ?_⟩
    have hsettle := hsettle true hok
    rw [if_pos rfl, Except.avoids_bind, avoids_settle] at hsettle
    exact hsettle.1
  · rintro ⟨hmaker, htaker, hvolume⟩
    refine ⟨fun hm ht => ⟨hmaker hm ht, htaker hm ht⟩, fun ok hok => ?_⟩
    cases ok with
    | false => simp
    | true => simp [Except.avoids_bind, avoids_settle, hvolume hok]

end OffchainState

end Trades

section Actions

variable [DecidableEq Acc] [Arith]

-- The difference is defined if more is requested than there is.
def WithdrawalRequest.Deductible [FromText] [Verify Acc Sign]
    (r : WithdrawalRequest Acc Sign) (s : OffchainState Acc) : Prop :=
  ∀ amount balance, r.amount = some amount → r.verify → s.entry r.main r.asset = some balance →
    balance < amount → Arith.checkedSub amount balance ≠ none

theorem avoids_withdraw [FromText] [Verify Acc Sign] {r : WithdrawalRequest Acc Sign} :
    (withdraw r s stid).Avoids Fault.IsPanic ↔ r.Deductible s := by
  simp only [withdraw, WithdrawalRequest.Deductible]
  cases hamount : r.amount with
  | none => simp
  | some amount =>
    simp only [Except.avoids_bind, avoids_check, true_and, OffchainState.avoids_subBalance, check_eq_ok]
    constructor
    · intro h amount' balance ha hverify hb hlt
      cases ha
      exact (h () hverify).1 balance hb trivial hlt
    · refine fun h _ hverify => ⟨fun balance hb _ hlt => h amount balance rfl hverify hb hlt, ?_⟩
      rintro ⟨state, deducted⟩ _
      cases r.convert stid <;> simp

namespace OffchainState

variable [PalletAccounts Acc] {s : OffchainState Acc}

-- The inventory of a pool after a deposit, in the quote asset.
def inventory (s : OffchainState Acc) (market : TradingPairConfig) (pool : Acc)
    (baseDeposited quoteDeposited price : Decimal) : Decimal :=
  let s := s.addBalance pool market.baseAsset baseDeposited
  let s := s.addBalance pool market.quoteAsset quoteDeposited
  (s.getBalance pool market.quoteAsset).saturatingAdd
    (price.saturatingMul (s.getBalance pool market.baseAsset))

-- The shares for a deposit are defined, unless the reply of the engine is refused before.
def Mintable (engineMessages : IngressMessages Acc → Option (EgressMessages Acc))
    (s : OffchainState Acc) : IngressMessages Acc → Prop
  | .addLiquidity market pool lp totalShares baseDeposited quoteDeposited =>
    ∀ market' issuedShares price totalInventory,
      engineMessages (.addLiquidity market pool lp totalShares baseDeposited quoteDeposited) =
        some (.addLiquidityResult market' pool lp issuedShares price totalInventory) →
      totalInventory ≈ s.inventory market pool baseDeposited quoteDeposited price →
      totalInventory.isZero = false →
      Arith.checkedDiv (((baseDeposited.saturatingMul price).saturatingAdd quoteDeposited).saturatingMul
        totalShares) totalInventory ≠ none
  | _ => True

omit [DecidableEq Acc] [PalletAccounts Acc] in
theorem avoids_sharesMinted : (sharesMinted givenInventory totalShares totalInventory).Avoids Fault.IsPanic ↔
      (totalInventory.isZero = false →
        Arith.checkedDiv (givenInventory.saturatingMul totalShares) totalInventory ≠ none) := by
  simp only [sharesMinted]
  cases totalInventory.isZero <;>
    cases Arith.checkedDiv (givenInventory.saturatingMul totalShares) totalInventory <;> simp

-- What the rounding takes away can always be subtracted.
theorem avoids_withdrawFees : (withdrawFees fees s asset).Avoids Fault.IsPanic := by
  simp only [withdrawFees]
  split
  · simp
  · simp only [Except.avoids_bind, avoids_check, true_and, Except.avoids_pure, implies_true, and_true]
    intro _ _ _ _
    refine avoids_subBalance.mpr fun balance hb _ _ => ?_
    rw [getBalance, hb, Option.getD_some]
    obtain ⟨z, hz⟩ := Decimal.exists_truncate_sub 9 balance
    obtain ⟨w, hw, _⟩ := Arith.sub_exact hz
    exact Option.ne_none_iff_exists'.mpr ⟨w, hw⟩

omit [PalletAccounts Acc] in
theorem avoids_importAddLiquidity {lp : Acc} :
    (s.importAddLiquidity market pool lp totalShares baseDeposited quoteDeposited reply).Avoids
      Fault.IsPanic ↔ ∀ market' issuedShares price totalInventory,
        reply = some (.addLiquidityResult market' pool lp issuedShares price totalInventory) →
        totalInventory ≈ s.inventory market pool baseDeposited quoteDeposited price →
        totalInventory.isZero = false →
        Arith.checkedDiv (((baseDeposited.saturatingMul price).saturatingAdd
          quoteDeposited).saturatingMul totalShares) totalInventory ≠ none := by
  simp only [importAddLiquidity, Except.avoids_bind, Except.avoids_pure, implies_true, and_true]
  cases reply with
  | none => simp [verifyAddLiquidity]
  | some reply =>
    cases reply with
    | addLiquidityResult market' pool' lp' issuedShares price totalInventory =>
      simp only [verifyAddLiquidity, Except.avoids_bind, avoids_check, true_and, check_eq_ok,
        avoids_sharesMinted, Except.avoids_pure, implies_true, and_true]
      constructor
      · rintro h _ _ _ _ ⟨⟩ hinventory hzero
        exact h () rfl () rfl () hinventory hzero
      · rintro h _ rfl _ rfl _ hinventory hzero
        exact h _ _ _ _ rfl hinventory hzero
    | _ => simp [verifyAddLiquidity]

omit [PalletAccounts Acc] in
theorem avoids_importRemoveLiquidity {lp : Acc} :
    (s.importRemoveLiquidity market pool lp burnFrac reply).Avoids Fault.IsPanic := by
  cases reply with
  | none => simp [importRemoveLiquidity]
  | some reply =>
    cases reply <;> simp [importRemoveLiquidity, Except.avoids_bind, avoids_subBalance_false]

theorem avoids_importTradingFees : (s.importTradingFees allowlistedToken reply).Avoids Fault.IsPanic := by
  cases reply with
  | none => simp [importTradingFees]
  | some reply =>
    cases reply with
    | tradingFees fees =>
      simp only [importTradingFees, Except.avoids_bind, Except.avoids_pure, implies_true, and_true]
      exact Except.avoids_foldlM.mpr fun _ _ _ _ _ _ => avoids_withdrawFees
    | _ => simp [importTradingFees]

theorem avoids_importMessage {m : IngressMessages Acc} :
    (importMessage allowlistedToken engineMessages acc m).Avoids Fault.IsPanic ↔
      acc.1.Mintable engineMessages m := by
  cases m with
  | addLiquidity =>
    simp only [importMessage, Mintable, Except.avoids_bind, Except.avoids_pure, implies_true, and_true,
      avoids_importAddLiquidity]
  | removeLiquidity =>
    simp [importMessage, Mintable, avoids_importRemoveLiquidity]
  | forceClosePool =>
    simp [importMessage, importForceClosePool, Mintable, Except.avoids_bind, avoids_subBalance_false]
  | withdrawTradingFees =>
    simp [importMessage, Mintable, avoids_importTradingFees]
  | _ => simp [importMessage, Mintable]

end OffchainState

section Batches

variable [Ord Acc] {cfg : Config} [PalletAccounts Acc] [Verify Acc Sign] [FromText]
  {chain : State Acc Auth W cfg} {s : OffchainState Acc}

omit [FromText] in
theorem avoids_settleTrade {t : Trade Acc Sign} :
    (settleTrade chain s t).Avoids Fault.IsPanic ↔
      ∀ config, chain.tradingPairs t.maker.pair = some config → t.Settleable config := by
  simp only [settleTrade]
  cases chain.tradingPairs t.maker.pair <;> simp [OffchainState.avoids_processTrade]

-- What an action of a batch computes is defined. A trade or a message is only reached if those before it
-- were processed.
def Computable (chain : State Acc Auth W cfg) (b : BatchState Acc) :
    UserActions Acc Sign → Prop
  | .trade ts => ∀ before t after s, before ++ t :: after = ts → trades chain b.state before = .ok s →
    ∀ config, chain.tradingPairs t.maker.pair = some config → t.Settleable config
  | .withdraw request | .withdrawV1 request _ => request.Deductible b.state
  | .blockImport blk engineMessages _ =>
    b.info.lastBlock = 0 ∨ blk = Word.saturatingAdd 32 b.info.lastBlock 1 →
    ∀ before m after acc, before ++ m :: after = (chain.ingressMessages blk).toList →
      before.foldlM (OffchainState.importMessage chain.allowlistedToken engineMessages) (b.state, []) =
        .ok acc → acc.1.Mintable engineMessages m
  | _ => True

omit [FromText] [Verify Acc Sign] in
theorem avoids_importBlk : (importBlk chain blk s info engineMessages).Avoids Fault.IsPanic ↔
      (info.lastBlock = 0 ∨ blk = Word.saturatingAdd 32 info.lastBlock 1 →
        ∀ before m after acc, before ++ m :: after = (chain.ingressMessages blk).toList →
          before.foldlM (OffchainState.importMessage chain.allowlistedToken engineMessages) (s, []) =
            .ok acc → acc.1.Mintable engineMessages m) := by
  simp only [importBlk, Except.avoids_bind, avoids_check, true_and, check_eq_ok, Except.avoids_pure,
    implies_true, and_true, Except.avoids_foldlM, OffchainState.avoids_importMessage, forall_const]

theorem avoids_processAction {action : UserActions Acc Sign} :
    (processAction chain b action).Avoids Fault.IsPanic ↔ Computable chain b action := by
  cases action with
  | trade ts =>
    simp only [processAction, Computable, trades, Except.avoids_bind, Except.avoids_pure, implies_true,
      and_true, Except.avoids_foldlM, avoids_settleTrade]
  | withdraw | withdrawV1 =>
    simp [processAction, Computable, avoids_withdraw]
  | blockImport =>
    simp only [processAction, Computable, Except.avoids_bind, Except.avoids_pure, implies_true, and_true,
      avoids_importBlk]
  | _ => simp [processAction, Computable]

-- A batch is processed without a panic if and only if what its actions compute is defined, each of them
-- in the state that it is reached in.
theorem batch_without_panic_iff (chain : State Acc Auth W cfg) (s : OffchainState Acc)
    (info : StateInfo) (batch : UserActionBatch Acc Sign) :
    (∀ message, processBatch chain s info batch ≠ .error (.panic message)) ↔
      (info.stid < batch.stid → ∀ before action after b, before ++ action :: after = batch.actions →
        before.foldlM (processAction chain) { state := s, info := info } = .ok b →
        Computable chain b action) := by
  have hiff : (processBatch chain s info batch).Avoids Fault.IsPanic ↔
      ∀ message, processBatch chain s info batch ≠ .error (.panic message) := by
    rw [Except.avoids_iff]
    exact ⟨fun h message => h _ ⟨message, rfl⟩, fun h e he => he.choose_spec ▸ h he.choose⟩
  rw [← hiff]
  simp only [processBatch, Except.avoids_bind, avoids_check, true_and, check_eq_ok, Except.avoids_foldlM,
    avoids_processAction, forall_const]

end Batches

end Actions

namespace Mock

attribute [local instance] Decimal.HalfEven.arith percent

def largeMarket : State Account ℕ World config :=
  Run.run step (.genesis [] fun _ _ => 0)
    ([.setExchangeState true, .allowlistToken (.asset 1), .allowlistToken .polkadex,
      .registerTradingPair (.asset 1) .polkadex unitBalance (100 * unitBalance) unitBalance unitBalance] :
      List (Call Account ℕ AuthSig))

-- The orders are about one unit at a price of one, but the trade of them is not.
def largeTrade : UserActionBatch Account Sig where
  actions := [.trade [{ trade .ask .bid with price := .max, amount := two }]]
  stid := 1
  snapshotId := 1
  signature := (0, .withdrawal ⟨.polkadex, "1", 0, none⟩)

-- The price is the largest decimal, so that its product with two overflows.
theorem large_trade_panics :
    (processBatch largeMarket funded {} largeTrade).map (fun _ => ()) =
      .error (.panic "Multiplication overflowed") := by
  decide +kernel

end Mock

end Ocex
